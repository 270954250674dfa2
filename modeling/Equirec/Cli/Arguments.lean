import Equirec.Comparison

/-!
# Command line arguments

    [-v]... check TERM [--env FILE]
    [-v]... equal LEFT RIGHT
    [-v]... subtype LEFT RIGHT

* `Cli.Invocation`  a command with the files that it names, and how often `-v` was given
* `Cli.Halt`        the arguments that ask for no command
* `Cli.parse`       the invocation that the arguments stand for

Arguments are read from left to right, and the first that halts decides.  The flag `-v` belongs in
front of the command.  Behind a command `--` makes all that follows it operands, and a single `-` is
an operand too.
-/

namespace Equirec.Cli

inductive Command where
  /-- the type of a term, in the environment of a file if one is given -/
  | check (term : String) (env : Option String)
  /-- whether the type of one file is related to that of another -/
  | compare (comparison : Comparison) (left right : String)
  deriving DecidableEq

structure Invocation where
  verbosity : Nat
  command : Command
  deriving DecidableEq

inductive Halt where
  /-- the arguments are not understood -/
  | usage
  | version
  | help
  deriving DecidableEq

/-- whether an argument is an option, or would be one if there were such an option -/
def isOption (arg : String) : Bool :=
  match arg.toList with
  | '-' :: _ :: _ => true
  | _ => false

/-- whether an argument can be the name of a file: it is neither an option nor empty -/
def isFile (arg : String) : Bool := !isOption arg && !arg.isEmpty

/-! ## behind a command -/

/-- the operands read so far in reverse, and the environment -/
structure Operands where
  files : List String
  env : Option String

namespace Operands

/-- one more operand, unless there are `limit` of them already -/
def addFile (limit : Nat) (ops : Operands) (file : String) : Except Halt Operands :=
  if ops.files.length < limit ∧ ¬ file.isEmpty then
    .ok { ops with files := file :: ops.files }
  else
    .error .usage

/-- the environment, unless there is one already -/
def setEnv (ops : Operands) (file : String) : Except Halt Operands :=
  if ops.env.isNone ∧ ¬ file.isEmpty then
    .ok { ops with env := some file }
  else
    .error .usage

def addFiles (limit : Nat) (ops : Operands) (files : List String) : Except Halt Operands :=
  files.foldlM (addFile limit) ops

/-- the file of an argument `--env=FILE` -/
def envFile? (arg : String) : Option String :=
  if "--env=".toList.isPrefixOf arg.toList then
    some (String.ofList (arg.toList.drop "--env=".length))
  else
    none

/-- an argument that is not the word `--env` -/
def readOne (limit : Nat) (hasEnv : Bool) (ops : Operands) (arg : String) :
    Except Halt Operands :=
  if arg = "-h" ∨ arg = "--help" then
    .error .help
  else if isOption arg then
    match envFile? arg with
    | some file => if hasEnv then ops.setEnv file else .error .usage
    | none => .error .usage
  else
    ops.addFile limit arg

/-- at most `limit` operands, and an environment if the command has one -/
def read (limit : Nat) (hasEnv : Bool) (ops : Operands) : List String → Except Halt Operands
  | [] => .ok ops
  | "--" :: rest => ops.addFiles limit rest
  | ["--env"] => .error .usage
  | "--env" :: file :: rest =>
    if hasEnv && isFile file then do
      let ops ← ops.setEnv file
      read limit hasEnv ops rest
    else
      .error .usage
  | arg :: rest => do
    let ops ← ops.readOne limit hasEnv arg
    read limit hasEnv ops rest

end Operands

def parseCheck (args : List String) : Except Halt Command := do
  let ops ← Operands.read 1 true ⟨[], none⟩ args
  match ops.files with
  | [term] => .ok (.check term ops.env)
  | _ => .error .usage

def parseCompare (c : Comparison) (args : List String) : Except Halt Command := do
  let ops ← Operands.read 2 false ⟨[], none⟩ args
  match ops.files with
  | [right, left] => .ok (.compare c left right)
  | _ => .error .usage

/-! ## in front of a command -/

/-- the letters of an argument such as `-vv`, which count up the verbosity -/
def readLetters (verbosity : Nat) : List Char → Except Halt Nat
  | [] => .ok verbosity
  | 'v' :: rest => readLetters (verbosity + 1) rest
  | 'V' :: _ => .error .version
  | 'h' :: _ => .error .help
  | _ => .error .usage

def commandNames : List String := ["check", "equal", "subtype", "help"]

/-- `help` may be followed by the name of a command -/
def parseHelp : List String → Halt
  | [] => .help
  | [name] => if commandNames.contains name then .help else .usage
  | _ => .usage

def parseFrom (verbosity : Nat) : List String → Except Halt Invocation
  | [] => .error .usage
  | "check" :: rest => do .ok ⟨verbosity, ← parseCheck rest⟩
  | "equal" :: rest => do .ok ⟨verbosity, ← parseCompare .equality rest⟩
  | "subtype" :: rest => do .ok ⟨verbosity, ← parseCompare .subtyping rest⟩
  | "help" :: rest => .error (parseHelp rest)
  | "--verbose" :: rest => parseFrom (verbosity + 1) rest
  | "--version" :: _ => .error .version
  | "--help" :: _ => .error .help
  | arg :: rest =>
    match arg.toList with
    | '-' :: c :: letters => do
      let verbosity ← readLetters verbosity (c :: letters)
      parseFrom verbosity rest
    | _ => .error .usage

def parse (args : List String) : Except Halt Invocation := parseFrom 0 args

end Equirec.Cli
