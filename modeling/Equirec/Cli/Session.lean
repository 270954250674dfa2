import Equirec.Cli.Arguments
import Equirec.Cli.Log
import Equirec.Cli.Report
import Equirec.Json.Document
import Equirec.Term.Typing

/-!
# Sessions

* `Cli.Files`     what stands in the files
* `Cli.Answer`    what a command finds out
* `Cli.Failure`   why a command finds out nothing
* `Cli.Session`   the log of a command and its result
* `Cli.perform`   the session of a command
* `Cli.Response`  what is written out, and the exit code
* `Cli.respond`   the response to arguments
-/

namespace Equirec.Cli

/-! ## results -/

inductive Answer where
  | typed (t : Ty)
  | verdict (holds : Bool)

namespace Answer

def colour : Answer → Colour
  | typed _ => .brightGreen
  | verdict true => .brightGreen
  | verdict false => .yellow

def text : Answer → String
  | typed t => t.display
  | verdict true => "true"
  | verdict false => "false"

end Answer

inductive Failure where
  | unreadable (file reason : String)
  | invalid (file : String) (f : Json.Failure)
  | fault (e : TypeError)
  /-- a fault in the type that an environment gives to a name -/
  | faultOf (x : Name) (e : TypeError)
  /-- the budget is used up -/
  | gaveUp

def detail : Json.Failure → String
  | .malformed => "the text is no JSON"
  | .cutShort => "the text ends too early"
  | .mismatch .other => "the value is not of the form wanted"
  | .mismatch m => m.message

def Failure.text (colours : Bool) : Failure → String
  | unreadable file reason => "Could not read " ++ file ++ ": " ++ reason
  | invalid file f => "Invalid JSON in " ++ file ++ ": " ++ detail f
  | fault e => report colours e
  | faultOf x e => "In the type of `" ++ x ++ "`: " ++ report colours e
  | gaveUp => "Gave up: the types unfold too often"

/-! ## files -/

/-- the contents of the files by name, or why there are none -/
abbrev Files := String → Except String String

def noSuchFile : String := "No such file or directory (os error 2)"

def readFile {α : Type} (files : Files) (parse : String → Except Json.Failure α) (file : String) :
    Except Failure α :=
  match files file with
  | .error reason => .error (.unreadable file reason)
  | .ok text =>
    match parse text with
    | .ok a => .ok a
    | .error f => .error (.invalid file f)

/-! ## commands -/

structure Session where
  log : List LogLine
  result : Except Failure Answer

/-- the result of an outcome -/
def resultOf {α : Type} (answer : α → Answer) : Outcome α → Except Failure Answer
  | .ok a => .ok (answer a)
  | .error e => .error (.fault e)
  | .exhausted => .error .gaveUp

/-- refuses an environment with a type that has a free variable -/
def validateBindings : Row → Except Failure Unit
  | [] => .ok ()
  | (x, t) :: rest =>
    match t.validate with
    | .ok _ => validateBindings rest
    | .error e => .error (.faultOf x e)

def readContext (files : Files) : Option String → Except Failure Context
  | none => .ok Context.empty
  | some file => do
    let s ← readFile files Scope.parse file
    validateBindings s.bindings
    .ok ⟨[s]⟩

def readType (files : Files) (file : String) : Except Failure Ty := do
  let t ← readFile files Ty.parse file
  match t.validate with
  | .ok _ => .ok t
  | .error e => .error (.fault e)

def checkSession (file : String) (m : Term) (Γ : Context) : Session :=
  let run := m.check Γ
  { log :=
      Γ.bindings.map (fun p => .debug (p.1 ++ ": " ++ p.2.display)) ++
        [.debug ("Checking " ++ file)] ++ run.events.map .ofEvent ++
        [.debug ("Checked " ++ file)]
    result := resultOf .typed run.outcome }

/-- the line of the log that states what was found out about two types -/
def verdictLog (t u : Ty) : Outcome Bool → List LogLine
  | .ok b => [.debug (t.display ++ " against " ++ u.display ++ ": " ++ (Answer.verdict b).text)]
  | _ => []

def compareSession (c : Comparison) (t u : Ty) : Session :=
  let run := c.holds t u
  { log := run.events.map .ofEvent ++ verdictLog t u run.outcome
    result := resultOf .verdict run.outcome }

def perform (files : Files) : Command → Session
  | .check term env =>
    let read : Except Failure (Term × Context) := do
      let m ← readFile files Term.parse term
      let Γ ← readContext files env
      .ok (m, Γ)
    match read with
    | .ok (m, Γ) => checkSession term m Γ
    | .error f => ⟨[], .error f⟩
  | .compare c left right =>
    let read : Except Failure (Ty × Ty) := do
      let t ← readType files left
      let u ← readType files right
      .ok (t, u)
    match read with
    | .ok (t, u) => compareSession c t u
    | .error f => ⟨[], .error f⟩

/-! ## responses -/

structure Response where
  exitCode : Nat
  output : String
  errors : String
  deriving DecidableEq

/-- a line for each text -/
def lines (texts : List String) : String := String.join (texts.map (· ++ "\n"))

def Session.respond (colours : Bool) (verbosity : Nat) (s : Session) : Response :=
  let log := (shown verbosity s.log).map LogLine.text
  match s.result with
  | .ok a => ⟨0, lines [a.colour.paint colours a.text], lines log⟩
  | .error f => ⟨1, "", lines (log ++ [Colour.brightRed.paint colours (f.text colours)])⟩

def versionText : String := "tiny-typeck 0.1.0"

def usageText : List String :=
  [ "Usage: tiny-typeck [-v]... check TERM [--env FILE]",
    "       tiny-typeck [-v]... equal LEFT RIGHT",
    "       tiny-typeck [-v]... subtype LEFT RIGHT" ]

def Halt.respond : Halt → Response
  | usage => ⟨2, "", lines usageText⟩
  | version => ⟨0, lines [versionText], ""⟩
  | help => ⟨0, lines usageText, ""⟩

def respond (files : Files) (colours : Bool) (args : List String) : Response :=
  match parse args with
  | .ok invocation => (perform files invocation.command).respond colours invocation.verbosity
  | .error halt => halt.respond

/-- the files that a command reads -/
def Command.files : Command → List String
  | check term env => term :: env.toList
  | compare _ left right => [left, right]

end Equirec.Cli
