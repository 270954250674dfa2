import Equirec.Json.Reader.Value
import Equirec.Json.Decode

/-!
# Types, terms and environments from texts

* `Json.Reader.tagged`     a tagged value, up to its variant and the rest of its content
* `Json.Reader.decoded`    what the variant makes of the content
* `Json.Reader.bindings`   an object of types
* `Ty.parse`, `Term.parse`, `Scope.parse`   a whole text

A text is decoded as it is read, so that of two faults the one that is met first counts.  The tag of
the outermost value is looked at as soon as it is read; its other fields are decoded when it is
complete.  Each type of an environment is decoded before the next is read.  At most
`Json.depthLimit` lists and objects may stand inside each other.
-/

namespace Equirec

namespace Json

def depthLimit : Nat := 127

namespace Reader

variable {α : Type}

/-- the tag of an outermost value -/
def tag (variants : List (Variant α)) (n : Nat) : Reader (Variant α) := do
  let c ← peek
  if c = '[' ∨ c = '\x7b' then
    mismatch .other
  else
    let j ← value n none
    ofExcept (Variant.ofJson variants .byTag j)

/-- one field of a tagged object, after the variant and the fields met before -/
def taggedField (variants : List (Variant α)) (n : Nat) (room : Room) :
    Option (Variant α) × List (String × Json) → String →
      Reader (Option (Variant α) × List (String × Json))
  | (found, before), key =>
    if key = "tag" then do
      if found.isSome then
        mismatch (.duplicateField "tag")
      else
        colon
        pure (some (← tag variants n), before)
    else do
      colon
      pure (found, (key, ← value n room) :: before)

/-- one item of a tagged list, after the variant and the items met before -/
def taggedItem (variants : List (Variant α)) (n : Nat) (room : Room) :
    Option (Variant α × List Json) → Reader (Option (Variant α × List Json))
  | none => do pure (some (← tag variants n, []))
  | some (v, before) => do pure (some (v, (← value n room) :: before))

/-- a value that should have been of another sort: it is read, and then refused -/
def refuse (n : Nat) : Reader α := do
  let _ ← value n none
  mismatch .other

def tagged (variants : List (Variant α)) (n : Nat) (room : Room) :
    Reader (Variant α × Content) := do
  match ← peek with
  | '\x7b' => do
    let inner ← enter room
    skip
    match ← fields (taggedField variants n inner) n (none, []) with
    | (some v, fs) => pure (v, .fields fs.reverse)
    | (none, _) => mismatch (.missingField "tag")
  | '[' => do
    let inner ← enter room
    skip
    match ← items (taggedItem variants n inner) n none with
    | some (v, js) => pure (v, .items js.reverse)
    | none => mismatch (.missingField "tag")
  | _ => refuse n

def decoded (variants : List (Variant α)) (n : Nat) (room : Room) : Reader α := do
  let (v, content) ← tagged variants n room
  ofExcept (v.decode content)

def bindings (n : Nat) (room : Room) : Reader Scope := do
  match ← peek with
  | '\x7b' => do
    let inner ← enter room
    skip
    fields (fun s x => do
      colon
      pure (s.insert x (← decoded typeVariants n inner))) n Scope.empty
  | '[' => mismatch .other
  | _ => refuse n

end Reader

end Json

def Ty.parse (text : String) : Except Json.Failure Ty :=
  Json.read (fun n => Json.Reader.decoded Json.typeVariants n (some Json.depthLimit)) text

def Term.parse (text : String) : Except Json.Failure Term :=
  Json.read (fun n => Json.Reader.decoded Json.termVariants n (some Json.depthLimit)) text

def Scope.parse (text : String) : Except Json.Failure Scope :=
  Json.read (fun n => Json.Reader.bindings n (some Json.depthLimit)) text

end Equirec
