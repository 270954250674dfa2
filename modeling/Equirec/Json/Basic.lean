import Equirec.Name

/-!
# JSON values

* `Json`           a value; an object is a list of fields in order, and a key may come twice
* `Json.induct`    induction on values, with one hypothesis for all items or fields
* `Json.Mismatch`  how a value can fail to be the form of what is wanted
* `Json.Failure`   how a text can fail: it is no JSON, it ends too early, or its value mismatches

A numeral without sign, fraction and exponent that is below `2 ^ 64` is kept as a natural number,
any other as a float.
-/

namespace Equirec

inductive Json where
  | null
  | bool (value : Bool)
  | natural (value : Nat)
  | real (value : Float)
  | string (value : String)
  | array (items : List Json)
  | object (fields : List (String × Json))
  deriving Inhabited

namespace Json

/-- induction on values: a list and an object give the hypothesis for each value in them -/
@[elab_as_elim, induction_eliminator]
theorem induct {P : Json → Prop} (null : P .null) (bool : ∀ b, P (.bool b))
    (natural : ∀ n, P (.natural n)) (real : ∀ x, P (.real x)) (string : ∀ s, P (.string s))
    (array : ∀ js : List Json, (∀ j ∈ js, P j) → P (.array js))
    (object : ∀ fs : List (String × Json), (∀ f ∈ fs, P f.2) → P (.object fs)) (j : Json) : P j :=
  Json.rec (motive_1 := P) (motive_2 := fun js => ∀ j ∈ js, P j)
    (motive_3 := fun fs => ∀ f ∈ fs, P f.2) (motive_4 := fun f => P f.2)
    null bool natural real string (fun js h => array js h) (fun fs h => object fs h)
    (by simp) (fun j js hj hjs => by simpa using ⟨hj, hjs⟩)
    (by simp) (fun f fs hf hfs => by simpa using ⟨hf, by simpa using hfs⟩) (fun _ _ h => h) j

inductive Mismatch where
  | missingField (label : String)
  | duplicateField (label : String)
  /-- the tag of a tagged value is none of those expected -/
  | unknownVariant (tag : String) (expected : List String)
  /-- the wrong sort of value, or a list of the wrong length -/
  | other
  deriving DecidableEq

inductive Failure where
  | malformed
  | cutShort
  | mismatch (cause : Mismatch)
  deriving DecidableEq

def Mismatch.message : Mismatch → String
  | missingField x => "missing field " ++ quoted x
  | duplicateField x => "duplicate field " ++ quoted x
  | unknownVariant x expected =>
    "unknown variant " ++ quoted x ++ ", expected one of " ++
      ", ".intercalate (expected.map quoted)
  | other => ""

end Json

end Equirec
