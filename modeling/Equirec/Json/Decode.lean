import Equirec.Json.Form
import Equirec.Context

/-!
# From JSON to types and terms

* `Json.Slots`           the fields of a variant that have been met, each with its value
* `Json.decode`          what a value stands for in a field of a kind
* `Json.Variant.decode`  what a variant makes of the rest of a tagged value

A tagged value is an object with a field `tag`, at any place among the fields of its variant, or a
list of the tag and all fields in order.  The tag is looked for first.  Then the fields are decoded
in the order in which they stand, and the first that fails is the failure of the whole; only at the
end a field is found missing, the one declared first.  Fields that the variant does not have are
passed over.
-/

namespace Equirec.Json

/-! ## slots -/

@[reducible]
def Slots : List Field → Type
  | [] => Unit
  | f :: fs => Option f.kind.Value × Slots fs

namespace Slots

def empty : (fields : List Field) → Slots fields
  | [] => ()
  | _ :: fs => (none, empty fs)

/-- fills the slot of a label, which has to be empty; a label without a slot is passed over -/
def fill (label : String) (decoded : (k : Kind) → Except Mismatch k.Value) :
    (fields : List Field) → Slots fields → Except Mismatch (Slots fields)
  | [], _ => .ok ()
  | f :: fs, (slot, slots) =>
    if f.label = label then
      match slot with
      | some _ => .error (.duplicateField label)
      | none => do
        let a ← decoded f.kind
        .ok (some a, slots)
    else do
      let slots ← fill label decoded fs slots
      .ok (slot, slots)

/-- the values of all slots, none of which may be empty -/
def close : (fields : List Field) → Slots fields → Except Mismatch (Values fields)
  | [], _ => .ok ()
  | f :: _, (none, _) => .error (.missingField f.label)
  | _ :: fs, (some a, slots) => do
    let values ← close fs slots
    .ok (a, values)

theorem fill_again {label : String} {decoded : (k : Kind) → Except Mismatch k.Value} {f : Field}
    {fs : List Field} {a : f.kind.Value} {slots : Slots fs} (h : f.label = label) :
    fill label decoded (f :: fs) (some a, slots) = .error (.duplicateField label) := by
  simp [fill, h]

end Slots

/-! ## values -/

/-- the fields of a named thing -/
def namedFields (label : String) (kind : Kind) : List Field := [⟨"name", .name⟩, ⟨label, kind⟩]

mutual
def decode : Json → (k : Kind) → Except Mismatch k.Value
  | .string x, .name => .ok x
  | .natural n, .number => .ok (Float.ofNat n)
  | .real x, .number => .ok x
  | .array js, .list k => decodeItems js k
  | .object fs, .named label k => do
    let slots ← decodeFields fs (namedFields label k) (Slots.empty _)
    let (x, a, _) ← Slots.close _ slots
    .ok (x, a)
  | .array js, .named label k => do
    let (x, a, _) ← decodeSequence js (namedFields label k)
    .ok (x, a)
  | .object fs, .type => do
    let v ← Variant.ofFields typeVariants .byTagOrPlace none fs
    let slots ← decodeFields fs v.fields (Slots.empty _)
    let values ← Slots.close _ slots
    .ok (v.make values)
  | .array [], .type => .error (.missingField "tag")
  | .array (tag :: js), .type => do
    let v ← Variant.ofJson typeVariants .byTagOrPlace tag
    let values ← decodeSequence js v.fields
    .ok (v.make values)
  | .object fs, .term => do
    let v ← Variant.ofFields termVariants .byTagOrPlace none fs
    let slots ← decodeFields fs v.fields (Slots.empty _)
    let values ← Slots.close _ slots
    .ok (v.make values)
  | .array [], .term => .error (.missingField "tag")
  | .array (tag :: js), .term => do
    let v ← Variant.ofJson termVariants .byTagOrPlace tag
    let values ← decodeSequence js v.fields
    .ok (v.make values)
  | _, _ => .error .other
/-- a list of any length -/
def decodeItems : List Json → (k : Kind) → Except Mismatch (List k.Value)
  | [], _ => .ok []
  | j :: js, k => do
    let a ← decode j k
    let as ← decodeItems js k
    .ok (a :: as)
/-- a list of as many items as there are fields -/
def decodeSequence : List Json → (fields : List Field) → Except Mismatch (Values fields)
  | [], [] => .ok ()
  | j :: js, f :: fs => do
    let a ← decode j f.kind
    let values ← decodeSequence js fs
    .ok (a, values)
  | _, _ => .error .other
/-- the fields of an object, one after the other -/
def decodeFields : List (String × Json) → (fields : List Field) → Slots fields →
    Except Mismatch (Slots fields)
  | [], _, slots => .ok slots
  | (key, j) :: rest, fields, slots => do
    let slots ← Slots.fill key (decode j) fields slots
    decodeFields rest fields slots
end

theorem decodeItems_cons (j : Json) (js : List Json) (k : Kind) :
    decodeItems (j :: js) k = (do
      let a ← decode j k
      let as ← decodeItems js k
      .ok (a :: as)) := rfl

theorem decodeFields_cons (key : String) (j : Json) (rest : List (String × Json))
    (fields : List Field) (slots : Slots fields) :
    decodeFields ((key, j) :: rest) fields slots = (do
      let slots ← Slots.fill key (decode j) fields slots
      decodeFields rest fields slots) := rfl

/-! ## tagged values -/

/-- a tagged value without its tag -/
inductive Content where
  | fields (fields : List (String × Json))
  | items (items : List Json)

namespace Variant

variable {α : Type}

def decode (v : Variant α) : Content → Except Mismatch α
  | .fields fs => do
    let slots ← decodeFields fs v.fields (Slots.empty _)
    let values ← Slots.close _ slots
    .ok (v.make values)
  | .items js => do
    let values ← decodeSequence js v.fields
    .ok (v.make values)

/-- an outermost tagged value, whose variant is given by its tag alone -/
def decodeOutermost (variants : List (Variant α)) : Json → Except Mismatch α
  | .object fs => do
    let v ← ofFields variants .byTag none fs
    v.decode (.fields fs)
  | .array [] => .error (.missingField "tag")
  | .array (tag :: js) => do
    let v ← ofJson variants .byTag tag
    v.decode (.items js)
  | _ => .error .other

end Variant

end Json

def Ty.ofJson : Json → Except Json.Mismatch Ty := Json.Variant.decodeOutermost Json.typeVariants

def Term.ofJson : Json → Except Json.Mismatch Term :=
  Json.Variant.decodeOutermost Json.termVariants

/-- bindings from an object of types, in its order; a name that comes again has its first place and
its last type -/
def Scope.ofJson : Json → Except Json.Mismatch Scope
  | .object fs =>
    fs.foldlM (fun s p => do
      let t ← Ty.ofJson p.2
      .ok (s.insert p.1 t)) Scope.empty
  | _ => .error .other

end Equirec
