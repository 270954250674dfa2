import Equirec.Json.Basic
import Equirec.Ty.Basic
import Equirec.Term.Basic

/-!
# The JSON form of types and terms

A type or a term is a tagged value: its tag names a variant, which has fields of its own.

* `Json.Kind`          what may stand in a field
* `Json.Variant`       a tag, its fields in the order of their declaration, and what they make
* `Json.typeVariants`  the variants of types
* `Json.termVariants`  the variants of terms
-/

namespace Equirec.Json

inductive Kind where
  | name
  | number
  | type
  | term
  | list (item : Kind)
  /-- a name and a second field under a label -/
  | named (label : String) (kind : Kind)

/-- what a field of a kind holds -/
@[reducible]
def Kind.Value : Kind → Type
  | name => Name
  | number => Float
  | type => Ty
  | term => Term
  | list k => List k.Value
  | named _ k => Name × k.Value

structure Field where
  label : String
  kind : Kind

/-- what fields hold, one value for each of them -/
@[reducible]
def Values : List Field → Type
  | [] => Unit
  | f :: fs => f.kind.Value × Values fs

structure Variant (α : Type) where
  tag : String
  fields : List Field
  make : Values fields → α

/-- named types -/
def rowKind : Kind := .list (.named "type" .type)

def typeVariants : List (Variant Ty) :=
  [ ⟨"Boolean", [], fun _ => .boolean⟩,
    ⟨"Number", [], fun _ => .number⟩,
    ⟨"Func", [⟨"params", rowKind⟩, ⟨"retType", .type⟩],
      fun (params, result, _) => .func params result⟩,
    ⟨"Object", [⟨"props", rowKind⟩], fun (props, _) => .object props⟩,
    ⟨"TypeVar", [⟨"name", .name⟩], fun (x, _) => .var x⟩,
    ⟨"Rec", [⟨"name", .name⟩, ⟨"type", .type⟩], fun (x, body, _) => .mu x body⟩ ]

def termVariants : List (Variant Term) :=
  [ ⟨"true", [], fun _ => .bool true⟩,
    ⟨"false", [], fun _ => .bool false⟩,
    ⟨"number", [⟨"n", .number⟩], fun (n, _) => .number n⟩,
    ⟨"if", [⟨"cond", .term⟩, ⟨"thn", .term⟩, ⟨"els", .term⟩], fun (c, t, e, _) => .ite c t e⟩,
    ⟨"add", [⟨"left", .term⟩, ⟨"right", .term⟩], fun (l, r, _) => .add l r⟩,
    ⟨"var", [⟨"name", .name⟩], fun (x, _) => .var x⟩,
    ⟨"func", [⟨"params", rowKind⟩, ⟨"body", .term⟩], fun (ps, b, _) => .func ps b⟩,
    ⟨"call", [⟨"func", .term⟩, ⟨"args", .list .term⟩], fun (f, as, _) => .call f as⟩,
    ⟨"seq", [⟨"body", .term⟩, ⟨"rest", .term⟩], fun (a, r, _) => .seq a r⟩,
    ⟨"const", [⟨"name", .name⟩, ⟨"init", .term⟩, ⟨"rest", .term⟩],
      fun (x, a, r, _) => .const x a r⟩,
    ⟨"objectNew", [⟨"props", .list (.named "term" .term)⟩], fun (ps, _) => .object ps⟩,
    ⟨"objectGet", [⟨"obj", .term⟩, ⟨"propName", .name⟩], fun (o, x, _) => .get o x⟩,
    ⟨"recFunc", [⟨"funcName", .name⟩, ⟨"params", rowKind⟩, ⟨"retType", .type⟩, ⟨"body", .term⟩,
        ⟨"rest", .term⟩],
      fun (f, ps, t, b, r, _) => .recFunc f ps t b r⟩ ]

/-! ## tags -/

namespace Variant

variable {α : Type}

/-- the variant of a tag -/
def ofTag (variants : List (Variant α)) (tag : String) : Except Mismatch (Variant α) :=
  match variants.find? fun v => v.tag == tag with
  | some v => .ok v
  | none => .error (.unknownVariant tag (variants.map Variant.tag))

/-- the variant of a place in the list of variants -/
def ofPlace (variants : List (Variant α)) (n : Nat) : Except Mismatch (Variant α) :=
  match variants[n]? with
  | some v => .ok v
  | none => .error .other

/-- whether a variant may be given by its place as well as by its tag -/
inductive Tagging where
  | byTag
  | byTagOrPlace
  deriving DecidableEq

/-- the variant that the value of a tag stands for -/
def ofJson (variants : List (Variant α)) : Tagging → Json → Except Mismatch (Variant α)
  | _, .string tag => ofTag variants tag
  | .byTagOrPlace, .natural n => ofPlace variants n
  | _, _ => .error .other

/-- the variant of an object, given the variant of its fields so far; its tag may be any field but
there may be no second one -/
def ofFields (variants : List (Variant α)) (tagging : Tagging) :
    Option (Variant α) → List (String × Json) → Except Mismatch (Variant α)
  | none, [] => .error (.missingField "tag")
  | some v, [] => .ok v
  | found, (key, j) :: rest =>
    if key = "tag" then
      match found with
      | some _ => .error (.duplicateField "tag")
      | none => do ofFields variants tagging (some (← ofJson variants tagging j)) rest
    else
      ofFields variants tagging found rest

end Variant

end Equirec.Json
