import Mathlib.Data.List.Forall2
import Equirec.Json.Encode
import Equirec.Json.Form

/-!
# The renderings of types and terms

A rendering of a tagged value is an object with its tag and each of its fields once, in any order
and with any other keys, or the list of its tag and all its fields in their order.

* `Json.HasParts`             an object with some parts, or the list of them
* `Ty.Rendered`, `Term.Rendered`
                              the renderings of a type and of a term
* `Json.hasParts_object_iff`  an object with no key twice and as many fields as there are parts
* `Term.numerals`             the numbers written in a term
* `Ty.rendered_toJson`, `Term.rendered_toJson_iff`
                              what is written for a type is a rendering of it, and so is what is
                              written for a term whose numbers are finite
-/

namespace Equirec

namespace Json

/-! ## parts -/

/-- a part of a value: its label, and what may stand for it -/
abbrev Part := String × (Json → Prop)

/-- one field has the key, and this is its value -/
def Once (fs : List (String × Json)) (key : String) (j : Json) : Prop :=
  fs.filter (fun f => f.1 == key) = [(key, j)]

/-- an object with each part once, whatever its other keys, or the list of all parts -/
def HasParts (parts : List Part) : Json → Prop
  | .object fs => ∀ p ∈ parts, ∃ j, Once fs p.1 j ∧ p.2 j
  | .array js => List.Forall₂ (fun p j => p.2 j) parts js
  | _ => False

def IsName (x : Name) : Json → Prop
  | .string s => s = x
  | _ => False

/-- a numeral of the number; one that is kept as a natural number is that of the nearest float -/
def IsNumber (x : Float) : Json → Prop
  | .natural n => Float.ofNat n = x
  | .real y => y = x
  | _ => False

/-- a list whose items are renderings of this and that, one after the other -/
def IsList (items : List (Json → Prop)) : Json → Prop
  | .array js => List.Forall₂ (fun P j => P j) items js
  | _ => False

/-- a name and a second part -/
def IsNamed (x : Name) (label : String) (P : Json → Prop) : Json → Prop :=
  HasParts [("name", IsName x), (label, P)]

/-- the tag of a variant or, if variants may be given so, its place among the variants -/
def IsTag : Variant.Tagging → String → Nat → Json → Prop
  | _, tag, _, .string s => s = tag
  | .byTagOrPlace, _, place, .natural n => n = place
  | _, _, _, _ => False

def IsTagged (tagging : Variant.Tagging) (tag : String) (place : Nat) (parts : List Part) :
    Json → Prop :=
  HasParts (("tag", IsTag tagging tag place) :: parts)

end Json

open Json

/-! ## types and terms -/

mutual
/-- the renderings of a type, its variant being given as in `top`, and as in `below` in the types
inside it -/
def Ty.Rendered (below : Variant.Tagging) : Variant.Tagging → Ty → Json → Prop
  | top, .boolean => IsTagged top "Boolean" 0 []
  | top, .number => IsTagged top "Number" 1 []
  | top, .func ps r =>
    IsTagged top "Func" 2
      [("params", IsList (Ty.rowRenderings below ps)), ("retType", r.Rendered below below)]
  | top, .object ps => IsTagged top "Object" 3 [("props", IsList (Ty.rowRenderings below ps))]
  | top, .var x => IsTagged top "TypeVar" 4 [("name", IsName x)]
  | top, .mu x b =>
    IsTagged top "Rec" 5 [("name", IsName x), ("type", b.Rendered below below)]
def Ty.rowRenderings (below : Variant.Tagging) : Row → List (Json → Prop)
  | [] => []
  | (x, t) :: ps => IsNamed x "type" (t.Rendered below below) :: Ty.rowRenderings below ps
end

mutual
/-- the renderings of a term, as those of a type -/
def Term.Rendered (below : Variant.Tagging) : Variant.Tagging → Term → Json → Prop
  | top, .bool true => IsTagged top "true" 0 []
  | top, .bool false => IsTagged top "false" 1 []
  | top, .number n => IsTagged top "number" 2 [("n", IsNumber n)]
  | top, .ite c t e =>
    IsTagged top "if" 3 [("cond", c.Rendered below below), ("thn", t.Rendered below below),
      ("els", e.Rendered below below)]
  | top, .add l r =>
    IsTagged top "add" 4 [("left", l.Rendered below below), ("right", r.Rendered below below)]
  | top, .var x => IsTagged top "var" 5 [("name", IsName x)]
  | top, .func ps b =>
    IsTagged top "func" 6
      [("params", IsList (Ty.rowRenderings below ps)), ("body", b.Rendered below below)]
  | top, .call f as =>
    IsTagged top "call" 7
      [("func", f.Rendered below below), ("args", IsList (Term.argsRenderings below as))]
  | top, .seq a r =>
    IsTagged top "seq" 8 [("body", a.Rendered below below), ("rest", r.Rendered below below)]
  | top, .const x a r =>
    IsTagged top "const" 9 [("name", IsName x), ("init", a.Rendered below below),
      ("rest", r.Rendered below below)]
  | top, .object ps =>
    IsTagged top "objectNew" 10 [("props", IsList (Term.propsRenderings below ps))]
  | top, .get o x =>
    IsTagged top "objectGet" 11 [("obj", o.Rendered below below), ("propName", IsName x)]
  | top, .recFunc f ps t b r =>
    IsTagged top "recFunc" 12 [("funcName", IsName f),
      ("params", IsList (Ty.rowRenderings below ps)), ("retType", t.Rendered below below),
      ("body", b.Rendered below below), ("rest", r.Rendered below below)]
def Term.argsRenderings (below : Variant.Tagging) : List Term → List (Json → Prop)
  | [] => []
  | a :: as => a.Rendered below below :: Term.argsRenderings below as
def Term.propsRenderings (below : Variant.Tagging) : List (Name × Term) → List (Json → Prop)
  | [] => []
  | (x, a) :: ps => IsNamed x "term" (a.Rendered below below) :: Term.propsRenderings below ps
end

section
variable (below : Variant.Tagging)

theorem Ty.rowRenderings_eq_map (ps : Row) :
    Ty.rowRenderings below ps = ps.map fun p => IsNamed p.1 "type" (p.2.Rendered below below) := by
  induction ps with
  | nil => rfl
  | cons p ps ih => rw [List.map_cons, ← ih, Ty.rowRenderings]

theorem Term.argsRenderings_eq_map (as : List Term) :
    Term.argsRenderings below as = as.map fun a => a.Rendered below below := by
  induction as with
  | nil => rfl
  | cons a as ih => rw [List.map_cons, ← ih, Term.argsRenderings]

theorem Term.propsRenderings_eq_map (ps : List (Name × Term)) :
    Term.propsRenderings below ps =
      ps.map fun p => IsNamed p.1 "term" (p.2.Rendered below below) := by
  induction ps with
  | nil => rfl
  | cons p ps ih => rw [List.map_cons, ← ih, Term.propsRenderings]

end

/-! ## objects as they are written -/

namespace Json

theorem Once.mem {fs : List (String × Json)} {key : String} {j : Json} (h : Once fs key j) :
    (key, j) ∈ fs := by
  have hmem : (key, j) ∈ fs.filter (fun f => f.1 == key) := h ▸ List.mem_singleton_self _
  exact List.mem_of_mem_filter hmem

theorem Once.unique {fs : List (String × Json)} {key : String} {j j' : Json}
    (h : Once fs key j) (h' : Once fs key j') : j = j' := by
  have hsame : [(key, j)] = [(key, j')] := h.symm.trans h'
  simpa using hsame

theorem once_of_mem {fs : List (String × Json)} (hk : (fs.map Prod.fst).Nodup) {key : String}
    {j : Json} (h : (key, j) ∈ fs) : Once fs key j := by
  induction fs with
  | nil => exact absurd h List.not_mem_nil
  | cons f fs ih =>
    obtain ⟨hf, hk⟩ := List.nodup_cons.mp hk
    rw [Once]
    rcases List.mem_cons.mp h with rfl | h
    · -- no other field has the key
      have hnone : fs.filter (fun f => f.1 == key) = [] := by
        refine List.filter_eq_nil_iff.mpr fun g hg he => hf ?_
        exact List.mem_map.mpr ⟨g, hg, beq_iff_eq.mp he⟩
      rw [List.filter_cons_of_pos (by simp), hnone]
    · have hne : f.1 ≠ key := fun e => hf (List.mem_map.mpr ⟨(key, j), h, e.symm⟩)
      rw [List.filter_cons_of_neg (by simpa using hne)]
      exact ih hk h

/-- an object whose keys are the labels of the parts in their order has these parts if each field is
as its part asks -/
theorem hasParts_object_iff (labels : List String) (hd : labels.Nodup) {parts : List Part}
    {fs : List (String × Json)} (hp : parts.map Prod.fst = labels) (hf : fs.map Prod.fst = labels) :
    HasParts parts (.object fs) ↔ List.Forall₂ (fun p f => p.2 f.2) parts fs := by
  have hk : (fs.map Prod.fst).Nodup := hf ▸ hd
  have hlabels : List.Forall₂ (fun p f => p.1 = f.1) parts fs := by
    have hmaps : List.Forall₂ Eq (parts.map Prod.fst) (fs.map Prod.fst) := by
      rw [hp, hf]
      exact List.forall₂_same.mpr fun _ _ => rfl
    rwa [List.forall₂_map_left_iff, List.forall₂_map_right_iff] at hmaps
  obtain ⟨hlen, hlabels⟩ := List.forall₂_iff_zip.mp hlabels
  rw [List.forall₂_iff_zip]
  constructor
  · refine fun h => ⟨hlen, fun {p f} hpf => ?_⟩
    obtain ⟨hp, hf⟩ := List.of_mem_zip hpf
    obtain ⟨j, hj, hpj⟩ := h p hp
    rw [hlabels hpf] at hj
    rwa [hj.unique (once_of_mem hk hf)] at hpj
  · rintro ⟨_, h⟩ p hp
    obtain ⟨i, hi⟩ := List.mem_iff_getElem?.mp hp
    have hlt : i < fs.length := hlen ▸ (List.getElem?_eq_some_iff.mp hi).1
    have hpf : (p, fs[i]) ∈ parts.zip fs :=
      List.mem_of_getElem? (List.getElem?_zip_eq_some.mpr ⟨hi, List.getElem?_eq_getElem hlt⟩)
    refine ⟨fs[i].2, ?_, h hpf⟩
    rw [hlabels hpf]
    exact once_of_mem hk (List.getElem_mem hlt)

theorem isTag_self (tagging : Variant.Tagging) (tag : String) (place : Nat) :
    IsTag tagging tag place (.string tag) := by
  cases tagging <;> rfl

theorem isTagged_tagged_iff (labels : List String) (hd : ("tag" :: labels).Nodup)
    {tagging : Variant.Tagging} {tag : String} {place : Nat} {parts : List Part}
    {fs : List (String × Json)} (hp : parts.map Prod.fst = labels) (hf : fs.map Prod.fst = labels) :
    IsTagged tagging tag place parts (tagged tag fs) ↔
      List.Forall₂ (fun p f => p.2 f.2) parts fs := by
  rw [IsTagged, tagged, hasParts_object_iff _ hd (congrArg _ hp) (congrArg _ hf),
    List.forall₂_cons]
  exact and_iff_right (isTag_self tagging tag place)

theorem isList_map_iff {α : Type} {xs : List α} {R : α → Json → Prop} {f : α → Json} :
    IsList (xs.map R) (.array (xs.map f)) ↔ ∀ x ∈ xs, R x (f x) := by
  show List.Forall₂ (fun P j => P j) (xs.map R) (xs.map f) ↔ _
  rw [List.forall₂_map_left_iff, List.forall₂_map_right_iff, List.forall₂_same]

theorem isNamed_named_iff {x : Name} {label : String} {P : Json → Prop} {j : Json}
    (h : label ≠ "name") : IsNamed x label P (named x label j) ↔ P j := by
  have hd : ["name", label].Nodup := by simpa using h.symm
  rw [IsNamed, named, hasParts_object_iff _ hd rfl rfl, List.forall₂_cons, List.forall₂_cons]
  exact ⟨fun h => h.2.1, fun h => ⟨rfl, h, .nil⟩⟩

end Json

namespace Ty

theorem isList_rowToJson_iff {below : Variant.Tagging} {ps : Row} :
    IsList (rowRenderings below ps) (.array (rowToJson ps)) ↔
      ∀ p ∈ ps, p.2.Rendered below below p.2.toJson := by
  rw [rowRenderings_eq_map, rowToJson_eq_map, isList_map_iff]
  simp only [isNamed_named_iff (show "type" ≠ "name" by decide)]

/-- what is written for a type is a rendering of it -/
theorem rendered_toJson (below top : Variant.Tagging) (t : Ty) :
    t.Rendered below top t.toJson := by
  induction t generalizing top with
  | boolean => exact (isTagged_tagged_iff [] (by decide) rfl rfl).mpr .nil
  | number => exact (isTagged_tagged_iff [] (by decide) rfl rfl).mpr .nil
  | func ps r hps hr =>
    refine (isTagged_tagged_iff ["params", "retType"] (by decide) rfl rfl).mpr ?_
    exact .cons (isList_rowToJson_iff.mpr fun p hp => hps p hp below) (.cons (hr below) .nil)
  | object ps hps =>
    refine (isTagged_tagged_iff ["props"] (by decide) rfl rfl).mpr ?_
    exact .cons (isList_rowToJson_iff.mpr fun p hp => hps p hp below) .nil
  | var x => exact (isTagged_tagged_iff ["name"] (by decide) rfl rfl).mpr (.cons rfl .nil)
  | mu x b hb =>
    refine (isTagged_tagged_iff ["name", "type"] (by decide) rfl rfl).mpr ?_
    exact .cons rfl (.cons (hb below) .nil)

end Ty

/-! ## the numbers of a term -/

namespace Term

mutual
/-- the numbers written in a term, from left to right -/
def numerals : Term → List Float
  | bool _ => []
  | number n => [n]
  | ite c t e => c.numerals ++ (t.numerals ++ e.numerals)
  | add l r => l.numerals ++ r.numerals
  | var _ => []
  | func _ b => b.numerals
  | call f as => f.numerals ++ argsNumerals as
  | seq a r => a.numerals ++ r.numerals
  | const _ a r => a.numerals ++ r.numerals
  | object ps => propsNumerals ps
  | get o _ => o.numerals
  | recFunc _ _ _ b r => b.numerals ++ r.numerals
def argsNumerals : List Term → List Float
  | [] => []
  | a :: as => a.numerals ++ argsNumerals as
def propsNumerals : List (Name × Term) → List Float
  | [] => []
  | (_, a) :: ps => a.numerals ++ propsNumerals ps
end

/-- all numbers of a term have numerals in JSON -/
def Finite (m : Term) : Prop := ∀ x ∈ m.numerals, x.isFinite = true

theorem forall_mem_argsNumerals {P : Float → Prop} {as : List Term} :
    (∀ x ∈ argsNumerals as, P x) ↔ ∀ a ∈ as, ∀ x ∈ a.numerals, P x := by
  induction as with
  | nil => exact iff_of_true (List.forall_mem_nil _) (List.forall_mem_nil _)
  | cons a as ih => rw [argsNumerals, List.forall_mem_append, List.forall_mem_cons, ih]

theorem forall_mem_propsNumerals {P : Float → Prop} {ps : List (Name × Term)} :
    (∀ x ∈ propsNumerals ps, P x) ↔ ∀ p ∈ ps, ∀ x ∈ p.2.numerals, P x := by
  induction ps with
  | nil => exact iff_of_true (List.forall_mem_nil _) (List.forall_mem_nil _)
  | cons p ps ih => rw [propsNumerals, List.forall_mem_append, List.forall_mem_cons, ih]

theorem isNumber_ofFloat_iff {x : Float} : IsNumber x (ofFloat x) ↔ x.isFinite = true := by
  unfold ofFloat
  by_cases h : x.isFinite = true
  · rw [if_pos h]
    exact iff_of_true rfl h
  · rw [if_neg h]
    exact iff_of_false id h

theorem isList_argsToJson_iff {below : Variant.Tagging} {as : List Term} :
    IsList (argsRenderings below as) (.array (argsToJson as)) ↔
      ∀ a ∈ as, a.Rendered below below a.toJson := by
  rw [argsRenderings_eq_map, argsToJson_eq_map, isList_map_iff]

theorem isList_propsToJson_iff {below : Variant.Tagging} {ps : List (Name × Term)} :
    IsList (propsRenderings below ps) (.array (propsToJson ps)) ↔
      ∀ p ∈ ps, p.2.Rendered below below p.2.toJson := by
  rw [propsRenderings_eq_map, propsToJson_eq_map, isList_map_iff]
  simp only [isNamed_named_iff (show "term" ≠ "name" by decide)]

/-- what is written for a term is a rendering of it if and only if its numbers are finite -/
theorem rendered_toJson_iff (below top : Variant.Tagging) (m : Term) :
    m.Rendered below top m.toJson ↔ m.Finite := by
  have hrow : ∀ ps, IsList (Ty.rowRenderings below ps) (.array (Ty.rowToJson ps)) ↔ True :=
    fun ps => iff_true_intro (Ty.isList_rowToJson_iff.mpr fun p _ => p.2.rendered_toJson _ _)
  have htype : ∀ t : Ty, t.Rendered below below t.toJson ↔ True :=
    fun t => iff_true_intro (t.rendered_toJson below below)
  have hname : ∀ x, IsName x (.string x) ↔ True := fun x => iff_true_intro rfl
  induction m generalizing top with
  | bool b =>
    refine iff_of_true ?_ (List.forall_mem_nil _)
    cases b <;> exact (isTagged_tagged_iff [] (by decide) rfl rfl).mpr .nil
  | number n =>
    rw [toJson, Rendered, isTagged_tagged_iff ["n"] (by decide) rfl rfl]
    simp only [List.forall₂_cons, isNumber_ofFloat_iff, List.Forall₂.nil, and_true, Finite,
      numerals, List.forall_mem_singleton]
  | ite c t e hc ht he =>
    rw [toJson, Rendered, isTagged_tagged_iff ["cond", "thn", "els"] (by decide) rfl rfl]
    simp only [List.forall₂_cons, hc, ht, he, List.Forall₂.nil, and_true, Finite, numerals,
      List.forall_mem_append]
  | add l r hl hr =>
    rw [toJson, Rendered, isTagged_tagged_iff ["left", "right"] (by decide) rfl rfl]
    simp only [List.forall₂_cons, hl, hr, List.Forall₂.nil, and_true, Finite, numerals,
      List.forall_mem_append]
  | var x =>
    refine iff_of_true ?_ (List.forall_mem_nil _)
    exact (isTagged_tagged_iff ["name"] (by decide) rfl rfl).mpr (.cons rfl .nil)
  | func ps b hb =>
    rw [toJson, Rendered, isTagged_tagged_iff ["params", "body"] (by decide) rfl rfl]
    simp only [List.forall₂_cons, hrow, hb, List.Forall₂.nil, and_true, true_and, Finite, numerals]
  | call f as hf has =>
    have hargs : IsList (argsRenderings below as) (.array (argsToJson as)) ↔
        ∀ x ∈ argsNumerals as, x.isFinite = true := by
      rw [isList_argsToJson_iff, forall_mem_argsNumerals]
      exact forall₂_congr fun a ha => has a ha below
    rw [toJson, Rendered, isTagged_tagged_iff ["func", "args"] (by decide) rfl rfl]
    simp only [List.forall₂_cons, hf, hargs, List.Forall₂.nil, and_true, Finite, numerals,
      List.forall_mem_append]
  | seq a r ha hr =>
    rw [toJson, Rendered, isTagged_tagged_iff ["body", "rest"] (by decide) rfl rfl]
    simp only [List.forall₂_cons, ha, hr, List.Forall₂.nil, and_true, Finite, numerals,
      List.forall_mem_append]
  | const x a r ha hr =>
    rw [toJson, Rendered, isTagged_tagged_iff ["name", "init", "rest"] (by decide) rfl rfl]
    simp only [List.forall₂_cons, hname, ha, hr, List.Forall₂.nil, and_true, true_and, Finite,
      numerals, List.forall_mem_append]
  | object ps hps =>
    have hprops : IsList (propsRenderings below ps) (.array (propsToJson ps)) ↔
        ∀ x ∈ propsNumerals ps, x.isFinite = true := by
      rw [isList_propsToJson_iff, forall_mem_propsNumerals]
      exact forall₂_congr fun p hp => hps p hp below
    rw [toJson, Rendered, isTagged_tagged_iff ["props"] (by decide) rfl rfl]
    simp only [List.forall₂_cons, hprops, List.Forall₂.nil, and_true, Finite, numerals]
  | get o x ho =>
    rw [toJson, Rendered, isTagged_tagged_iff ["obj", "propName"] (by decide) rfl rfl]
    simp only [List.forall₂_cons, ho, hname, List.Forall₂.nil, and_true, Finite, numerals]
  | recFunc f ps t b r hb hr =>
    rw [toJson, Rendered, isTagged_tagged_iff ["funcName", "params", "retType", "body", "rest"]
      (by decide) rfl rfl]
    simp only [List.forall₂_cons, hname, hrow, htype, hb, hr, List.Forall₂.nil, and_true, true_and,
      Finite, numerals, List.forall_mem_append]

end Term

end Equirec
