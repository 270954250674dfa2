import Equirec.Proofs.Json.Fields

/-!
# Decoding and renderings

A tagged value is decoded by way of a table of variants, and its renderings are written out variant
by variant.  The table goes with the renderings, and this is all that is used of it: what is decoded
is what is rendered, whatever the variants are.

* `Json.Kind.Rendered`        the renderings of what may stand in a field
* `Json.Variant.decodeWith`   tagged values, outermost or not
* `Json.Renders`              a table of variants and the renderings that go with it
* `Json.Renders.decodeWith_iff`
                              with such a table a tagged value is decoded to what it renders if the
                              values inside are
* `Json.decoded`              a value is decoded to what it renders
* `Ty.ofJson_iff`, `Term.ofJson_iff`
                              so is an outermost type or term
* `Json.not_rendered_both`    no value renders a type and a term
* `Json.decodes_renderings`   the decoders accept the renderings of types and terms and nothing else
-/

namespace Equirec

namespace Json

/-! ## kinds -/

/-- the renderings of what may stand in a field; inside of a value variants may be given by their
places -/
def Kind.Rendered : (k : Kind) → k.Value → Json → Prop
  | .name, x => IsName x
  | .number, x => IsNumber x
  | .type, t => t.Rendered .byTagOrPlace .byTagOrPlace
  | .term, m => m.Rendered .byTagOrPlace .byTagOrPlace
  | .list k, as => IsList (as.map k.Rendered)
  | .named label k, p => IsNamed p.1 label (k.Rendered p.2)

/-- no named thing has its second field under the label of its name -/
def Kind.proper : Kind → Bool
  | .list k => k.proper
  | .named label k => label != "name" && k.proper
  | _ => true

/-- the values in a value -/
def inside : Json → List Json
  | .array js => js
  | .object fs => fs.map Prod.snd
  | _ => []

/-! ## tagged values -/

namespace Variant

variable {α : Type}

/-- a tagged value, with its variant given by its tag or by its place too -/
def decodeWith (variants : List (Variant α)) (tagging : Tagging) : Json → Except Mismatch α
  | .object fs => ofFields variants tagging none fs >>= fun v => v.decode (.fields fs)
  | .array [] => .error (.missingField "tag")
  | .array (tag :: js) => ofJson variants tagging tag >>= fun v => v.decode (.items js)
  | _ => .error .other

theorem decodeOutermost_eq (variants : List (Variant α)) (j : Json) :
    decodeOutermost variants j = decodeWith variants .byTag j := by
  cases j with
  | array js => cases js <;> rfl
  | _ => rfl

end Variant

theorem decode_type (j : Json) :
    decode j .type = Variant.decodeWith typeVariants .byTagOrPlace j := by
  cases j with
  | array js => cases js <;> rfl
  | _ => rfl

theorem decode_term (j : Json) :
    decode j .term = Variant.decodeWith termVariants .byTagOrPlace j := by
  cases j with
  | array js => cases js <;> rfl
  | _ => rfl

/-- the renderings are those of the tag of a variant and its fields, each of its kind -/
structure Renders {α : Type} (variants : List (Variant α))
    (Rendered : Variant.Tagging → α → Json → Prop) : Prop where
  tags : (variants.map Variant.tag).Nodup
  labels : ∀ v ∈ variants, (v.fields.map Field.label).Nodup
  kinds : ∀ v ∈ variants, ∀ f ∈ v.fields, f.kind.proper = true
  make : ∀ {place : Nat} {v : Variant α}, variants[place]? = some v →
    ∀ (tagging : Variant.Tagging) (values : Values v.fields), Rendered tagging (v.make values) =
      IsTagged tagging v.tag place (Values.parts Kind.Rendered v.fields values)
  exists_make : ∀ a, ∃ (place : Nat) (v : Variant α) (values : Values v.fields),
    variants[place]? = some v ∧ v.make values = a

/-- a value is decoded to what it renders -/
def Decoded (j : Json) : Prop :=
  ∀ k : Kind, k.proper = true → ∀ a, decode j k = .ok a ↔ k.Rendered a j

section
variable {α : Type} {fields : List Field} (hd : (fields.map Field.label).Nodup)
  (hk : ∀ f ∈ fields, f.kind.proper = true)
include hk

include hd in
/-- what is made of the fields of an object is made of values of which it has the parts -/
theorem decodeFields_make_iff {fs : List (String × Json)} (hfs : ∀ f ∈ fs, Decoded f.2)
    {make : Values fields → α} {a : α} :
    (decodeFields fs fields (Slots.empty fields) >>= fun slots =>
      Slots.close fields slots >>= fun values => .ok (make values)) = .ok a ↔
      ∃ values, HasParts (Values.parts Kind.Rendered fields values) (.object fs) ∧
        make values = a := by
  have hclose : ∀ values, (decodeFields fs fields (Slots.empty fields) >>= Slots.close fields) =
      .ok values ↔ HasParts (Values.parts Kind.Rendered fields values) (.object fs) := fun values =>
    decodeFields_close_iff hd fun e he f hf => hfs e he f.kind (hk f hf)
  rw [← bind_assoc, bind_eq_ok_iff]
  simp only [hclose, Except.ok.injEq]

theorem decodeSequence_make_iff {js : List Json} (hjs : ∀ j ∈ js, Decoded j)
    {make : Values fields → α} {a : α} :
    (decodeSequence js fields >>= fun values => .ok (make values)) = .ok a ↔
      ∃ values, HasParts (Values.parts Kind.Rendered fields values) (.array js) ∧
        make values = a := by
  have hsequence : ∀ values, decodeSequence js fields = .ok values ↔
      HasParts (Values.parts Kind.Rendered fields values) (.array js) := fun values =>
    decodeSequence_iff fun j hj f hf => hjs j hj f.kind (hk f hf)
  rw [bind_eq_ok_iff]
  simp only [hsequence, Except.ok.injEq]

end

namespace Renders

variable {α : Type} {variants : List (Variant α)} {Rendered : Variant.Tagging → α → Json → Prop}

theorem decode_fields_iff (h : Renders variants Rendered) {v : Variant α} (hv : v ∈ variants)
    {fs : List (String × Json)} (hfs : ∀ f ∈ fs, Decoded f.2) {a : α} :
    v.decode (.fields fs) = .ok a ↔
      ∃ values, HasParts (Values.parts Kind.Rendered v.fields values) (.object fs) ∧
        v.make values = a :=
  decodeFields_make_iff (h.labels v hv) (h.kinds v hv) hfs

theorem decode_items_iff (h : Renders variants Rendered) {v : Variant α} (hv : v ∈ variants)
    {js : List Json} (hjs : ∀ j ∈ js, Decoded j) {a : α} :
    v.decode (.items js) = .ok a ↔
      ∃ values, HasParts (Values.parts Kind.Rendered v.fields values) (.array js) ∧
        v.make values = a :=
  decodeSequence_make_iff (h.kinds v hv) hjs

theorem rendered_iff (h : Renders variants Rendered) {tagging : Variant.Tagging} {a : α}
    {j : Json} :
    Rendered tagging a j ↔ ∃ (place : Nat) (v : Variant α) (values : Values v.fields),
      variants[place]? = some v ∧
        IsTagged tagging v.tag place (Values.parts Kind.Rendered v.fields values) j ∧
        v.make values = a := by
  constructor
  · intro hrendered
    obtain ⟨place, v, values, hplace, rfl⟩ := h.exists_make a
    exact ⟨place, v, values, hplace, h.make hplace tagging values ▸ hrendered, rfl⟩
  · rintro ⟨place, v, values, hplace, htagged, rfl⟩
    rwa [h.make hplace]

/-- a tagged value is decoded to what it renders if the values inside are -/
theorem decodeWith_iff (h : Renders variants Rendered) {tagging : Variant.Tagging} {j : Json}
    (hj : ∀ c ∈ j.inside, Decoded c) {a : α} :
    Variant.decodeWith variants tagging j = .ok a ↔ Rendered tagging a j := by
  rw [h.rendered_iff]
  cases j with
  | object fs =>
    have hfs : ∀ f ∈ fs, Decoded f.2 := fun f hf => hj f.2 (List.mem_map.mpr ⟨f, hf, rfl⟩)
    rw [Variant.decodeWith, bind_eq_ok_iff]
    constructor
    · rintro ⟨v, hv, hdecode⟩
      obtain ⟨j, honce, hv⟩ := Variant.ofFields_iff.mp hv
      obtain ⟨place, hplace, htag⟩ := (Variant.ofJson_iff h.tags).mp hv
      obtain ⟨values, hparts, hmake⟩ :=
        (h.decode_fields_iff (List.mem_of_getElem? hplace) hfs).mp hdecode
      exact ⟨place, v, values, hplace, List.forall_mem_cons.mpr ⟨⟨j, honce, htag⟩, hparts⟩, hmake⟩
    · rintro ⟨place, v, values, hplace, htagged, hmake⟩
      obtain ⟨⟨j, honce, htag⟩, hparts⟩ := List.forall_mem_cons.mp htagged
      have hv := (Variant.ofJson_iff h.tags).mpr ⟨place, hplace, htag⟩
      exact ⟨v, Variant.ofFields_iff.mpr ⟨j, honce, hv⟩,
        (h.decode_fields_iff (List.mem_of_getElem? hplace) hfs).mpr ⟨values, hparts, hmake⟩⟩
  | array js =>
    cases js with
    | nil =>
      refine iff_of_false nofun ?_
      rintro ⟨_, _, _, _, htagged, _⟩
      cases htagged
    | cons j js =>
      have hjs : ∀ j ∈ js, Decoded j := fun j' hj' => hj j' (List.mem_cons_of_mem _ hj')
      rw [Variant.decodeWith, bind_eq_ok_iff]
      constructor
      · rintro ⟨v, hv, hdecode⟩
        obtain ⟨place, hplace, htag⟩ := (Variant.ofJson_iff h.tags).mp hv
        obtain ⟨values, hparts, hmake⟩ :=
          (h.decode_items_iff (List.mem_of_getElem? hplace) hjs).mp hdecode
        exact ⟨place, v, values, hplace, .cons htag hparts, hmake⟩
      · rintro ⟨place, v, values, hplace, htagged, hmake⟩
        obtain ⟨htag, hparts⟩ := List.forall₂_cons.mp htagged
        exact ⟨v, (Variant.ofJson_iff h.tags).mpr ⟨place, hplace, htag⟩,
          (h.decode_items_iff (List.mem_of_getElem? hplace) hjs).mpr ⟨values, hparts, hmake⟩⟩
  | _ =>
    refine iff_of_false nofun ?_
    rintro ⟨_, _, _, _, htagged, _⟩
    exact htagged

end Renders

/-! ## the tables of types and terms -/

theorem rendered_row (ps : Row) :
    IsList (Ty.rowRenderings .byTagOrPlace ps) = Kind.Rendered rowKind ps := by
  rw [Ty.rowRenderings_eq_map]
  rfl

theorem rendered_args (as : List Term) :
    IsList (Term.argsRenderings .byTagOrPlace as) = Kind.Rendered (.list .term) as := by
  rw [Term.argsRenderings_eq_map]
  rfl

theorem rendered_props (ps : List (Name × Term)) :
    IsList (Term.propsRenderings .byTagOrPlace ps) =
      Kind.Rendered (.list (.named "term" .term)) ps := by
  rw [Term.propsRenderings_eq_map]
  rfl

theorem renders_types : Renders typeVariants (Ty.Rendered .byTagOrPlace) where
  tags := by decide
  labels := by decide
  kinds := by decide
  make := fun {place v} hplace tagging values =>
    match place, v, hplace, values with
    | 0, _, rfl, _ => rfl
    | 1, _, rfl, _ => rfl
    | 2, _, rfl, (ps, _) =>
      congrArg (fun P => IsTagged tagging "Func" 2 [("params", P), _]) (rendered_row ps)
    | 3, _, rfl, (ps, _) =>
      congrArg (fun P => IsTagged tagging "Object" 3 [("props", P)]) (rendered_row ps)
    | 4, _, rfl, _ => rfl
    | 5, _, rfl, _ => rfl
  exists_make := by
    intro t
    cases t with
    | boolean => exact ⟨0, _, (), rfl, rfl⟩
    | number => exact ⟨1, _, (), rfl, rfl⟩
    | func ps r => exact ⟨2, _, (ps, r, ()), rfl, rfl⟩
    | object ps => exact ⟨3, _, (ps, ()), rfl, rfl⟩
    | var x => exact ⟨4, _, (x, ()), rfl, rfl⟩
    | mu x b => exact ⟨5, _, (x, b, ()), rfl, rfl⟩

theorem renders_terms : Renders termVariants (Term.Rendered .byTagOrPlace) where
  tags := by decide
  labels := by decide
  kinds := by decide
  make := fun {place v} hplace tagging values =>
    match place, v, hplace, values with
    | 0, _, rfl, _ => rfl
    | 1, _, rfl, _ => rfl
    | 2, _, rfl, _ => rfl
    | 3, _, rfl, _ => rfl
    | 4, _, rfl, _ => rfl
    | 5, _, rfl, _ => rfl
    | 6, _, rfl, (ps, _) =>
      congrArg (fun P => IsTagged tagging "func" 6 [("params", P), _]) (rendered_row ps)
    | 7, _, rfl, (_, as, _) =>
      congrArg (fun P => IsTagged tagging "call" 7 [_, ("args", P)]) (rendered_args as)
    | 8, _, rfl, _ => rfl
    | 9, _, rfl, _ => rfl
    | 10, _, rfl, (ps, _) =>
      congrArg (fun P => IsTagged tagging "objectNew" 10 [("props", P)]) (rendered_props ps)
    | 11, _, rfl, _ => rfl
    | 12, _, rfl, (_, ps, _) =>
      congrArg (fun P => IsTagged tagging "recFunc" 12 [_, ("params", P), _, _, _])
        (rendered_row ps)
  exists_make := by
    intro m
    cases m with
    | bool b =>
      cases b
      · exact ⟨1, _, (), rfl, rfl⟩
      · exact ⟨0, _, (), rfl, rfl⟩
    | number n => exact ⟨2, _, (n, ()), rfl, rfl⟩
    | ite c t e => exact ⟨3, _, (c, t, e, ()), rfl, rfl⟩
    | add l r => exact ⟨4, _, (l, r, ()), rfl, rfl⟩
    | var x => exact ⟨5, _, (x, ()), rfl, rfl⟩
    | func ps b => exact ⟨6, _, (ps, b, ()), rfl, rfl⟩
    | call f as => exact ⟨7, _, (f, as, ()), rfl, rfl⟩
    | seq a r => exact ⟨8, _, (a, r, ()), rfl, rfl⟩
    | const x a r => exact ⟨9, _, (x, a, r, ()), rfl, rfl⟩
    | object ps => exact ⟨10, _, (ps, ()), rfl, rfl⟩
    | get o x => exact ⟨11, _, (o, x, ()), rfl, rfl⟩
    | recFunc f ps t b r => exact ⟨12, _, (f, ps, t, b, r, ()), rfl, rfl⟩

/-! ## named things -/

theorem exists_values_namedFields_iff {label : String} {k : Kind} {p : Name × k.Value} {j : Json} :
    (∃ values : Values (namedFields label k),
      HasParts (Values.parts Kind.Rendered (namedFields label k) values) j ∧
        (values.1, values.2.1) = p) ↔ Kind.Rendered (.named label k) p j := by
  constructor
  · rintro ⟨⟨x, a, _⟩, hparts, rfl⟩
    exact hparts
  · intro h
    exact ⟨(p.1, p.2, ()), h, rfl⟩

theorem decode_named_iff {label : String} {k : Kind} (hlabel : label ≠ "name")
    (hk : k.proper = true) {j : Json} (hj : ∀ c ∈ j.inside, Decoded c) {p : Name × k.Value} :
    decode j (.named label k) = .ok p ↔ Kind.Rendered (.named label k) p j := by
  have hd : ((namedFields label k).map Field.label).Nodup := by
    simpa [namedFields] using hlabel.symm
  have hkinds : ∀ f ∈ namedFields label k, f.kind.proper = true :=
    List.forall_mem_cons.mpr ⟨rfl, List.forall_mem_cons.mpr ⟨hk, List.forall_mem_nil _⟩⟩
  rw [← exists_values_namedFields_iff]
  cases j with
  | object fs =>
    exact decodeFields_make_iff hd hkinds fun f hf => hj f.2 (List.mem_map.mpr ⟨f, hf, rfl⟩)
  | array js => exact decodeSequence_make_iff hkinds hj
  | _ => exact iff_of_false nofun fun ⟨_, h, _⟩ => h

/-! ## all values -/

/-- a value is decoded to what it renders if the values inside are -/
theorem decoded_of_inside {j : Json} (hj : ∀ c ∈ j.inside, Decoded c) : Decoded j := by
  intro k hk a
  cases k with
  | name =>
    cases j with
    | string x => exact ⟨Except.ok.inj, congrArg Except.ok⟩
    | _ => exact iff_of_false nofun id
  | number =>
    cases j with
    | natural n => exact ⟨Except.ok.inj, congrArg Except.ok⟩
    | real x => exact ⟨Except.ok.inj, congrArg Except.ok⟩
    | _ => exact iff_of_false nofun id
  | type =>
    rw [decode_type]
    exact renders_types.decodeWith_iff hj
  | term =>
    rw [decode_term]
    exact renders_terms.decodeWith_iff hj
  | list k =>
    cases j with
    | array js => exact decodeItems_iff fun c hc b => hj c hc k hk b
    | _ => exact iff_of_false nofun id
  | named label k =>
    obtain ⟨hlabel, hk⟩ := Bool.and_eq_true_iff.mp hk
    exact decode_named_iff (bne_iff_ne.mp hlabel) hk hj

theorem decoded (j : Json) : Decoded j := by
  induction j with
  | array js hjs => exact decoded_of_inside hjs
  | object fs hfs =>
    refine decoded_of_inside fun c hc => ?_
    obtain ⟨f, hf, rfl⟩ := List.mem_map.mp hc
    exact hfs f hf
  | _ => exact decoded_of_inside (List.forall_mem_nil _)

/-! ## tags of types and terms -/

theorem eq_string_of_isTag {tag : String} {place : Nat} {j : Json} (h : IsTag .byTag tag place j) :
    j = .string tag := by
  cases j with
  | string s => exact congrArg Json.string h
  | _ => exact absurd h id

/-- a tagged value has one tag -/
theorem tag_eq_of_isTagged {tag tag' : String} {place place' : Nat} {parts parts' : List Part}
    {j : Json} (h : IsTagged .byTag tag place parts j) (h' : IsTagged .byTag tag' place' parts' j) :
    tag = tag' := by
  have hstring : Json.string tag = Json.string tag' := by
    cases j with
    | object fs =>
      obtain ⟨⟨i, hi, hitag⟩, _⟩ := List.forall_mem_cons.mp h
      obtain ⟨⟨i', hi', hitag'⟩, _⟩ := List.forall_mem_cons.mp h'
      rw [← eq_string_of_isTag hitag, ← eq_string_of_isTag hitag', hi.unique hi']
    | array js =>
      cases h with
      | cons hitag _ =>
        cases h' with
        | cons hitag' _ => rw [← eq_string_of_isTag hitag, ← eq_string_of_isTag hitag']
    | _ => exact absurd h id
  exact Json.string.inj hstring

theorem tags_disjoint :
    ∀ tag ∈ typeVariants.map Variant.tag, tag ∉ termVariants.map Variant.tag := by
  decide

/-- no value renders both a type and a term -/
theorem not_rendered_both {t : Ty} {m : Term} {j : Json}
    (ht : t.Rendered .byTagOrPlace .byTag j) : ¬ m.Rendered .byTagOrPlace .byTag j := by
  intro hm
  obtain ⟨_, v, _, hv, hvtagged, _⟩ := renders_types.rendered_iff.mp ht
  obtain ⟨_, w, _, hw, hwtagged, _⟩ := renders_terms.rendered_iff.mp hm
  have htag : v.tag = w.tag := tag_eq_of_isTagged hvtagged hwtagged
  refine tags_disjoint v.tag (List.mem_map.mpr ⟨v, List.mem_of_getElem? hv, rfl⟩) ?_
  exact htag ▸ List.mem_map.mpr ⟨w, List.mem_of_getElem? hw, rfl⟩

end Json

open Json

theorem Ty.ofJson_iff {j : Json} {t : Ty} :
    Ty.ofJson j = .ok t ↔ t.Rendered .byTagOrPlace .byTag j := by
  rw [Ty.ofJson, Variant.decodeOutermost_eq]
  exact renders_types.decodeWith_iff fun c _ => decoded c

theorem Term.ofJson_iff {j : Json} {m : Term} :
    Term.ofJson j = .ok m ↔ m.Rendered .byTagOrPlace .byTag j := by
  rw [Term.ofJson, Variant.decodeOutermost_eq]
  exact renders_terms.decodeWith_iff fun c _ => decoded c

/-- the decoders of types and of terms accept the renderings of a value, its variant given by its
tag and those of the values inside it by their tags or their places, and they accept nothing else
for it; what is written for a value is such a rendering, if its numbers are finite; and nothing
renders two values -/
theorem Json.decodes_renderings :
    (∀ (j : Json) (t : Ty), Ty.ofJson j = .ok t ↔ t.Rendered .byTagOrPlace .byTag j) ∧
    (∀ (j : Json) (m : Term), Term.ofJson j = .ok m ↔ m.Rendered .byTagOrPlace .byTag j) ∧
    (∀ t : Ty, Ty.ofJson t.toJson = .ok t) ∧
    (∀ m : Term, Term.ofJson m.toJson = .ok m ↔ m.Finite) ∧
    ∀ j : Json,
      (∀ t u : Ty, t ≠ u →
        ¬ (t.Rendered .byTagOrPlace .byTag j ∧ u.Rendered .byTagOrPlace .byTag j)) ∧
      (∀ m n : Term, m ≠ n →
        ¬ (m.Rendered .byTagOrPlace .byTag j ∧ n.Rendered .byTagOrPlace .byTag j)) ∧
      ∀ (t : Ty) (m : Term),
        ¬ (t.Rendered .byTagOrPlace .byTag j ∧ m.Rendered .byTagOrPlace .byTag j) := by
  refine ⟨fun _ _ => Ty.ofJson_iff, fun _ _ => Term.ofJson_iff, fun t => ?_, fun m => ?_, fun j =>
    ⟨fun t u hne h => ?_, fun m n hne h => ?_, fun t m h => not_rendered_both h.1 h.2⟩⟩
  · exact Ty.ofJson_iff.mpr (t.rendered_toJson _ _)
  · exact Term.ofJson_iff.trans (m.rendered_toJson_iff _ _)
  · have hsame : Except.ok t = Except.ok u :=
      (Ty.ofJson_iff.mpr h.1).symm.trans (Ty.ofJson_iff.mpr h.2)
    exact hne (Except.ok.inj hsame)
  · have hsame : Except.ok m = Except.ok n :=
      (Term.ofJson_iff.mpr h.1).symm.trans (Term.ofJson_iff.mpr h.2)
    exact hne (Except.ok.inj hsame)

/-- an object with its keys in another order and with more of them, one of them twice, and in it a
list with a place for a tag; it renders no other type -/
theorem Json.decodes_renderings_mixed :
    let j : Json := .object [("type", .array [.natural 3, .array [.array [.string "x",
      .object [("more", .null), ("name", .string "a"), ("tag", .natural 4), ("more", .null)]]]]),
      ("params", .null), ("tag", .string "Rec"), ("name", .string "a")]
    let t := Ty.mu "a" (.object [("x", .var "a")])
    t.Rendered .byTagOrPlace .byTag j ∧
      ¬ (t.Rendered .byTagOrPlace .byTag j ∧
        (Ty.object [("x", t)]).Rendered .byTagOrPlace .byTag j) ∧
      ¬ ((Term.bool true).Rendered .byTagOrPlace .byTag (.array [.string "true"]) ∧
        (Term.bool false).Rendered .byTagOrPlace .byTag (.array [.string "true"])) := by
  intro j t
  exact ⟨(decodes_renderings.1 j t).mp rfl,
    (decodes_renderings.2.2.2.2 j).1 t (.object [("x", t)]) (by decide),
    (decodes_renderings.2.2.2.2 _).2.1 _ _ nofun⟩

/-- a type inside a type with its place for a tag is decoded, and it is no rendering by tags -/
theorem Json.decodes_places :
    let j : Json := .object [("tag", .string "Rec"), ("name", .string "a"),
      ("type", .object [("tag", .natural 0)])]
    Ty.ofJson j = .ok (.mu "a" .boolean) ∧ ¬ (Ty.mu "a" .boolean).Rendered .byTag .byTag j := by
  refine ⟨rfl, fun h => ?_⟩
  obtain ⟨i, honce, hi⟩ :=
    h _ (List.mem_cons_of_mem _ (List.mem_cons_of_mem _ (List.mem_cons_self ..)))
  obtain rfl : Json.object [("tag", .natural 0)] = i := by simpa [Once] using honce
  obtain ⟨i, honce, hi⟩ := hi _ (List.mem_cons_self ..)
  obtain rfl : Json.natural 0 = i := by simpa [Once] using honce
  exact hi

end Equirec
