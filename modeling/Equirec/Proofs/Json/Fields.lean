import Mathlib.Data.List.Nodup
import Equirec.Json.Decode
import Equirec.Proofs.Except
import Equirec.Proofs.Json.Rendering

/-!
# Decoding the parts of a tagged value

The fields of an object come in any order, and each is put into the slot of its label.  A slot that
is filled in the end has been filled by the one field of its label, and all other fields have been
put into the other slots as if this one had not been there.

* `Json.Values.parts`             the parts that are wanted for the fields of a variant
* `Json.decodeFields_cons_iff`    one slot is taken apart from the others
* `Json.decodeFields_close_iff`   the fields of an object give the values of which it has the parts
* `Json.decodeSequence_iff`       so do the items of a list
* `Json.Variant.ofJson_iff`       the variant that a tag stands for
* `Json.Variant.ofFields_iff`     the variant of an object is that of its one tag
-/

namespace Equirec.Json

/-- the parts of the values of fields, `R` being what may stand for a value of a kind -/
def Values.parts (R : (k : Kind) → k.Value → Json → Prop) :
    (fields : List Field) → Values fields → List Part
  | [], _ => []
  | f :: fs, (a, values) => (f.label, R f.kind a) :: Values.parts R fs values

section
variable {R : (k : Kind) → k.Value → Json → Prop}

theorem Values.labels_parts (fields : List Field) (values : Values fields) :
    (Values.parts R fields values).map Prod.fst = fields.map Field.label := by
  induction fields with
  | nil => rfl
  | cons f fs ih => exact congrArg _ (ih values.2)

/-! ## fields under one label -/

/-- the fields that do not have the label -/
def others (fs : List (String × Json)) (label : String) : List (String × Json) :=
  fs.filter fun e => e.1 != label

theorem once_nil (label : String) (j : Json) : ¬ Once [] label j := nofun

theorem once_cons_self {fs : List (String × Json)} {label : String} {j j' : Json} :
    Once ((label, j) :: fs) label j' ↔ j = j' ∧ fs.filter (fun e => e.1 == label) = [] := by
  rw [Once, List.filter_cons_of_pos (by simp), List.cons.injEq, Prod.mk.injEq]
  exact and_congr_left' (and_iff_right rfl)

theorem once_cons_of_ne {fs : List (String × Json)} {e : String × Json} {label : String} {j : Json}
    (h : e.1 ≠ label) : Once (e :: fs) label j ↔ Once fs label j := by
  rw [Once, List.filter_cons_of_neg (by simpa using h)]
  exact Iff.rfl

theorem others_cons_self (fs : List (String × Json)) (label : String) (j : Json) :
    others ((label, j) :: fs) label = others fs label :=
  List.filter_cons_of_neg (by simp)

theorem others_cons_of_ne {e : String × Json} {label : String} (h : e.1 ≠ label)
    (fs : List (String × Json)) : others (e :: fs) label = e :: others fs label :=
  List.filter_cons_of_pos (by simpa using h)

theorem mem_of_mem_others {fs : List (String × Json)} {label : String} {e : String × Json}
    (h : e ∈ others fs label) : e ∈ fs :=
  List.mem_of_mem_filter h

theorem once_others {fs : List (String × Json)} {label key : String} {j : Json}
    (h : key ≠ label) : Once (others fs label) key j ↔ Once fs key j := by
  have hfilter : (others fs label).filter (fun e => e.1 == key) =
      fs.filter (fun e => e.1 == key) := by
    rw [others, List.filter_filter]
    refine List.filter_congr fun e _ => ?_
    by_cases hk : e.1 = key
    · simp [hk, h]
    · simp [hk]
  rw [Once, hfilter]
  exact Iff.rfl

/-! ## slots -/

section
variable {decoded : (k : Kind) → Except Mismatch k.Value} {f : Field} {fs : List Field}
  {label : String}

theorem fill_here_iff (h : f.label = label) {slots : Slots fs} {filled : Slots (f :: fs)} :
    Slots.fill label decoded (f :: fs) (none, slots) = .ok filled ↔
      ∃ a, decoded f.kind = .ok a ∧ (some a, slots) = filled := by
  rw [Slots.fill, if_pos h, bind_eq_ok_iff]
  simp only [Except.ok.injEq]

theorem fill_there_iff (h : f.label ≠ label) {slot : Option f.kind.Value} {slots : Slots fs}
    {filled : Slots (f :: fs)} :
    Slots.fill label decoded (f :: fs) (slot, slots) = .ok filled ↔
      ∃ slots', Slots.fill label decoded fs slots = .ok slots' ∧ (slot, slots') = filled := by
  have hfill : Slots.fill label decoded (f :: fs) (slot, slots) =
      (do let slots ← Slots.fill label decoded fs slots; .ok (slot, slots)) := if_neg h
  rw [hfill, bind_eq_ok_iff]
  simp only [Except.ok.injEq]

theorem close_cons_iff {slot : Option f.kind.Value} {slots : Slots fs} {a : f.kind.Value}
    {values : Values fs} :
    Slots.close (f :: fs) (slot, slots) = .ok (a, values) ↔
      slot = some a ∧ Slots.close fs slots = .ok values := by
  cases slot with
  | none => exact iff_of_false nofun nofun
  | some b =>
    rw [Slots.close, bind_eq_ok_iff]
    simp only [Except.ok.injEq, Prod.mk.injEq, Option.some.injEq]
    constructor
    · rintro ⟨values', h, hb, rfl⟩
      exact ⟨hb, h⟩
    · rintro ⟨hb, h⟩
      exact ⟨values, h, hb, rfl⟩

/-- with a slot that is full, no field may have its label -/
theorem decodeFields_full_iff {l : List (String × Json)} {a : f.kind.Value}
    {slots slots' : Slots fs} {slot : Option f.kind.Value} :
    decodeFields l (f :: fs) (some a, slots) = .ok (slot, slots') ↔
      l.filter (fun e => e.1 == f.label) = [] ∧ some a = slot ∧
        decodeFields (others l f.label) fs slots = .ok slots' := by
  induction l generalizing slots with
  | nil =>
    show Except.ok (some a, slots) = .ok (slot, slots') ↔ _ ∧ _ ∧ Except.ok slots = .ok slots'
    rw [Except.ok.injEq, Prod.mk.injEq, Except.ok.injEq]
    exact (and_iff_right rfl).symm
  | cons e l ih =>
    obtain ⟨key, j⟩ := e
    rw [decodeFields_cons, bind_eq_ok_iff]
    by_cases h : f.label = key
    · refine iff_of_false ?_ fun hnone => ?_
      · rintro ⟨filled, hfill, _⟩
        rw [Slots.fill_again h] at hfill
        exact absurd hfill nofun
      · rw [List.filter_cons_of_pos (by simp [h])] at hnone
        exact absurd hnone.1 (by simp)
    · rw [List.filter_cons_of_neg (by simpa using Ne.symm h), others_cons_of_ne (Ne.symm h),
        decodeFields_cons, bind_eq_ok_iff]
      constructor
      · rintro ⟨filled, hfill, hrest⟩
        obtain ⟨next, hnext, rfl⟩ := (fill_there_iff h).mp hfill
        obtain ⟨hnone, hslot, hothers⟩ := ih.mp hrest
        exact ⟨hnone, hslot, next, hnext, hothers⟩
      · rintro ⟨hnone, hslot, next, hnext, hothers⟩
        exact ⟨_, (fill_there_iff h).mpr ⟨next, hnext, rfl⟩, ih.mpr ⟨hnone, hslot, hothers⟩⟩

/-- the first slot is filled by the one field of its label, and the other slots by the other
fields -/
theorem decodeFields_cons_iff {l : List (String × Json)} {a : f.kind.Value}
    {slots slots' : Slots fs} :
    decodeFields l (f :: fs) (none, slots) = .ok (some a, slots') ↔
      (∃ j, Once l f.label j ∧ decode j f.kind = .ok a) ∧
        decodeFields (others l f.label) fs slots = .ok slots' := by
  induction l generalizing slots with
  | nil =>
    refine iff_of_false (fun h => ?_) fun h => ?_
    · exact absurd (congrArg Prod.fst (Except.ok.inj h)) nofun
    · obtain ⟨⟨j, hj, _⟩, _⟩ := h
      exact once_nil f.label j hj
  | cons e l ih =>
    obtain ⟨key, j⟩ := e
    rw [decodeFields_cons, bind_eq_ok_iff]
    by_cases h : f.label = key
    · subst h
      rw [others_cons_self]
      constructor
      · rintro ⟨filled, hfill, hrest⟩
        obtain ⟨b, hb, rfl⟩ := (fill_here_iff rfl).mp hfill
        obtain ⟨hnone, hslot, hothers⟩ := decodeFields_full_iff.mp hrest
        exact ⟨⟨j, once_cons_self.mpr ⟨rfl, hnone⟩, Option.some.inj hslot ▸ hb⟩, hothers⟩
      · rintro ⟨⟨j', honce, ha⟩, hothers⟩
        obtain ⟨rfl, hnone⟩ := once_cons_self.mp honce
        exact ⟨_, (fill_here_iff rfl).mpr ⟨a, ha, rfl⟩,
          decodeFields_full_iff.mpr ⟨hnone, rfl, hothers⟩⟩
    · rw [others_cons_of_ne (Ne.symm h), decodeFields_cons, bind_eq_ok_iff]
      constructor
      · rintro ⟨filled, hfill, hrest⟩
        obtain ⟨next, hnext, rfl⟩ := (fill_there_iff h).mp hfill
        obtain ⟨⟨j', honce, ha⟩, hothers⟩ := ih.mp hrest
        exact ⟨⟨j', (once_cons_of_ne (Ne.symm h)).mpr honce, ha⟩, next, hnext, hothers⟩
      · rintro ⟨⟨j', honce, ha⟩, next, hnext, hothers⟩
        exact ⟨_, (fill_there_iff h).mpr ⟨next, hnext, rfl⟩,
          ih.mpr ⟨⟨j', (once_cons_of_ne (Ne.symm h)).mp honce, ha⟩, hothers⟩⟩

end

/-! ## all fields -/

theorem decodeFields_nil (l : List (String × Json)) :
    decodeFields l [] (Slots.empty []) = .ok () := by
  induction l with
  | nil => rfl
  | cons e l ih =>
    obtain ⟨key, j⟩ := e
    rw [decodeFields_cons, bind_eq_ok_iff]
    exact ⟨(), rfl, ih⟩

/-- the fields of an object fill all slots with the values of which the object has the parts -/
theorem decodeFields_close_iff {fields : List Field} (hd : (fields.map Field.label).Nodup)
    {l : List (String × Json)}
    (hR : ∀ e ∈ l, ∀ f ∈ fields, ∀ a, decode e.2 f.kind = .ok a ↔ R f.kind a e.2)
    {values : Values fields} :
    (decodeFields l fields (Slots.empty fields) >>= Slots.close fields) = .ok values ↔
      HasParts (Values.parts R fields values) (.object l) := by
  induction fields generalizing l with
  | nil =>
    rw [decodeFields_nil]
    exact iff_of_true rfl (List.forall_mem_nil _)
  | cons f fs ih =>
    obtain ⟨a, values⟩ := values
    obtain ⟨hf, hd⟩ := List.nodup_cons.mp hd
    have hothers : (decodeFields (others l f.label) fs (Slots.empty fs) >>= Slots.close fs) =
        .ok values ↔ HasParts (Values.parts R fs values) (.object (others l f.label)) :=
      ih hd fun e he g hg => hR e (mem_of_mem_others he) g (List.mem_cons_of_mem _ hg)
    have hne : ∀ p ∈ Values.parts R fs values, p.1 ≠ f.label := by
      intro p hp e
      refine hf ?_
      rw [← e, ← Values.labels_parts fs values]
      exact List.mem_map.mpr ⟨p, hp, rfl⟩
    rw [bind_eq_ok_iff] at hothers ⊢
    constructor
    · rintro ⟨⟨slot, slots⟩, hrun, hclose⟩
      obtain ⟨rfl, hvalues⟩ := close_cons_iff.mp hclose
      obtain ⟨⟨j, honce, ha⟩, hrest⟩ := decodeFields_cons_iff.mp hrun
      refine List.forall_mem_cons.mpr ⟨⟨j, honce, ?_⟩, fun p hp => ?_⟩
      · exact (hR _ honce.mem f (List.mem_cons_self ..) a).mp ha
      · obtain ⟨j', hj', hp'⟩ := hothers.mp ⟨slots, hrest, hvalues⟩ p hp
        exact ⟨j', (once_others (hne p hp)).mp hj', hp'⟩
    · intro h
      obtain ⟨⟨j, honce, ha⟩, hparts⟩ := List.forall_mem_cons.mp h
      obtain ⟨slots, hrest, hclose⟩ := hothers.mpr fun p hp => by
        obtain ⟨j', hj', hp'⟩ := hparts p hp
        exact ⟨j', (once_others (hne p hp)).mpr hj', hp'⟩
      have ha : decode j f.kind = .ok a := (hR _ honce.mem f (List.mem_cons_self ..) a).mpr ha
      exact ⟨(some a, slots), decodeFields_cons_iff.mpr ⟨⟨j, honce, ha⟩, hrest⟩,
        close_cons_iff.mpr ⟨rfl, hclose⟩⟩

/-- the items of a list give the values of which it has the parts -/
theorem decodeSequence_iff {fields : List Field} {js : List Json}
    (hR : ∀ j ∈ js, ∀ f ∈ fields, ∀ a, decode j f.kind = .ok a ↔ R f.kind a j)
    {values : Values fields} :
    decodeSequence js fields = .ok values ↔
      HasParts (Values.parts R fields values) (.array js) := by
  show _ ↔ List.Forall₂ _ _ js
  induction fields generalizing js with
  | nil =>
    cases js with
    | nil => exact iff_of_true rfl .nil
    | cons j js => exact iff_of_false nofun nofun
  | cons f fs ih =>
    cases js with
    | nil => exact iff_of_false nofun nofun
    | cons j js =>
      obtain ⟨a, values⟩ := values
      obtain ⟨hj, hjs⟩ := List.forall_mem_cons.mp hR
      have hrest : decodeSequence js fs = .ok values ↔
          List.Forall₂ (fun p j => p.2 j) (Values.parts R fs values) js :=
        ih fun j' hj' g hg => hjs j' hj' g (List.mem_cons_of_mem _ hg)
      rw [decodeSequence, Values.parts, List.forall₂_cons, bind_eq_ok_iff, ← hrest]
      simp only [bind_eq_ok_iff, Except.ok.injEq, Prod.mk.injEq]
      rw [← hj f (List.mem_cons_self ..) a]
      constructor
      · rintro ⟨a', ha, values', hvalues, rfl, rfl⟩
        exact ⟨ha, hvalues⟩
      · rintro ⟨ha, hvalues⟩
        exact ⟨a, ha, values, hvalues, rfl, rfl⟩

theorem decodeItems_iff {k : Kind} {js : List Json}
    (hR : ∀ j ∈ js, ∀ a, decode j k = .ok a ↔ R k a j) {as : List k.Value} :
    decodeItems js k = .ok as ↔ IsList (as.map (R k)) (.array js) := by
  show _ ↔ List.Forall₂ _ (as.map (R k)) js
  induction js generalizing as with
  | nil =>
    show Except.ok [] = Except.ok as ↔ _
    rw [Except.ok.injEq, List.forall₂_nil_right_iff, List.map_eq_nil_iff]
    exact eq_comm
  | cons j js ih =>
    obtain ⟨hj, hjs⟩ := List.forall_mem_cons.mp hR
    rw [decodeItems_cons, bind_eq_ok_iff]
    simp only [bind_eq_ok_iff, Except.ok.injEq, ih hjs, hj]
    constructor
    · rintro ⟨a, ha, as, has, rfl⟩
      exact .cons ha has
    · intro h
      cases as with
      | nil => cases h
      | cons a as =>
        obtain ⟨ha, has⟩ := List.forall₂_cons.mp h
        exact ⟨a, ha, as, has, rfl⟩

end

/-! ## tags -/

namespace Variant

variable {α : Type} {variants : List (Variant α)}

theorem find?_tag_iff (hd : (variants.map Variant.tag).Nodup) {tag : String} {v : Variant α} :
    variants.find? (fun v => v.tag == tag) = some v ↔ v ∈ variants ∧ v.tag = tag := by
  have hfound : ∀ {w}, variants.find? (fun v => v.tag == tag) = some w →
      w ∈ variants ∧ w.tag = tag := by
    intro w h
    exact ⟨List.mem_of_find?_eq_some h, by simpa using List.find?_some h⟩
  constructor
  · exact hfound
  · rintro ⟨hv, htag⟩
    have hsome : (variants.find? fun v => v.tag == tag).isSome :=
      List.find?_isSome.mpr ⟨v, hv, by simpa using htag⟩
    obtain ⟨w, hw⟩ := Option.isSome_iff_exists.mp hsome
    obtain ⟨hmem, hwtag⟩ := hfound hw
    rw [hw, List.inj_on_of_nodup_map hd hmem hv (hwtag.trans htag.symm)]

theorem ofTag_iff (hd : (variants.map Variant.tag).Nodup) {tag : String} {v : Variant α} :
    ofTag variants tag = .ok v ↔ v ∈ variants ∧ v.tag = tag := by
  rw [← find?_tag_iff hd, ofTag]
  cases variants.find? fun v => v.tag == tag with
  | none => exact iff_of_false nofun nofun
  | some w => rw [Except.ok.injEq, Option.some.injEq]

theorem ofPlace_iff {place : Nat} {v : Variant α} :
    ofPlace variants place = .ok v ↔ variants[place]? = some v := by
  rw [ofPlace]
  cases variants[place]? with
  | none => exact iff_of_false nofun nofun
  | some w => rw [Except.ok.injEq, Option.some.injEq]

/-- a tag stands for the variant that has it or, if it may be a place, for the one that is there -/
theorem ofJson_iff (hd : (variants.map Variant.tag).Nodup) {tagging : Tagging} {j : Json}
    {v : Variant α} :
    ofJson variants tagging j = .ok v ↔
      ∃ place, variants[place]? = some v ∧ IsTag tagging v.tag place j := by
  have hfalse : ∀ j, (∀ place, ¬ IsTag tagging v.tag place j) →
      ((Except.error .other : Except Mismatch (Variant α)) = .ok v ↔
        ∃ place, variants[place]? = some v ∧ IsTag tagging v.tag place j) :=
    fun j hj => iff_of_false nofun fun ⟨place, _, h⟩ => hj place h
  cases j with
  | string s =>
    have hrun : ofJson variants tagging (.string s) = ofTag variants s := by
      cases tagging <;> rfl
    have htag : ∀ place, IsTag tagging v.tag place (.string s) ↔ v.tag = s := fun place => by
      cases tagging <;> exact eq_comm
    rw [hrun, ofTag_iff hd, List.mem_iff_getElem?]
    simp only [htag, exists_and_right]
  | natural n =>
    cases tagging with
    | byTag => exact hfalse _ fun _ => id
    | byTagOrPlace =>
      show ofPlace variants n = .ok v ↔ ∃ place, variants[place]? = some v ∧ n = place
      rw [ofPlace_iff]
      exact ⟨fun h => ⟨n, h, rfl⟩, fun ⟨_, h, hn⟩ => hn ▸ h⟩
  | _ => cases tagging <;> exact hfalse _ fun _ => id

theorem ofFields_some_iff {tagging : Tagging} {fs : List (String × Json)} {v w : Variant α} :
    ofFields variants tagging (some w) fs = .ok v ↔
      fs.filter (fun e => e.1 == "tag") = [] ∧ w = v := by
  induction fs with
  | nil =>
    show Except.ok w = Except.ok v ↔ _
    rw [Except.ok.injEq]
    exact (and_iff_right rfl).symm
  | cons e fs ih =>
    obtain ⟨key, j⟩ := e
    rw [ofFields]
    by_cases h : key = "tag"
    · rw [if_pos h, List.filter_cons_of_pos (by simp [h])]
      exact iff_of_false nofun nofun
    · rw [if_neg h, List.filter_cons_of_neg (by simpa using h)]
      exact ih

/-- the variant of an object is that of its one tag -/
theorem ofFields_iff {tagging : Tagging} {fs : List (String × Json)} {v : Variant α} :
    ofFields variants tagging none fs = .ok v ↔
      ∃ j, Once fs "tag" j ∧ ofJson variants tagging j = .ok v := by
  induction fs with
  | nil => exact iff_of_false nofun fun ⟨j, hj, _⟩ => once_nil "tag" j hj
  | cons e fs ih =>
    obtain ⟨key, j⟩ := e
    rw [ofFields]
    by_cases h : key = "tag"
    · subst h
      rw [if_pos rfl, bind_eq_ok_iff]
      constructor
      · rintro ⟨w, hw, hrest⟩
        obtain ⟨hnone, rfl⟩ := ofFields_some_iff.mp hrest
        exact ⟨j, once_cons_self.mpr ⟨rfl, hnone⟩, hw⟩
      · rintro ⟨j', honce, hv⟩
        obtain ⟨rfl, hnone⟩ := once_cons_self.mp honce
        exact ⟨v, hv, ofFields_some_iff.mpr ⟨hnone, rfl⟩⟩
    · rw [if_neg h, ih]
      simp only [once_cons_of_ne (e := (key, j)) h]

end Variant

end Equirec.Json
