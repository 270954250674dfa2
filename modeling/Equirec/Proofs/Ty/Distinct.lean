import Equirec.Context
import Equirec.Proofs.Ty.Closed
import Equirec.Ty.Head

/-!
# Types whose objects name each property once

* `Ty.AllObjects`           every object written in the type has properties of some sort
* `Ty.Distinct`             in every object of the type the names of the properties are distinct
* `Ty.WellFormed`           the type is not refused by `Ty.validate`, and is distinct
* `Ty.WellFormed.unfold`, `Ty.WellFormed.headForm`, `Ty.wellFormed_func`, `Ty.wellFormed_object`
                            unfolding a well-formed type and taking it apart gives such types again
* `Row.lookup_of_mem`       with distinct names, looking up a name finds every member
-/

namespace Equirec

/-! ## look-up in a row -/

namespace Row

theorem mem_of_lookup {α : Type} {row : List (Name × α)} {x : Name} {a : α}
    (h : row.lookup x = some a) : (x, a) ∈ row := by
  induction row with
  | nil => exact absurd h (by simp)
  | cons p row ih =>
    obtain ⟨y, b⟩ := p
    rw [lookup_cons_ite] at h
    by_cases e : x = y
    · rw [if_pos e] at h
      rw [e, Option.some.inj h]
      exact List.mem_cons_self ..
    · rw [if_neg e] at h
      exact List.mem_cons_of_mem _ (ih h)

theorem lookup_isSome_iff {α : Type} {row : List (Name × α)} {x : Name} :
    (row.lookup x).isSome ↔ x ∈ row.map Prod.fst := by
  induction row with
  | nil => simp
  | cons p row ih =>
    obtain ⟨y, b⟩ := p
    rw [lookup_cons_ite, List.map_cons, List.mem_cons]
    by_cases e : x = y
    · simp [e]
    · rw [if_neg e, ih]
      simp [e]

theorem lookup_of_mem {α : Type} {row : List (Name × α)} {x : Name} {a : α}
    (hd : (row.map Prod.fst).Nodup) (h : (x, a) ∈ row) : row.lookup x = some a := by
  induction row with
  | nil => exact absurd h List.not_mem_nil
  | cons p row ih =>
    obtain ⟨y, b⟩ := p
    obtain ⟨hy, hd'⟩ := List.nodup_cons.mp hd
    rw [lookup_cons_ite]
    rcases List.mem_cons.mp h with e | h'
    · obtain ⟨rfl, rfl⟩ := Prod.mk.inj e
      exact if_pos rfl
    · have hne : x ≠ y := fun e => hy (List.mem_map.mpr ⟨(x, a), h', e⟩)
      rw [if_neg hne, ih hd' h']

end Row

namespace Ty

/-! ## the objects of a type -/

mutual
/-- every object written in the type has properties as wanted -/
def AllObjects (P : Row → Prop) : Ty → Prop
  | boolean => True
  | number => True
  | func ps r => AllObjectsRow P ps ∧ AllObjects P r
  | object ps => P ps ∧ AllObjectsRow P ps
  | var _ => True
  | mu _ b => AllObjects P b
def AllObjectsRow (P : Row → Prop) : Row → Prop
  | [] => True
  | (_, t) :: ps => AllObjects P t ∧ AllObjectsRow P ps
end

section
variable {P : Row → Prop}

theorem allObjectsRow_iff {ps : Row} : AllObjectsRow P ps ↔ ∀ p ∈ ps, AllObjects P p.2 := by
  induction ps with
  | nil => exact iff_of_true trivial (List.forall_mem_nil _)
  | cons p ps ih =>
    show AllObjects P p.2 ∧ AllObjectsRow P ps ↔ _
    rw [ih, List.forall_mem_cons]

theorem allObjects_func {ps : Row} {r : Ty} :
    AllObjects P (func ps r) ↔ (∀ p ∈ ps, AllObjects P p.2) ∧ AllObjects P r :=
  and_congr_left' allObjectsRow_iff

theorem allObjects_object {ps : Row} :
    AllObjects P (object ps) ↔ P ps ∧ ∀ p ∈ ps, AllObjects P p.2 :=
  and_congr_right' allObjectsRow_iff

theorem allObjects_mu {x : Name} {b : Ty} : AllObjects P (mu x b) ↔ AllObjects P b :=
  Iff.rfl

variable [DecidablePred P]

mutual
def decideAllObjects : (t : Ty) → Decidable (AllObjects P t)
  | boolean => isTrue trivial
  | number => isTrue trivial
  | func ps r =>
    match decideAllObjectsRow ps, decideAllObjects r with
    | isTrue hps, isTrue hr => isTrue ⟨hps, hr⟩
    | isFalse hps, _ => isFalse fun h => hps h.1
    | _, isFalse hr => isFalse fun h => hr h.2
  | object ps =>
    match inferInstanceAs (Decidable (P ps)), decideAllObjectsRow ps with
    | isTrue hn, isTrue hps => isTrue ⟨hn, hps⟩
    | isFalse hn, _ => isFalse fun h => hn h.1
    | _, isFalse hps => isFalse fun h => hps h.2
  | var _ => isTrue trivial
  | mu _ b => decideAllObjects b
def decideAllObjectsRow : (ps : Row) → Decidable (AllObjectsRow P ps)
  | [] => isTrue trivial
  | (_, t) :: ps =>
    match decideAllObjects t, decideAllObjectsRow ps with
    | isTrue ht, isTrue hps => isTrue ⟨ht, hps⟩
    | isFalse ht, _ => isFalse fun h => ht h.1
    | _, isFalse hps => isFalse fun h => hps h.2
end

instance (t : Ty) : Decidable (AllObjects P t) := decideAllObjects t

end

/-! ## distinct names -/

/-- no object of the type names a property twice -/
def Distinct (t : Ty) : Prop := t.AllObjects fun ps => (Row.names ps).Nodup

instance (t : Ty) : Decidable t.Distinct := inferInstanceAs (Decidable (t.AllObjects _))

theorem names_substRow (ps : Row) (x : Name) (s : Ty) :
    Row.names (substRow ps x s) = Row.names ps := by
  rw [substRow_eq_map, Row.names, List.map_map]
  rfl

theorem Distinct.subst {t s : Ty} (ht : t.Distinct) (hs : s.Distinct) (x : Name) :
    (t.subst x s).Distinct := by
  induction t with
  | boolean => exact trivial
  | number => exact trivial
  | func ps r hps hr =>
    obtain ⟨h, h'⟩ := allObjects_func.mp ht
    refine allObjects_func.mpr ⟨fun p hp => ?_, hr h'⟩
    obtain ⟨q, hq, rfl⟩ := mem_substRow.mp hp
    exact hps q hq (h q hq)
  | object ps hps =>
    obtain ⟨h, h'⟩ := allObjects_object.mp ht
    refine allObjects_object.mpr ⟨by rw [names_substRow]; exact h, fun p hp => ?_⟩
    obtain ⟨q, hq, rfl⟩ := mem_substRow.mp hp
    exact hps q hq (h' q hq)
  | var y =>
    by_cases e : y = x
    · rw [e, subst_var_self]
      exact hs
    · rw [subst_var_of_ne e]
      exact trivial
  | mu y b hb =>
    by_cases e : y = x
    · rw [e, subst_mu_self]
      exact ht
    · rw [subst_mu_of_ne e]
      exact allObjects_mu.mpr (hb (allObjects_mu.mp ht))

theorem Distinct.unfold {t : Ty} (h : t.Distinct) : t.unfold.Distinct := by
  cases t with
  | mu x b => exact Distinct.subst (allObjects_mu.mp h) h x
  | _ => exact h

/-! ## head forms -/

/-- what unfolding preserves holds of the head form -/
theorem headForm_induction {P : Ty → Prop} (step : ∀ t, P t → P t.unfold) {t : Ty} (h : P t) :
    P t.headForm := by
  suffices ∀ (n : Nat) (met : List Ty) (t : Ty), P t → P (headFrom n met t) from this _ _ t h
  intro n
  induction n with
  | zero => exact fun _ _ h => h
  | succ n ih =>
    intro met t h
    rw [headFrom]
    split
    · exact ih _ _ (step t h)
    · exact h

theorem mem_freeVars_headForm {t : Ty} {x : Name} (h : x ∈ t.headForm.freeVars) :
    x ∈ t.freeVars :=
  headForm_induction (P := fun s => x ∈ s.freeVars → x ∈ t.freeVars)
    (fun _ hs h => hs (mem_freeVars_unfold h)) id h

/-! ## well-formed types -/

structure WellFormed (t : Ty) : Prop where
  valid : t.validate = .ok ()
  distinct : t.Distinct

instance (t : Ty) : Decidable t.WellFormed :=
  decidable_of_iff (t.Closed ∧ t.Distinct)
    ⟨fun h => ⟨validate_eq_ok_iff.mpr h.1, h.2⟩, fun h => ⟨validate_eq_ok_iff.mp h.1, h.2⟩⟩

theorem WellFormed.closed {t : Ty} (h : t.WellFormed) : t.Closed := validate_eq_ok_iff.mp h.valid

theorem wellFormed_iff {t : Ty} : t.WellFormed ↔ t.Closed ∧ t.Distinct :=
  ⟨fun h => ⟨h.closed, h.distinct⟩, fun h => ⟨validate_eq_ok_iff.mpr h.1, h.2⟩⟩

theorem wellFormed_func {ps : Row} {r : Ty} :
    (func ps r).WellFormed ↔ (∀ p ∈ ps, p.2.WellFormed) ∧ r.WellFormed := by
  simp only [wellFormed_iff, closed_func, Distinct, allObjects_func]
  exact ⟨fun h => ⟨fun p hp => ⟨h.1.1 p hp, h.2.1 p hp⟩, h.1.2, h.2.2⟩,
    fun h => ⟨⟨fun p hp => (h.1 p hp).1, h.2.1⟩, fun p hp => (h.1 p hp).2, h.2.2⟩⟩

theorem wellFormed_object {ps : Row} :
    (object ps).WellFormed ↔ (Row.names ps).Nodup ∧ ∀ p ∈ ps, p.2.WellFormed := by
  simp only [wellFormed_iff, closed_object, Distinct, allObjects_object]
  exact ⟨fun h => ⟨h.2.1, fun p hp => ⟨h.1 p hp, h.2.2 p hp⟩⟩,
    fun h => ⟨fun p hp => (h.2 p hp).1, h.1, fun p hp => (h.2 p hp).2⟩⟩

theorem WellFormed.unfold {t : Ty} (h : t.WellFormed) : t.unfold.WellFormed :=
  wellFormed_iff.mpr ⟨h.closed.unfold, h.distinct.unfold⟩

theorem WellFormed.headForm {t : Ty} (h : t.WellFormed) : t.headForm.WellFormed :=
  headForm_induction (fun _ h => h.unfold) h

theorem Closed.headForm {t : Ty} (h : t.Closed) : t.headForm.Closed :=
  headForm_induction (fun _ h => h.unfold) h

end Ty

end Equirec
