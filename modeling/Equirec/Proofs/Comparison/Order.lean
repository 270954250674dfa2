import Equirec.Proofs.Comparison.Decision

/-!
# The order of types

Subtyping is a preorder on well-formed types, and types that are subtypes of each other are equal.
Subtyping of recursive types is the largest relation that goes on from heads to parts, so each law
is proved of a relation that does.

* `Comparison.Related.refl`, `Comparison.Related.trans`
                            both comparisons are preorders
* `Comparison.Related.antisymm`
                            subtypes of each other have the same tree
* `Ty.comparisons_agree`    equality is an equivalence, subtyping is a preorder, and equal are those
                            that are subtypes of each other, such as a type and its unfoldings
-/

namespace Equirec

namespace Comparison

variable {c : Comparison}

/-! ## constructors -/

theorem Fits.refl {a : Label} (ha : ∀ x, a ≠ .free x) : c.Fits a a := by
  cases c with
  | equality => rfl
  | subtyping =>
    cases a with
    | object names => exact Finset.Subset.refl names
    | free x => exact absurd rfl (ha x)
    | _ => rfl

theorem Fits.trans {a b d : Label} (h : c.Fits a b) (h' : c.Fits b d) : c.Fits a d := by
  cases c with
  | equality => exact Eq.trans h h'
  | subtyping =>
    rcases fits_subtyping h with ⟨names, some, rfl, rfl, hsub⟩ | ⟨rfl, _⟩
    · cases d with
      | object wanted => exact Finset.Subset.trans h' hsub
      | _ => exact absurd h' (by simp [Fits])
    · exact h'

theorem Fits.antisymm {a b : Label} (h : subtyping.Fits a b) (h' : subtyping.Fits b a) : a = b := by
  rcases fits_subtyping h with ⟨names, wanted, rfl, rfl, hsub⟩ | ⟨rfl, _⟩
  · exact congrArg Label.object (Finset.Subset.antisymm h' hsub)
  · rfl

/-! ## places -/

theorem Turned.refl {s : Place} {R : Ty → Ty → Prop} {a : Ty} (h : R a a) : c.Turned s R a a := by
  cases c <;> cases s <;> exact h

theorem Turned.trans {s : Place} {R R' : Ty → Ty → Prop} {a b d : Ty}
    (hR : ∀ a b d, R a b → R b d → R' a d) (h : c.Turned s R a b) (h' : c.Turned s R b d) :
    c.Turned s R' a d := by
  cases c with
  | equality => cases s <;> exact hR a b d h h'
  | subtyping =>
    cases s with
    | param i => exact hR d b a h' h
    | _ => exact hR a b d h h'

theorem Turned.both {s : Place} {R : Ty → Ty → Prop} {a b : Ty} (h : c.Turned s R a b)
    (h' : c.Turned s R b a) : R a b ∧ R b a := by
  cases c with
  | equality => cases s <;> exact ⟨h, h'⟩
  | subtyping =>
    cases s with
    | param i => exact ⟨h', h⟩
    | _ => exact ⟨h, h'⟩

/-! ## related types -/

theorem Related.refl {t : Ty} (ht : t.WellFormed) : c.Related t t := by
  refine related_of_heads (R := fun t u => t = u ∧ t.WellFormed) ?_ ⟨rfl, ht⟩
  rintro t _ ⟨rfl, ht⟩
  have hfree : ∀ x, t.label ≠ .free x := by
    intro x hx
    have hvar : t.headForm = .var x := by
      revert hx
      rw [Ty.label]
      cases t.headForm <;> simp [Ty.shape]
    exact Ty.not_closed_var x (hvar ▸ ht.closed.headForm)
  refine heads_headForm.mpr ⟨.refl hfree, fun s a b ha hb => ?_⟩
  obtain rfl : a = b := Option.some.inj (ha.symm.trans hb)
  exact .refl ⟨rfl, ht.part ha⟩

theorem Related.trans {t u v : Ty} (h : c.Related t u) (h' : c.Related u v) : c.Related t v := by
  refine related_of_heads (R := fun t v => ∃ u, c.Related t u ∧ c.Related u v) ?_ ⟨u, h, h'⟩
  rintro t v ⟨u, h, h'⟩
  obtain ⟨hfits, hparts⟩ := heads_headForm.mp h.heads
  obtain ⟨hfits', hparts'⟩ := heads_headForm.mp h'.heads
  refine heads_headForm.mpr ⟨hfits.trans hfits', fun s a d ha hd => ?_⟩
  -- a place of the third type is a place of the second
  obtain ⟨b, hb⟩ := Ty.exists_part?_of_has (hfits'.has (Ty.has_of_part? hd))
  exact (hparts s a b ha hb).trans (fun _ b _ hab hbd => ⟨b, hab, hbd⟩) (hparts' s b d hb hd)

theorem Related.antisymm {t u : Ty} (h : subtyping.Related t u) (h' : subtyping.Related u t) :
    equality.Related t u := by
  refine related_of_heads (R := fun t u => subtyping.Related t u ∧ subtyping.Related u t) ?_ ⟨h, h'⟩
  rintro t u ⟨h, h'⟩
  obtain ⟨hfits, hparts⟩ := heads_headForm.mp h.heads
  obtain ⟨hfits', hparts'⟩ := heads_headForm.mp h'.heads
  refine heads_headForm.mpr ⟨hfits.antisymm hfits', fun s a b ha hb => ?_⟩
  exact turned_equality.mpr ((hparts s a b ha hb).both (hparts' s b a hb ha))

/-- types with the same tree are subtypes of each other -/
theorem related_of_tree_eq {t u : Ty} (ht : t.WellFormed) (h : t.tree = u.tree) : c.Related t u :=
  (Related.refl ht).congr rfl h

end Comparison

/-! ## the answers -/

namespace Ty

/-- unfolding leaves the tree as it is, and well-formed types well-formed -/
theorem wellFormed_and_tree_of_mem_unfoldings {t a : Ty} (ht : t.WellFormed)
    (ha : a ∈ [t, t.unfold, t.headForm]) : a.WellFormed ∧ a.tree = t.tree := by
  simp only [List.mem_cons, List.not_mem_nil, or_false] at ha
  rcases ha with rfl | rfl | rfl
  · exact ⟨ht, rfl⟩
  · exact ⟨ht.unfold, tree_unfold t⟩
  · exact ⟨ht.headForm, tree_headForm t⟩

/-- on well-formed types equality is an equivalence and subtyping a preorder, and equality answers
as subtyping does both ways; a type, its unfolding and its head form are the same to both -/
theorem comparisons_agree :
    ((∀ t : Ty, t.WellFormed → (t.equal t).outcome = .ok true) ∧
      (∀ t u : Ty, t.WellFormed → u.WellFormed → (t.equal u).outcome = .ok true →
        (u.equal t).outcome = .ok true) ∧
      ∀ t u v : Ty, t.WellFormed → u.WellFormed → v.WellFormed →
        (t.equal u).outcome = .ok true → (u.equal v).outcome = .ok true →
        (t.equal v).outcome = .ok true) ∧
    ((∀ t : Ty, t.WellFormed → (t.subtype t).outcome = .ok true) ∧
      ∀ t u v : Ty, t.WellFormed → u.WellFormed → v.WellFormed →
        (t.subtype u).outcome = .ok true → (u.subtype v).outcome = .ok true →
        (t.subtype v).outcome = .ok true) ∧
    (∀ t u : Ty, t.WellFormed → u.WellFormed →
      ((t.equal u).outcome = .ok true ↔
        (t.subtype u).outcome = .ok true ∧ (u.subtype t).outcome = .ok true)) ∧
    ∀ t : Ty, t.WellFormed → ∀ a ∈ [t, t.unfold, t.headForm], ∀ b ∈ [t, t.unfold, t.headForm],
      (a.equal b).outcome = .ok true ∧ (a.subtype b).outcome = .ok true := by
  refine ⟨⟨fun t ht => ?_, fun t u ht hu h => ?_, fun t u v ht hu hv h h' => ?_⟩,
    ⟨fun t ht => ?_, fun t u v ht hu hv h h' => ?_⟩, fun t u ht hu => ⟨fun h => ?_, fun h => ?_⟩,
    fun t ht a ha b hb => ?_⟩
  · exact (equal_iff ht ht).mpr rfl
  · exact (equal_iff hu ht).mpr ((equal_iff ht hu).mp h).symm
  · exact (equal_iff ht hv).mpr (((equal_iff ht hu).mp h).trans ((equal_iff hu hv).mp h'))
  · exact (subtype_iff ht ht).mpr (.refl ht)
  · exact (subtype_iff ht hv).mpr (((subtype_iff ht hu).mp h).trans ((subtype_iff hu hv).mp h'))
  · have htree := (equal_iff ht hu).mp h
    exact ⟨(subtype_iff ht hu).mpr (Comparison.related_of_tree_eq ht htree),
      (subtype_iff hu ht).mpr (Comparison.related_of_tree_eq hu htree.symm)⟩
  · exact (equal_iff ht hu).mpr (((subtype_iff ht hu).mp h.1).antisymm ((subtype_iff hu ht).mp h.2))
  · obtain ⟨ha, hta⟩ := wellFormed_and_tree_of_mem_unfoldings ht ha
    obtain ⟨hb, htb⟩ := wellFormed_and_tree_of_mem_unfoldings ht hb
    have htree : a.tree = b.tree := hta.trans htb.symm
    exact ⟨(equal_iff ha hb).mpr htree,
      (subtype_iff ha hb).mpr (Comparison.related_of_tree_eq ha htree)⟩

/-- streams that repeat after two and after three turns: each is the stream that repeats after one,
so they are the same, and they are subtypes of each other -/
theorem comparisons_agree_periods :
    let t := mu "a" (object [("tail", object [("tail", var "a")])])
    let u := mu "b" (object [("tail", object [("tail", object [("tail", var "b")])])])
    (t.equal u).outcome = .ok true ∧ (u.subtype t).outcome = .ok true := by
  intro t u
  have hone : (t.equal (mu "c" (object [("tail", var "c")]))).outcome = .ok true := by decide
  have htwo : (Ty.equal (mu "c" (object [("tail", var "c")])) u).outcome = .ok true := by decide
  have htu : (t.equal u).outcome = .ok true :=
    comparisons_agree.1.2.2 _ _ _ (by decide) (by decide) (by decide) hone htwo
  exact ⟨htu, ((comparisons_agree.2.2.1 _ _ (by decide) (by decide)).mp htu).2⟩

end Ty

end Equirec
