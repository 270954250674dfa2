import Equirec.Proofs.Ty.Nameless
import Equirec.Proofs.Ty.Turns

/-!
# Unfolding under renamed binders

Types that agree up to the names of their binders stay so when closed types that agree are put in,
and so when they are unfolded.  The head form of a type that has one takes as many unfoldings on
both sides.  Without a head form the unfolding stops where a type comes up again as it is written,
names included, and that may be at another binder once the names have been changed.

* `Ty.alphaEq_subst`         agreement is kept by substitution
* `Ty.CutAt`                 an unguarded type, cut at the binder of its variable
* `Ty.CutAt.alphaEq_iff`     unguarded types agree if they are cut at the same place
* `Ty.CutAt.headForm`        where the head form is cut
* `Ty.renaming_respected`    what unfolding makes of types that agree
-/

namespace Equirec

theorem Reference.of_append {names : List Name} {x : Name} (h : x ∉ names) (outer : List Name) :
    of (names ++ x :: outer) x = bound names.length := by
  induction names with
  | nil => exact of_cons_self x outer
  | cons y names ih =>
    obtain ⟨hne, hnames⟩ := not_or.mp (mt List.mem_cons.mpr h)
    rw [List.cons_append, of_cons_of_ne hne, ih hnames]
    rfl

namespace Ty

/-! ## substitution -/

theorem alphaEq_subst {t u r s : Ty} (h : t.alphaEq u = true) (hr : r.Closed)
    (hrs : r.alphaEq s = true) (x : Name) : (t.subst x r).alphaEq (u.subst x s) = true := by
  rw [subst_eq_inst, subst_eq_inst]
  refine alphaUnder_inst h fun v _ w _ hm => ?_
  obtain rfl := (varsMatch_nil v w).mp hm
  by_cases e : v = x
  · rw [e]
    exact .inr ⟨r, s, Assignment.set_self .., Assignment.set_self .., alphaUnder_of_closed hr hrs⟩
  · exact .inl ⟨Assignment.set_of_ne _ e r, Assignment.set_of_ne _ e s, hm⟩

/-! ## chains -/

theorem alphaUnder_chain {xs ys : List Name} (h : xs.length = ys.length)
    (bound : List (Name × Name)) (t u : Ty) :
    alphaUnder bound (chain xs t) (chain ys u) = alphaUnder ((xs.zip ys).reverse ++ bound) t u := by
  induction xs generalizing ys bound with
  | nil =>
    obtain rfl := List.length_eq_zero_iff.mp h.symm
    rfl
  | cons x xs ih =>
    cases ys with
    | nil => exact absurd h (Nat.succ_ne_zero _)
    | cons y ys =>
      rw [chain_cons, chain_cons, alphaUnder_mu, ih (Nat.succ.inj h), List.zip_cons_cons,
        List.reverse_cons, List.append_assoc, List.singleton_append]

/-- a variable behind as many binders on both sides belongs to the same one of them -/
theorem alphaEq_chain_var {xs ys : List Name} (h : xs.length = ys.length) (x y : Name) :
    (chain xs (var x)).alphaEq (chain ys (var y)) = true ↔
      Reference.of xs.reverse x = Reference.of ys.reverse y := by
  rw [alphaEq, alphaUnder_chain h, List.append_nil]
  show varsMatch _ x y = true ↔ _
  rw [varsMatch_iff, List.map_reverse, List.map_reverse, List.map_fst_zip h.le,
    List.map_snd_zip h.ge]

/-! ## unguarded types -/

/-- the type is the variable of one of the binders in front of it, with the binders `before` in
front of that binder and the binders `after` behind it -/
structure CutAt (t : Ty) (before : List Name) (x : Name) (after : List Name) : Prop where
  eq : t = chain (before ++ x :: after) (var x)
  not_mem : x ∉ after

section
variable {t u : Ty} {before before' after after' : List Name} {x y : Name}

theorem exists_cutAt (h : t.isUnguarded = true) : ∃ before x after, t.CutAt before x after := by
  rw [isUnguarded_eq_spins] at h
  obtain ⟨before, x, after, ht, hx⟩ := exists_chain_of_spins h
  exact ⟨before, x, after, ht, hx⟩

namespace CutAt

theorem reference (h : t.CutAt before x after) :
    Reference.of (before ++ x :: after).reverse x = .bound after.length := by
  have hx : x ∉ after.reverse := mt List.mem_reverse.mp h.not_mem
  rw [List.reverse_append, List.reverse_cons, List.append_assoc, List.singleton_append,
    Reference.of_append hx, List.length_reverse]

theorem binders (h : t.CutAt before x after) : t.binders = (before ++ x :: after).length := by
  rw [h.eq, binders_chain]
  rfl

theorem alphaEq_iff (ht : t.CutAt before x after) (hu : u.CutAt before' y after') :
    t.alphaEq u = true ↔ before.length = before'.length ∧ after.length = after'.length := by
  have hafter : (before ++ x :: after).length = (before' ++ y :: after').length →
      (t.alphaEq u = true ↔ after.length = after'.length) := fun hlen => by
    rw [ht.eq, hu.eq, alphaEq_chain_var hlen, ht.reference, hu.reference, Reference.bound.injEq]
  rw [List.length_append, List.length_append, List.length_cons, List.length_cons] at hafter
  constructor
  · intro h
    have hlen := alphaUnder_binders h
    rw [ht.binders, hu.binders, List.length_append, List.length_append, List.length_cons,
      List.length_cons] at hlen
    have := (hafter hlen).mp h
    omega
  · rintro ⟨hbefore, heq⟩
    exact (hafter (by rw [hbefore, heq])).mpr heq

theorem headForm (h : t.CutAt before x after) :
    t.headForm.CutAt (sharedEnd before after) x after := by
  refine ⟨?_, h.not_mem⟩
  rw [h.eq]
  exact (stopsAfter_chain before h.not_mem).2

end CutAt

end

/-! ## unfolding -/

/-- Types that agree up to the names of binders agree after a substitution of closed types that
agree, and closed ones after an unfolding.  If they have head forms these agree.  If they have none,
both are cut at the same place, and what their unfolding comes back to agrees if and only if the
names in front of the cut and those behind it end with as many common ones on both sides. -/
theorem renaming_respected :
    (∀ (t u r s : Ty) (x : Name), t.alphaEq u = true → r.Closed → s.Closed → r.alphaEq s = true →
        (t.subst x r).alphaEq (u.subst x s) = true) ∧
      ∀ t u : Ty, t.Closed → u.Closed → t.alphaEq u = true →
        t.unfold.alphaEq u.unfold = true ∧ t.isUnguarded = u.isUnguarded ∧
          (t.isUnguarded = false → t.headForm.alphaEq u.headForm = true) ∧
          (t.isUnguarded = true → ∃ before x after before' y after',
            t.CutAt before x after ∧ u.CutAt before' y after' ∧
              before.length = before'.length ∧ after.length = after'.length ∧
              t.headForm.CutAt (sharedEnd before after) x after ∧
              u.headForm.CutAt (sharedEnd before' after') y after' ∧
              (t.headForm.alphaEq u.headForm = true ↔
                (sharedEnd before after).length = (sharedEnd before' after').length)) := by
  refine ⟨fun t u r s x h hr _ hrs => alphaEq_subst h hr hrs x, fun t u ht _ h => ?_⟩
  refine ⟨alphaEq_unfold ht h, alphaEq_isUnguarded h, alphaEq_headForm ht h, fun hg => ?_⟩
  obtain ⟨before, x, after, hcut⟩ := exists_cutAt hg
  obtain ⟨before', y, after', hcut'⟩ := exists_cutAt (alphaEq_isUnguarded h ▸ hg)
  obtain ⟨hbefore, hafter⟩ := (hcut.alphaEq_iff hcut').mp h
  refine ⟨before, x, after, before', y, after', hcut, hcut', hbefore, hafter, hcut.headForm,
    hcut'.headForm, ?_⟩
  rw [hcut.headForm.alphaEq_iff hcut'.headForm, and_iff_left hafter]

/-- a variable that a binder of its name stops on one side only, and a chain of binders with crossed
names -/
theorem renaming_respected_crossed :
    let t := object [("l", var "n"), ("r", mu "n" (func [] (var "n")))]
    let u := object [("r", mu "m" (func [] (var "m"))), ("l", var "n")]
    let r := mu "a" (mu "b" (func [("x", var "a")] (var "b")))
    let s := mu "b" (mu "a" (func [("y", var "b")] (var "a")))
    (t.subst "n" r).alphaEq (u.subst "n" s) = true ∧ r.unfold.alphaEq s.unfold = true ∧
      r.headForm.alphaEq s.headForm = true := by
  intro t u r s
  have hsubst := renaming_respected.1 t u r s "n" (by decide) (by decide) (by decide) (by decide)
  have hunfold := renaming_respected.2 r s (by decide) (by decide) (by decide)
  exact ⟨hsubst, hunfold.1, hunfold.2.2.1 (by decide)⟩

/-- with another name for the last of three binders the unfolding no longer comes back to the type
itself, but to a part of it -/
theorem headForm_depends_on_names :
    let t := chain ["a", "b", "a"] (var "b")
    let u := chain ["a", "b", "c"] (var "b")
    t.Closed ∧ u.Closed ∧ t.alphaEq u = true ∧ ¬ t.headForm.alphaEq u.headForm = true := by
  decide

end Ty

end Equirec
