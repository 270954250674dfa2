import Equirec.Proofs.Comparison.Decision

/-!
# Comparisons under assumptions

An assumption ends a comparison with `true` where it would have gone on.  Nothing in a comparison
asks for a `false`, so more assumptions can only help.  Where the pair that is assumed is related,
the comparison would have come to `true` all the same.

* `Comparison.outcome_step`          the outcome of a step, by what stands in front of the two types
* `Comparison.allHold_eq_true_iff`   premises that are all met
* `Comparison.step_of_true`          a step ends in `true` if what it leads to still does
* `Comparison.holdsWithin_of_subset` what ends in `true` does so under more assumptions
* `Comparison.answers_under`         there is an answer, whatever is assumed
* `Comparison.assumptions_help`      assumptions that are right leave every answer as it is, and any
                                     others turn `false` into `true` only
-/

namespace Equirec

theorem Assumptions.cover_of_subset {seen more : Assumptions} (h : seen ⊆ more) {t u : Ty}
    (hc : seen.cover t u = true) : more.cover t u = true := by
  obtain ⟨p, hp, hpt, hpu⟩ := cover_iff.mp hc
  exact cover_iff.mpr ⟨p, h hp, hpt, hpu⟩

namespace Comparison

variable {c : Comparison}

/-! ## outcomes of steps -/

/-- a type is unfolded, unless it has no head form -/
theorem outcome_turn (v : Ty) (stuck : Run Bool) (events : Ty → List Event)
    (next : Ty → Run Bool) :
    (v.normalize >>= fun h =>
      if h.isMu then stuck else Run.log (events h) >>= fun _ => next h).outcome =
      if v.isUnguarded then stuck.outcome else (next v.headForm).outcome := by
  rw [Run.outcome_bind, Ty.outcome_normalize, Outcome.ok_bind, Ty.isUnguarded]
  cases v.headForm.isMu with
  | true => rfl
  | false => rfl

theorem outcome_step (next : Assumptions → Ty → Ty → Run Bool) (seen : Assumptions) (t u : Ty) :
    (c.step next seen t u).outcome =
      if t.isMu then
        if t.isUnguarded then .ok u.isUnguarded else (next ((t, u) :: seen) t.headForm u).outcome
      else if u.isMu then
        if u.isUnguarded then .ok false else (next ((t, u) :: seen) t u.headForm).outcome
      else
        match headVar? t u with
        | some x => .error (.unboundTypeVariable x)
        | none => (allHold (next seen) (c.premises t u)).outcome := by
  unfold step
  cases t.isMu with
  | true => exact (outcome_turn ..).trans (by rw [Ty.outcome_askUnguarded]; rfl)
  | false =>
    cases u.isMu with
    | true => exact outcome_turn ..
    | false => cases headVar? t u <;> rfl

theorem allHold_eq_true_iff {related : Ty → Ty → Run Bool} {ps : List (Option (Ty × Ty))} :
    (allHold related ps).outcome = .ok true ↔
      ∀ o ∈ ps, Met (fun a b => (related a b).outcome = .ok true) o := by
  rcases allHold_cases related ps with ⟨htrue, hall⟩ | ⟨hfalse, hnone⟩ | ⟨p, hp, hrun, hne⟩
  · exact iff_of_true htrue hall
  · exact iff_of_false (by simp [hfalse]) fun h => h none hnone
  · exact iff_of_false hne fun h => hne (hrun ▸ h _ hp)

/-! ## more assumptions -/

section
variable {seen more : Assumptions}

theorem step_of_true {next next' : Assumptions → Ty → Ty → Run Bool} {t u : Ty}
    (hturn : ∀ a b, (next ((t, u) :: seen) a b).outcome = .ok true →
      (next' ((t, u) :: more) a b).outcome = .ok true)
    (hpart : ∀ a b, (next seen a b).outcome = .ok true → (next' more a b).outcome = .ok true)
    (h : (c.step next seen t u).outcome = .ok true) :
    (c.step next' more t u).outcome = .ok true := by
  rw [outcome_step] at h ⊢
  cases ht : t.isMu with
  | true =>
    simp only [ht, if_true] at h ⊢
    split at h
    · next hg => rwa [if_pos hg]
    · next hg =>
      rw [if_neg hg]
      exact hturn _ _ h
  | false =>
    simp only [ht, Bool.false_eq_true, if_false] at h ⊢
    cases hu : u.isMu with
    | true =>
      simp only [hu, if_true] at h ⊢
      split at h
      · exact absurd h (by simp)
      · next hg =>
        rw [if_neg hg]
        exact hturn _ _ h
    | false =>
      simp only [hu, Bool.false_eq_true, if_false] at h ⊢
      cases hx : headVar? t u with
      | some x => simp [hx] at h
      | none =>
        rw [hx] at h
        refine allHold_eq_true_iff.mpr fun o ho => ?_
        obtain ⟨p, rfl, hp⟩ := met_iff.mp (allHold_eq_true_iff.mp h o ho)
        exact hpart p.1 p.2 hp

theorem holdsWithin_of_subset {n : Nat} (hsub : seen ⊆ more) {t u : Ty}
    (h : (c.holdsWithin n seen t u).outcome = .ok true) :
    (c.holdsWithin n more t u).outcome = .ok true := by
  induction n generalizing seen more t u with
  | zero => exact absurd h (by simp [holdsWithin_zero])
  | succ n ih =>
    rw [holdsWithin_succ] at h ⊢
    cases hmore : more.cover t u with
    | true => rfl
    | false =>
      have hseen : seen.cover t u = false := by
        rw [Bool.eq_false_iff]
        intro hc
        rw [Assumptions.cover_of_subset hsub hc] at hmore
        exact Bool.noConfusion hmore
      simp only [hseen, Bool.false_eq_true, if_false] at h ⊢
      exact step_of_true (fun _ _ => ih (List.cons_subset_cons _ hsub)) (fun _ _ => ih hsub) h

end

/-! ## answers -/

section
variable {t u : Ty} (ht : t.WellFormed) (hu : u.WellFormed) {n : Nat} (hn : budget t u ≤ n)
include ht hu hn

/-- the comparison of well-formed types has an answer within its budget, whatever is assumed -/
theorem answers_under (seen : Assumptions) :
    ∃ answer, (c.holdsWithin (budget t u) seen t u).outcome = .ok answer ∧
      c.holdsWithin n seen t u = c.holdsWithin (budget t u) seen t u := by
  have hends := ends_of_closed (c := c) ht.closed hu.closed ht.distinct.recognizable.loops
    hu.distinct.recognizable.loops seen
  rcases Run.ok_or_error hends with ⟨answer, h⟩ | ⟨e, he⟩
  · exact ⟨answer, h, holdsWithin_mono hn hends⟩
  · exact absurd he (run_of_closed ht.closed hu.closed e)

/-- under assumptions that are right the answer is the one without any -/
theorem outcome_under {seen : Assumptions}
    (hs : ∀ p ∈ seen, p.1.WellFormed ∧ p.2.WellFormed ∧ (c.holds p.1 p.2).outcome = .ok true) :
    (c.holdsWithin n seen t u).outcome = (c.holds t u).outcome := by
  have hright : ∀ p ∈ seen, p.1.WellFormed ∧ p.2.WellFormed ∧ c.Related p.1 p.2 := fun p hp => by
    obtain ⟨h1, h2, h⟩ := hs p hp
    exact ⟨h1, h2, (holds_iff h1 h2).mp h⟩
  obtain ⟨_, _, hn⟩ := answers_under (c := c) ht hu hn seen
  obtain ⟨answer, hrun, h⟩ := decides_under ht hu hright
  obtain ⟨answer', hrun', h'⟩ := holds_decides (c := c) ht hu
  rw [hn, hrun, hrun', Outcome.ok.injEq, Bool.eq_iff_iff, h, h']

/-- Assumptions that are right leave every answer as it is, and any others turn `false` into `true`
at most.  This is so for every number of nested steps from the budget on, and so for a comparison
that is given no bound. -/
theorem assumptions_help (seen : Assumptions) :
    ((∀ p ∈ seen, p.1.WellFormed ∧ p.2.WellFormed ∧ (c.holds p.1 p.2).outcome = .ok true) →
        (c.holdsWithin n seen t u).outcome = (c.holds t u).outcome) ∧
      ∀ more, seen ⊆ more → ∃ answer answer' : Bool,
        (c.holdsWithin n seen t u).outcome = .ok answer ∧
          (c.holdsWithin n more t u).outcome = .ok answer' ∧ (answer = true → answer' = true) := by
  refine ⟨fun hs => outcome_under ht hu hn hs, fun more hsub => ?_⟩
  obtain ⟨answer, hrun, hseen⟩ := answers_under (c := c) ht hu hn seen
  obtain ⟨answer', hrun', hmore⟩ := answers_under (c := c) ht hu hn more
  rw [hseen, hmore]
  refine ⟨answer, answer', hrun, hrun', ?_⟩
  rintro rfl
  exact Outcome.ok.inj (hrun'.symm.trans (holdsWithin_of_subset hsub hrun))

end

/-- streams of functions that are the same, taken for granted where a property asks for them, and
then a pair of leaves that are not -/
theorem assumptions_help_streams :
    let s := Ty.mu "a" (.func [] (.var "a"))
    let s' := Ty.mu "b" (.func [] (.func [] (.var "b")))
    let t := Ty.object [("x", s), ("y", .boolean)]
    let u := Ty.object [("y", .number), ("x", s')]
    (equality.holdsWithin (budget t u) [(s, s')] t u).outcome = (t.equal u).outcome ∧
      (∃ answer answer' : Bool,
        (equality.holdsWithin (budget t u) [(s, s')] t u).outcome = .ok answer ∧
          (equality.holdsWithin (budget t u) [(.boolean, .number), (s, s')] t u).outcome =
            .ok answer' ∧ (answer = true → answer' = true)) ∧
      (t.equal u).outcome = .ok false ∧
      (equality.holdsWithin (budget t u) [(.boolean, .number), (s, s')] t u).outcome = .ok true := by
  intro s s' t u
  have h := assumptions_help (c := equality) (show t.WellFormed by decide)
    (show u.WellFormed by decide) (Nat.le_refl _) [(s, s')]
  exact ⟨h.1 (by decide), h.2 _ (List.subset_cons_self ..), by decide, by decide⟩

end Comparison

end Equirec
