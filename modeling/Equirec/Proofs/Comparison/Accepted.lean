import Equirec.Proofs.Comparison.Answer
import Equirec.Proofs.Comparison.Budget

/-!
# Comparisons that do not come to an end

`Ty.validate` refuses types with free variables only.  A type that names a property twice is
accepted, and then need not be known again when a comparison comes back to it: the second property
of the name is compared with the first.

* `Comparison.first?`             the pair that a comparison goes on with first
* `Comparison.exhausted_of_trap`  pairs that go on with each other and do not know each other again
* `Ty.repeating_exhausts`         a type that is accepted, and compared with itself without end
* `Ty.accepted_ends`              accepted types whose objects below a `mu` agree with themselves
                                  are compared within the budget
-/

namespace Equirec

namespace Comparison

variable {c : Comparison}

/-- the pair that a comparison goes on with first, if it goes on -/
def first? (c : Comparison) (t u : Ty) : Option (Ty × Ty) :=
  if t.isUnguarded || u.isUnguarded || (headVar? t u).isSome then none
  else if t.isMu then some (t.headForm, u)
  else if u.isMu then some (t, u.headForm)
  else (c.premises t u).head?.join

theorem first?_cases {t u : Ty} {p : Ty × Ty} (h : c.first? t u = some p) :
    (t.isUnguarded = false ∧ u.isUnguarded = false ∧ headVar? t u = none) ∧
      (t.isMu = true → p = (t.headForm, u)) ∧
      (t.isMu = false → u.isMu = true → p = (t, u.headForm)) ∧
      (t.isMu = false → u.isMu = false → ∃ rest, c.premises t u = some p :: rest) := by
  unfold first? at h
  by_cases hg : (t.isUnguarded || u.isUnguarded || (headVar? t u).isSome) = true
  · rw [if_pos hg] at h
    exact absurd h (by simp)
  rw [if_neg hg] at h
  simp only [Bool.or_eq_true, not_or, Bool.not_eq_true, Option.isSome_eq_false_iff,
    Option.isNone_iff_eq_none] at hg
  obtain ⟨⟨hgt, hgu⟩, hx⟩ := hg
  refine ⟨⟨hgt, hgu, hx⟩, fun ht => ?_, fun ht hu => ?_, fun ht hu => ?_⟩
  · rw [if_pos ht] at h
    exact (Option.some.inj h).symm
  · rw [ht, if_neg Bool.false_ne_true, if_pos hu] at h
    exact (Option.some.inj h).symm
  · rw [ht, if_neg Bool.false_ne_true, hu, if_neg Bool.false_ne_true] at h
    cases hp : c.premises t u with
    | nil =>
      rw [hp] at h
      exact absurd h (by simp)
    | cons o rest =>
      rw [hp] at h
      exact ⟨rest, congrArg (· :: rest) h⟩

/-- pairs that are not known again by each other, and whose comparison goes on with one of them,
have no end -/
theorem exhausted_of_trap (trap : List (Ty × Ty))
    (hnew : ∀ p ∈ trap, ∀ q ∈ trap, ¬ (p.1.alphaEq q.1 = true ∧ p.2.alphaEq q.2 = true))
    (hnext : ∀ p ∈ trap, ∃ q ∈ trap, c.first? p.1 p.2 = some q) (n : Nat) {seen : Assumptions}
    (hs : ∀ p ∈ seen, p ∈ trap) {t u : Ty} (h : (t, u) ∈ trap) :
    (c.holdsWithin n seen t u).outcome = .exhausted := by
  induction n generalizing seen t u with
  | zero => rfl
  | succ n ih =>
    have hs' : ∀ p ∈ (t, u) :: seen, p ∈ trap := List.forall_mem_cons.mpr ⟨h, hs⟩
    obtain ⟨q, hq, hfirst⟩ := hnext (t, u) h
    obtain ⟨⟨hgt, hgu, hx⟩, hleft, hright, hheads⟩ := first?_cases hfirst
    cases c.ends n seen t u with
    | assumed hc _ =>
      obtain ⟨p, hp, ha⟩ := Assumptions.cover_iff.mp hc
      exact absurd ha (hnew p (hs p hp) (t, u) h)
    | unguarded _ hg _ => exact absurd (hgt.symm.trans hg) Bool.false_ne_true
    | turnLeft _ ht _ ho =>
      rw [ho]
      exact ih hs' (hleft ht ▸ hq)
    | onlyRightUnguarded _ _ hg _ => exact absurd (hgu.symm.trans hg) Bool.false_ne_true
    | turnRight _ ht hu _ ho =>
      rw [ho]
      exact ih hs' (hright ht hu ▸ hq)
    | openHead _ _ _ hx' _ => exact absurd (hx.symm.trans hx') (by simp)
    | heads _ ht hu _ ho =>
      obtain ⟨rest, hp⟩ := hheads ht hu
      rw [ho, hp, allHold, Run.outcome_bind, ih hs hq, Outcome.exhausted_bind]

end Comparison

namespace Ty

/-- each object has a second property of the name of its first, of another shape -/
def repeating : Ty :=
  mu "a" (object [("y", var "a"), ("y", mu "b" (object [("y", var "a"), ("y", var "b")]))])

/-- `Ty.validate` accepts the type, and no budget is enough to compare it with itself -/
theorem repeating_exhausts :
    repeating.validate = .ok () ∧ ∀ (c : Comparison) (n : Nat),
      (c.holdsWithin n [] repeating repeating).outcome = .exhausted := by
  refine ⟨by decide, fun c n => ?_⟩
  refine Comparison.exhausted_of_trap
    [(repeating, repeating), (repeating.headForm, repeating),
      (repeating.headForm, repeating.headForm)] ?_ ?_ n
    (fun _ h => absurd h List.not_mem_nil) (List.mem_cons_self ..)
  · decide
  · cases c <;> decide

/-- accepted types are compared within the budget if their objects below a `mu` agree with
themselves, and a larger budget makes no difference -/
theorem accepted_ends {t u : Ty} (ht : t.validate = .ok ()) (hu : u.validate = .ok ())
    (htr : t.RecognizableLoops) (hur : u.RecognizableLoops) :
    (∃ answer, (t.equal u).outcome = .ok answer) ∧
    (∃ answer, (t.subtype u).outcome = .ok answer) ∧
    ∀ (c : Comparison) (n : Nat), Comparison.budget t u ≤ n →
      c.holdsWithin n [] t u = c.holds t u := by
  rw [validate_eq_ok_iff] at ht hu
  have hanswer : ∀ c : Comparison, ∃ answer, (c.holds t u).outcome = .ok answer := by
    intro c
    rw [Comparison.holds_of_closed ht hu]
    cases h : (c.holdsWithin (Comparison.budget t u) [] t u).outcome with
    | ok answer => exact ⟨answer, rfl⟩
    | error e => exact absurd h (Comparison.run_of_closed ht hu e)
    | exhausted => exact absurd h (Comparison.ends_of_closed ht hu htr hur [])
  exact ⟨hanswer .equality, hanswer .subtyping,
    fun c n hn => Comparison.holdsWithin_eq_holds ht hu htr hur hn⟩

/-- names that repeat outside of every `mu`, and in it with the same type -/
theorem repeated_names_end :
    (object [("y", number), ("y", boolean), ("z", mu "a" (object [("y", var "a"),
      ("y", var "a")]))]).validate = .ok () ∧
    ∃ answer, ((object [("y", number), ("y", boolean), ("z", mu "a" (object [("y", var "a"),
      ("y", var "a")]))]).equal (mu "a" (func [("y", var "a")] number))).outcome = .ok answer :=
  ⟨by decide, (accepted_ends (by decide) (by decide) (by decide) (by decide)).1⟩

end Ty

end Equirec
