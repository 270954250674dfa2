import Equirec.Proofs.Comparison.Answer
import Equirec.Proofs.Comparison.Budget

/-!
# The comparisons decide what they mean

* `Comparison.holds_decides`   on well-formed types a comparison answers, and the answer is right
* `Comparison.holds_iff`       it answers `true` to related types
* `Ty.equal_decides`           equality answers whether two types have the same tree
* `Ty.subtype_decides`         subtyping answers whether their trees are subtypes

The trees are those that single unfoldings come to, by `Ty.readsUnfoldings_iff`.
-/

namespace Equirec

/-- an answer within the budget, under assumptions that are right -/
theorem Comparison.decides_under {c : Comparison} {seen : Assumptions} {t u : Ty}
    (ht : t.WellFormed) (hu : u.WellFormed)
    (hs : ∀ p ∈ seen, p.1.WellFormed ∧ p.2.WellFormed ∧ c.Related p.1 p.2) :
    ∃ answer, (c.holdsWithin (budget t u) seen t u).outcome = .ok answer ∧
      (answer = true ↔ c.Related t u) := by
  cases h : (c.holdsWithin (budget t u) seen t u).outcome with
  | ok answer =>
    refine ⟨answer, rfl, fun ha => related_of_run ht hu hs (ha ▸ h), fun hr => ?_⟩
    cases answer with
    | true => rfl
    | false => exact absurd h (run_of_related ht hu hr)
  | error e => exact absurd h (run_of_closed ht.closed hu.closed e)
  | exhausted =>
    exact absurd h (ends_of_closed ht.closed hu.closed ht.distinct.recognizable.loops
      hu.distinct.recognizable.loops seen)

theorem Comparison.holds_decides {c : Comparison} {t u : Ty} (ht : t.WellFormed)
    (hu : u.WellFormed) :
    ∃ answer, (c.holds t u).outcome = .ok answer ∧ (answer = true ↔ c.Related t u) := by
  rw [holds_of_closed ht.closed hu.closed]
  exact decides_under ht hu fun _ h => absurd h List.not_mem_nil

theorem Comparison.holds_iff {c : Comparison} {t u : Ty} (ht : t.WellFormed)
    (hu : u.WellFormed) : (c.holds t u).outcome = .ok true ↔ c.Related t u := by
  obtain ⟨answer, hrun, h⟩ := holds_decides (c := c) ht hu
  rw [hrun, Outcome.ok.injEq, h]

namespace Ty

theorem equal_iff {t u : Ty} (ht : t.WellFormed) (hu : u.WellFormed) :
    (t.equal u).outcome = .ok true ↔ t.tree = u.tree :=
  Comparison.holds_iff ht hu

theorem subtype_iff {t u : Ty} (ht : t.WellFormed) (hu : u.WellFormed) :
    (t.subtype u).outcome = .ok true ↔ Comparison.subtyping.Related t u :=
  Comparison.holds_iff ht hu

/-- on well-formed types equality ends, does not fail, and answers whether the types unfold to the
same tree -/
theorem equal_decides {t u : Ty} (ht : t.WellFormed) (hu : u.WellFormed) :
    ∃ answer, (t.equal u).outcome = .ok answer ∧ (answer = true ↔ t.tree = u.tree) :=
  Comparison.holds_decides ht hu

/-- a stream whose heads have no head form, and the same stream two turns at a time, with other
binders and the properties the other way around -/
theorem equal_streams :
    (mu "a" (object [("head", mu "a" (var "a")), ("tail", var "a")])).tree =
      (mu "b" (object [("tail", object [("head", mu "c" (mu "d" (var "c"))), ("tail", var "b")]),
        ("head", mu "c" (var "c"))])).tree := by
  obtain ⟨answer, hrun, h⟩ := equal_decides
    (t := mu "a" (object [("head", mu "a" (var "a")), ("tail", var "a")]))
    (u := mu "b" (object [("tail", object [("head", mu "c" (mu "d" (var "c"))),
      ("tail", var "b")]), ("head", mu "c" (var "c"))])) (by decide) (by decide)
  refine h.mp (Outcome.ok.inj (hrun.symm.trans ?_))
  decide

/-- on well-formed types subtyping ends, does not fail, and answers whether their trees are
subtypes, node by node -/
theorem subtype_decides {t u : Ty} (ht : t.WellFormed) (hu : u.WellFormed) :
    ∃ answer, (t.subtype u).outcome = .ok answer ∧
      (answer = true ↔ Tree.Sub t.tree u.tree) :=
  Comparison.holds_decides ht hu

/-- consumers of all streams are consumers of labelled streams, and not the other way around -/
theorem subtype_consumers :
    Tree.Sub (func [("x", mu "b" (object [("tail", var "b")]))] boolean).tree
        (func [("y", mu "a" (object [("label", number), ("tail", var "a")]))] boolean).tree ∧
      ¬ Tree.Sub (func [("y", mu "a" (object [("label", number), ("tail", var "a")]))] boolean).tree
        (func [("x", mu "b" (object [("tail", var "b")]))] boolean).tree := by
  constructor
  · obtain ⟨answer, hrun, h⟩ := subtype_decides
      (t := func [("x", mu "b" (object [("tail", var "b")]))] boolean)
      (u := func [("y", mu "a" (object [("label", number), ("tail", var "a")]))] boolean)
      (by decide) (by decide)
    refine h.mp (Outcome.ok.inj (hrun.symm.trans ?_))
    decide
  · obtain ⟨answer, hrun, h⟩ := subtype_decides
      (t := func [("y", mu "a" (object [("label", number), ("tail", var "a")]))] boolean)
      (u := func [("x", mu "b" (object [("tail", var "b")]))] boolean) (by decide) (by decide)
    have hfalse : answer = false := Outcome.ok.inj (hrun.symm.trans (by decide))
    rw [← h, hfalse]
    exact Bool.false_ne_true

end Ty

end Equirec
