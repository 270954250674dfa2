import Equirec.Run
import Equirec.Ty.Head
import Equirec.Ty.Alpha
import Equirec.Ty.Scope

/-!
# Equality and subtyping

Two types are equal if they unfold to the same tree.  The first is a subtype of the second if its
values may stand where the second is expected: functions turn the order of their parameters
around, objects may have properties to spare.  Both are decided in the same way: a `mu` is unfolded
to its head form while the pair in question is taken for granted, so that coming back to the pair,
up to the names of binders, ends the comparison.

* `Comparison`              equality or subtyping
* `Comparison.premises`     what two head forms ask of their parts
* `Comparison.holdsWithin`  the comparison under assumptions, within a budget of nested steps
* `Comparison.holds`        the comparison under no assumption, within `Comparison.budget`, or
                            within `Comparison.reserve` if types with free variables need it
* `Ty.equal`, `Ty.subtype`  the two comparisons

A type without a head form is related to the types without a head form and to no other.  A free
variable has no meaning, so a comparison that comes to one fails.
-/

namespace Equirec

/-! ## head forms in a run -/

namespace Ty

/-- the head form; a type that has none leaves an event -/
def normalize (t : Ty) : Run Ty := do
  let h := t.headForm
  if h.isMu then
    Run.log [.unguarded h]
  pure h

/-- as `Ty.isUnguarded`, with the event of `Ty.normalize` -/
def askUnguarded (t : Ty) : Run Bool := do
  let h ← t.normalize
  pure h.isMu

theorem outcome_normalize (t : Ty) : t.normalize.outcome = .ok t.headForm := by
  unfold normalize
  cases h : t.headForm.isMu <;> simp [h]

theorem outcome_askUnguarded (t : Ty) : t.askUnguarded.outcome = .ok t.isUnguarded := by
  simp [askUnguarded, outcome_normalize, isUnguarded]

end Ty

/-! ## assumptions -/

/-- pairs of types that are taken to be related, the latest first -/
abbrev Assumptions := List (Ty × Ty)

/-- whether a pair is assumed, up to the names of binders -/
def Assumptions.cover (seen : Assumptions) (t u : Ty) : Bool :=
  seen.any fun a => a.1.alphaEq t && a.2.alphaEq u

inductive Comparison where
  | equality
  | subtyping
  deriving DecidableEq

namespace Comparison

/-! ## one step -/

/-- the event of a pair that is assumed -/
def assumedEvent : Comparison → Ty → Ty → Event
  | equality, t, u => .assumedEqual t u
  | subtyping, t, u => .assumedSubtype t u

/-- the events of an unfolding: subtyping passes over it in silence -/
def unfoldedEvents : Comparison → Ty → Ty → List Event
  | equality, t, h => [.unfolded t h]
  | subtyping, _, _ => []

/-- the parameters `t` on the left and `u` on the right, in the order in which they have to be
related -/
def paramPair : Comparison → Ty → Ty → Ty × Ty
  | equality, t, u => (t, u)
  | subtyping, t, u => (u, t)

/-- the pairs of parts that have to be related for two head forms to be related, in the order in
which they are looked at; `none` is a part without a counterpart, or shapes that do not agree -/
def premises : Comparison → Ty → Ty → List (Option (Ty × Ty))
  | _, .boolean, .boolean => []
  | _, .number, .number => []
  | c, .func ps r, .func qs s =>
    if ps.length = qs.length then
      (ps.zip qs).map (fun p => some (c.paramPair p.1.2 p.2.2)) ++ [some (r, s)]
    else [none]
  | equality, .object ps, .object qs =>
    if ps.length = qs.length then
      ps.map fun p => (qs.lookup p.1).map fun u => (p.2, u)
    else [none]
  | subtyping, .object ps, .object qs => qs.map fun q => (ps.lookup q.1).map fun t => (t, q.2)
  | _, _, _ => [none]

/-- a variable at the head of one of two types, the left one first -/
def headVar? : Ty → Ty → Option Name
  | .var x, _ => some x
  | _, .var x => some x
  | _, _ => none

/-- premises are met one after the other, up to the first that is not -/
def allHold (related : Ty → Ty → Run Bool) : List (Option (Ty × Ty)) → Run Bool
  | [] => pure true
  | none :: _ => pure false
  | some (t, u) :: rest => do
    if ← related t u then allHold related rest else pure false

/-- one step of a comparison of a pair that is not assumed, `next` being the comparison of what it
leads to -/
def step (c : Comparison) (next : Assumptions → Ty → Ty → Run Bool) (seen : Assumptions)
    (t u : Ty) : Run Bool := do
  if t.isMu then
    let h ← t.normalize
    if h.isMu then
      u.askUnguarded
    else
      Run.log (c.unfoldedEvents t h)
      next ((t, u) :: seen) h u
  else if u.isMu then
    let h ← u.normalize
    if h.isMu then
      pure false
    else
      Run.log (c.unfoldedEvents u h)
      next ((t, u) :: seen) t h
  else
    match headVar? t u with
    | some x => Run.fail (.unboundTypeVariable x)
    | none => allHold (next seen) (c.premises t u)

/-! ## the whole comparison -/

/-- the comparison under assumptions, with at most so many steps inside each other -/
def holdsWithin (c : Comparison) : Nat → Assumptions → Ty → Ty → Run Bool
  | 0, _, _, _ => Run.giveUp
  | n + 1, seen, t, u =>
    if seen.cover t u then do
      Run.log [c.assumedEvent t u]
      pure true
    else
      c.step (c.holdsWithin n) seen t u

/-- a number of nested steps for two types.  A type of `n` nodes leads to at most `n` different
types as long as no `mu` catches a free variable.  A nested step that unfolds is a new pair of such
types, and between two of them the types get smaller. -/
def budget (t u : Ty) : Nat :=
  (t.size + u.size + 2).pow (3 * ((Name.distinct (t.freeVars ++ u.freeVars)).length + 1))

/-- a bound on the types that a type of `n` nodes leads to if at most `k` of its free variables are
caught: at most `n` types until one of them is caught, and from each of these, which has at most
`n ^ n` nodes, it goes on with a variable less -/
def typesWithin : Nat → Nat → Nat
  | 0, n => n
  | k + 1, n => n + n * typesWithin k (n.pow n)

/-- a number of nested steps for two types with free variables, whatever is caught -/
def reserve (t u : Ty) : Nat :=
  (2 * typesWithin (Name.distinct (t.freeVars ++ u.freeVars)).length (t.size + u.size) + 2).pow 3

/-- the comparison under no assumption.  In closed types nothing is caught, and the budget is all
there is.  The reserve is far too large a number to be computed without need. -/
def holds (c : Comparison) (t u : Ty) : Run Bool :=
  let run := c.holdsWithin (budget t u) [] t u
  if run.outcome = .exhausted ∧ ¬ (t.Closed ∧ u.Closed) then
    c.holdsWithin (reserve t u) [] t u
  else
    run

theorem holdsWithin_zero (c : Comparison) (seen : Assumptions) (t u : Ty) :
    c.holdsWithin 0 seen t u = Run.giveUp := rfl

theorem holdsWithin_succ (c : Comparison) (n : Nat) (seen : Assumptions) (t u : Ty) :
    c.holdsWithin (n + 1) seen t u =
      if seen.cover t u then (do Run.log [c.assumedEvent t u]; pure true)
      else c.step (c.holdsWithin n) seen t u := rfl

theorem holds_of_closed {c : Comparison} {t u : Ty} (ht : t.Closed) (hu : u.Closed) :
    c.holds t u = c.holdsWithin (budget t u) [] t u :=
  if_neg fun h => h.2 ⟨ht, hu⟩

/-- it is the comparison within some number of nested steps -/
theorem exists_holds_eq (c : Comparison) (t u : Ty) :
    ∃ n, c.holds t u = c.holdsWithin n [] t u := by
  unfold holds
  by_cases h : (c.holdsWithin (budget t u) [] t u).outcome = .exhausted ∧ ¬ (t.Closed ∧ u.Closed)
  · exact ⟨reserve t u, if_pos h⟩
  · exact ⟨budget t u, if_neg h⟩

end Comparison

namespace Ty

/-- whether two types are the same type -/
def equal (t u : Ty) : Run Bool := Comparison.equality.holds t u

/-- whether a value of the first type may stand where the second is expected -/
def subtype (t u : Ty) : Run Bool := Comparison.subtyping.holds t u

end Ty

end Equirec
