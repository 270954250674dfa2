import Equirec.Comparison
import Equirec.Proofs.Run
import Equirec.Proofs.Ty.Anonymous

/-!
# Comparisons without the names of parameters

A comparison of two types and the comparison of the anonymous types go through the same steps: the
pairs that are assumed are matched up to the names of binders, which does not look at parameters,
and the premises of anonymous heads are the anonymous premises.

* `Assumptions.anonymous`    assumptions about anonymous types
* `Comparison.premises_anonymous`
                             what anonymous head forms ask of their parts
* `Comparison.outcome_step_anonymous`
                             one step, if what it leads to ends in the same way
* `Comparison.outcome_holdsWithin_anonymous`
                             any number of nested steps
* `Comparison.outcome_holds_of_upToParams`
                             types that differ in names of parameters only are compared alike
-/

namespace Equirec

/-! ## assumptions -/

/-- assumptions about the types without the names of parameters -/
def Assumptions.anonymous (seen : Assumptions) : Assumptions :=
  seen.map fun a => (a.1.anonymous, a.2.anonymous)

theorem Assumptions.cover_anonymous (seen : Assumptions) (t u : Ty) :
    seen.anonymous.cover t.anonymous u.anonymous = seen.cover t u := by
  rw [cover, cover, anonymous, List.any_map]
  refine congrArg seen.any (funext fun a => ?_)
  exact congrArg₂ and (Ty.alphaEq_anonymous a.1 t) (Ty.alphaEq_anonymous a.2 u)

namespace Comparison

/-! ## premises -/

/-- a premise about the types without the names of parameters -/
def anonymousPremise (o : Option (Ty × Ty)) : Option (Ty × Ty) :=
  o.map fun p => (p.1.anonymous, p.2.anonymous)

theorem headVar?_anonymous (t u : Ty) : headVar? t.anonymous u.anonymous = headVar? t u := by
  cases t with
  | var x => rfl
  | _ => cases u <;> rfl

theorem paramPair_anonymous (c : Comparison) (t u : Ty) :
    c.paramPair t.anonymous u.anonymous =
      ((c.paramPair t u).1.anonymous, (c.paramPair t u).2.anonymous) := by
  cases c <;> rfl

theorem premises_func_anonymous (c : Comparison) (ps qs : Row) (r s : Ty) :
    c.premises (Ty.func ps r).anonymous (Ty.func qs s).anonymous =
      (c.premises (.func ps r) (.func qs s)).map anonymousPremise := by
  show (if (Ty.anonymousRow _ ps).length = (Ty.anonymousRow _ qs).length then _ else [none]) =
    List.map _ (if ps.length = qs.length then _ else [none])
  rw [Ty.length_anonymousRow, Ty.length_anonymousRow]
  by_cases hlen : ps.length = qs.length
  · rw [if_pos hlen, if_pos hlen, Ty.anonymousRow_eq_map, Ty.anonymousRow_eq_map, List.zip_map,
      List.map_append, List.map_map, List.map_map]
    refine congrArg₂ (· ++ ·) (List.map_congr_left fun p _ => ?_) rfl
    exact congrArg some (c.paramPair_anonymous p.1.2 p.2.2)
  · rw [if_neg hlen, if_neg hlen]
    rfl

theorem premises_object_anonymous (c : Comparison) (ps qs : Row) :
    c.premises (Ty.object ps).anonymous (Ty.object qs).anonymous =
      (c.premises (.object ps) (.object qs)).map anonymousPremise := by
  cases c with
  | equality =>
    show (if (Ty.anonymousRow id ps).length = (Ty.anonymousRow id qs).length then _ else [none]) =
      List.map _ (if ps.length = qs.length then _ else [none])
    rw [Ty.length_anonymousRow, Ty.length_anonymousRow]
    by_cases hlen : ps.length = qs.length
    · rw [if_pos hlen, if_pos hlen, Ty.anonymousRow_eq_map id ps, List.map_map, List.map_map]
      refine List.map_congr_left fun p _ => ?_
      show ((Ty.anonymousRow id qs).lookup p.1).map _ = anonymousPremise ((qs.lookup p.1).map _)
      rw [Ty.lookup_anonymousRow, anonymousPremise, Option.map_map, Option.map_map]
      rfl
    · rw [if_neg hlen, if_neg hlen]
      rfl
  | subtyping =>
    show (Ty.anonymousRow id qs).map _ = List.map _ (List.map _ qs)
    rw [Ty.anonymousRow_eq_map id qs, List.map_map, List.map_map]
    refine List.map_congr_left fun q _ => ?_
    show ((Ty.anonymousRow id ps).lookup q.1).map _ = anonymousPremise ((ps.lookup q.1).map _)
    rw [Ty.lookup_anonymousRow, anonymousPremise, Option.map_map, Option.map_map]
    rfl

theorem premises_anonymous (c : Comparison) (t u : Ty) :
    c.premises t.anonymous u.anonymous = (c.premises t u).map anonymousPremise := by
  cases t with
  | func ps r =>
    cases u with
    | func qs s => exact c.premises_func_anonymous ps qs r s
    | _ => cases c <;> rfl
  | object ps =>
    cases u with
    | object qs => exact c.premises_object_anonymous ps qs
    | _ => cases c <;> rfl
  | _ => cases u <;> cases c <;> rfl

/-! ## steps -/

section
variable {c : Comparison} {next next' : Assumptions → Ty → Ty → Run Bool}

theorem outcome_allHold_anonymous {related related' : Ty → Ty → Run Bool}
    (h : ∀ t u, (related' t.anonymous u.anonymous).outcome = (related t u).outcome)
    (premises : List (Option (Ty × Ty))) :
    (allHold related' (premises.map anonymousPremise)).outcome =
      (allHold related premises).outcome := by
  induction premises with
  | nil => rfl
  | cons o premises ih =>
    cases o with
    | none => rfl
    | some p =>
      obtain ⟨t, u⟩ := p
      refine Run.outcome_bind_congr (h t u) fun b _ => ?_
      cases b with
      | true => exact ih
      | false => rfl

theorem matches_normalize_anonymous (t : Ty) :
    t.anonymous.normalize.Matches (fun h' h => h' = h.anonymous) Eq True t.normalize := by
  rw [Run.Matches, Ty.outcome_normalize, Ty.outcome_normalize]
  exact .ok (Ty.headForm_anonymous t)

theorem outcome_askUnguarded_anonymous (t : Ty) :
    t.anonymous.askUnguarded.outcome = t.askUnguarded.outcome := by
  rw [Ty.outcome_askUnguarded, Ty.outcome_askUnguarded, Ty.isUnguarded_anonymous]

/-- one step leads to anonymous types where the other leads to the types -/
theorem outcome_step_anonymous
    (h : ∀ (seen : Assumptions) (t u : Ty),
      (next' seen.anonymous t.anonymous u.anonymous).outcome = (next seen t u).outcome)
    (seen : Assumptions) (t u : Ty) :
    (c.step next' seen.anonymous t.anonymous u.anonymous).outcome =
      (c.step next seen t u).outcome := by
  have hmu : ∀ v : Ty, v.anonymous.isMu = true ↔ v.isMu = true := fun v => by
    rw [Ty.isMu_anonymous]
  refine Run.Matches.outcome_eq (E := True) ?_
  refine .ite (hmu t) (fun _ => ?_) fun _ => .ite (hmu u) (fun _ => ?_) fun _ => ?_
  · refine (matches_normalize_anonymous t).bind fun a b hab => ?_
    subst hab
    refine .ite (hmu b) (fun _ => .of_outcome_eq (outcome_askUnguarded_anonymous u)) fun _ => ?_
    exact (Run.Matches.log _ _).bind fun _ _ _ => .of_outcome_eq (h ((t, u) :: seen) b u)
  · refine (matches_normalize_anonymous u).bind fun a b hab => ?_
    subst hab
    refine .ite (hmu b) (fun _ => .pure rfl) fun _ => ?_
    exact (Run.Matches.log _ _).bind fun _ _ _ => .of_outcome_eq (h ((t, u) :: seen) t b)
  · rw [headVar?_anonymous, premises_anonymous]
    cases headVar? t u with
    | some x => exact .fail rfl
    | none => exact .of_outcome_eq (outcome_allHold_anonymous (h seen) _)

end

/-! ## whole comparisons -/

theorem outcome_holdsWithin_anonymous (c : Comparison) (n : Nat) (seen : Assumptions) (t u : Ty) :
    (c.holdsWithin n seen.anonymous t.anonymous u.anonymous).outcome =
      (c.holdsWithin n seen t u).outcome := by
  induction n generalizing seen t u with
  | zero => rfl
  | succ n ih =>
    rw [holdsWithin_succ, holdsWithin_succ, Assumptions.cover_anonymous]
    cases seen.cover t u with
    | true => rfl
    | false => exact outcome_step_anonymous ih seen t u

theorem budget_anonymous (t u : Ty) : budget t.anonymous u.anonymous = budget t u := by
  rw [budget, budget, Ty.size_anonymous, Ty.size_anonymous, Ty.freeVars_anonymous,
    Ty.freeVars_anonymous]

theorem reserve_anonymous (t u : Ty) : reserve t.anonymous u.anonymous = reserve t u := by
  rw [reserve, reserve, Ty.size_anonymous, Ty.size_anonymous, Ty.freeVars_anonymous,
    Ty.freeVars_anonymous]

theorem outcome_holds_anonymous (c : Comparison) (t u : Ty) :
    (c.holds t.anonymous u.anonymous).outcome = (c.holds t u).outcome := by
  have hwithin : ∀ n, (c.holdsWithin n [] t.anonymous u.anonymous).outcome =
      (c.holdsWithin n [] t u).outcome := fun n => c.outcome_holdsWithin_anonymous n [] t u
  have hclosed : (t.anonymous.Closed ∧ u.anonymous.Closed) ↔ (t.Closed ∧ u.Closed) :=
    and_congr Ty.closed_anonymous Ty.closed_anonymous
  rw [holds, holds, budget_anonymous, reserve_anonymous]
  refine Run.Matches.outcome_eq (E := True) (.ite ?_ (fun _ => ?_) fun _ => ?_)
  · rw [hwithin, hclosed]
  · exact .of_outcome_eq (hwithin _)
  · exact .of_outcome_eq (hwithin _)

section
variable {t u t' u' : Ty}

theorem outcome_holds_of_upToParams (c : Comparison) (ht : t.UpToParams t')
    (hu : u.UpToParams u') : (c.holds t u).outcome = (c.holds t' u').outcome := by
  rw [← outcome_holds_anonymous c t, ht, hu, outcome_holds_anonymous]

theorem outcome_holdsWithin_of_upToParams (c : Comparison) (n : Nat) (ht : t.UpToParams t')
    (hu : u.UpToParams u') :
    (c.holdsWithin n [] t u).outcome = (c.holdsWithin n [] t' u').outcome := by
  rw [← c.outcome_holdsWithin_anonymous n [] t, ht, hu]
  exact c.outcome_holdsWithin_anonymous n [] t' u'

end

end Comparison

end Equirec
