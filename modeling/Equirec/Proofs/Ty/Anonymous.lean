import Mathlib.Data.List.Forall2
import Equirec.Proofs.Ty.Turns
import Equirec.Proofs.Ty.Alpha

/-!
# Types without the names of parameters

The parameters of a function type have names for its messages only.  With one and the same name for
all of them, a type has the same variables and binders in the same places, so it is unfolded in the
same turns, and the turns come to an end at the same time: a type that comes up again in the course
of its unfolding is a chain of binders in front of a variable and has no parameters.

* `Ty.anonymous`            the type with the empty name for every parameter at any depth
* `Ty.UpToParams`           the types differ in names of parameters only
* `Ty.upToParams_func_iff`, `Ty.upToParams_object_iff`
                            the parameters are related one by one, the properties name by name
* `Ty.anonymous_subst`, `Ty.anonymous_unfold`
                            what is put in loses its names, too
* `Ty.headForm_anonymous`   the head form of an anonymous type is the anonymous head form
* `Ty.alphaEq_anonymous`    names of parameters do not count for types up to the names of binders
-/

namespace Equirec.Ty

/-! ## names of parameters -/

mutual
/-- the type with the empty name for each parameter -/
def anonymous : Ty → Ty
  | boolean => boolean
  | number => number
  | func ps r => func (anonymousRow (fun _ => "") ps) r.anonymous
  | object ps => object (anonymousRow id ps)
  | var x => var x
  | mu x b => mu x b.anonymous
/-- a row of anonymous types, with new labels for its names -/
def anonymousRow : (Name → Name) → Row → Row
  | _, [] => []
  | label, (x, t) :: ps => (label x, t.anonymous) :: anonymousRow label ps
end

/-- the types differ in names of parameters only -/
def UpToParams (t u : Ty) : Prop := t.anonymous = u.anonymous

instance (t u : Ty) : Decidable (t.UpToParams u) := inferInstanceAs (Decidable (_ = _))

/-! ## rows -/

theorem anonymousRow_eq_map (label : Name → Name) (ps : Row) :
    anonymousRow label ps = ps.map fun p => (label p.1, p.2.anonymous) := by
  induction ps with
  | nil => rfl
  | cons p ps ih =>
    rw [List.map_cons, ← ih]
    rfl

theorem length_anonymousRow (label : Name → Name) (ps : Row) :
    (anonymousRow label ps).length = ps.length := by
  rw [anonymousRow_eq_map, List.length_map]

theorem lookup_anonymousRow (ps : Row) (x : Name) :
    (anonymousRow id ps).lookup x = (ps.lookup x).map anonymous := by
  induction ps with
  | nil => rfl
  | cons p ps ih =>
    obtain ⟨y, t⟩ := p
    show List.lookup x ((y, t.anonymous) :: anonymousRow id ps) = _
    rw [lookup_cons_ite, lookup_cons_ite, ih]
    split <;> rfl

theorem upToParams_func_iff {ps qs : Row} {r s : Ty} :
    (func ps r).UpToParams (func qs s) ↔
      List.Forall₂ (fun p q => p.2.UpToParams q.2) ps qs ∧ r.UpToParams s := by
  show func (anonymousRow (fun _ => "") ps) r.anonymous =
    func (anonymousRow (fun _ => "") qs) s.anonymous ↔ _
  rw [func.injEq]
  refine and_congr_left' ?_
  rw [anonymousRow_eq_map, anonymousRow_eq_map, ← List.forall₂_eq_eq_eq, List.forall₂_map_left_iff,
    List.forall₂_map_right_iff]
  simp only [Prod.mk.injEq, true_and]
  exact Iff.rfl

theorem upToParams_object_iff {ps qs : Row} :
    (object ps).UpToParams (object qs) ↔
      List.Forall₂ (fun p q => p.1 = q.1 ∧ p.2.UpToParams q.2) ps qs := by
  show object (anonymousRow id ps) = object (anonymousRow id qs) ↔ _
  rw [object.injEq, anonymousRow_eq_map, anonymousRow_eq_map, ← List.forall₂_eq_eq_eq,
    List.forall₂_map_left_iff, List.forall₂_map_right_iff]
  simp only [Prod.mk.injEq, id]
  exact Iff.rfl

/-! ## shape -/

theorem isMu_anonymous (t : Ty) : t.anonymous.isMu = t.isMu := by
  cases t <;> rfl

theorem binders_anonymous (t : Ty) : t.anonymous.binders = t.binders := by
  induction t with
  | mu x b ih => exact congrArg (· + 1) ih
  | _ => rfl

theorem spins_anonymous (bound : List Name) (t : Ty) : spins bound t.anonymous = spins bound t := by
  induction t generalizing bound with
  | mu x b ih => exact ih (x :: bound)
  | _ => rfl

theorem sizeRow_anonymousRow (label : Name → Name) {ps : Row}
    (h : ∀ p ∈ ps, p.2.anonymous.size = p.2.size) :
    sizeRow (anonymousRow label ps) = sizeRow ps := by
  induction ps with
  | nil => rfl
  | cons p ps ih =>
    obtain ⟨hp, hps⟩ := List.forall_mem_cons.mp h
    exact congrArg₂ (· + ·) hp (ih hps)

theorem size_anonymous (t : Ty) : t.anonymous.size = t.size := by
  induction t with
  | func ps r hps hr =>
    show sizeRow (anonymousRow _ ps) + r.anonymous.size + 1 = sizeRow ps + r.size + 1
    rw [sizeRow_anonymousRow _ hps, hr]
  | object ps hps => exact congrArg (· + 1) (sizeRow_anonymousRow id hps)
  | mu x b hb => exact congrArg (· + 1) hb
  | _ => rfl

/-! ## free variables -/

theorem freeVarsRow_anonymousRow (label : Name → Name) {ps : Row}
    (h : ∀ p ∈ ps, p.2.anonymous.freeVars = p.2.freeVars) :
    freeVarsRow (anonymousRow label ps) = freeVarsRow ps := by
  induction ps with
  | nil => rfl
  | cons p ps ih =>
    obtain ⟨hp, hps⟩ := List.forall_mem_cons.mp h
    exact congrArg₂ (· ++ ·) hp (ih hps)

theorem freeVars_anonymous (t : Ty) : t.anonymous.freeVars = t.freeVars := by
  induction t with
  | func ps r hps hr => exact congrArg₂ (· ++ ·) (freeVarsRow_anonymousRow _ hps) hr
  | object ps hps => exact freeVarsRow_anonymousRow id hps
  | mu x b hb => exact congrArg (List.filter (· != x)) hb
  | _ => rfl

theorem closed_anonymous {t : Ty} : t.anonymous.Closed ↔ t.Closed := by
  rw [Closed, Closed, freeVars_anonymous]

theorem validate_anonymous (t : Ty) : t.anonymous.validate = t.validate := by
  rw [validate, validate, firstFree_eq_find?, firstFree_eq_find?, freeVars_anonymous]

/-! ## substitution and unfolding -/

theorem anonymousRow_substRow (label : Name → Name) {ps : Row} {x : Name} {s : Ty}
    (h : ∀ p ∈ ps, (p.2.subst x s).anonymous = p.2.anonymous.subst x s.anonymous) :
    anonymousRow label (substRow ps x s) = substRow (anonymousRow label ps) x s.anonymous := by
  rw [substRow_eq_map, substRow_eq_map, anonymousRow_eq_map, anonymousRow_eq_map, List.map_map,
    List.map_map]
  exact List.map_congr_left fun p hp => congrArg (Prod.mk (label p.1)) (h p hp)

theorem anonymous_subst (t : Ty) (x : Name) (s : Ty) :
    (t.subst x s).anonymous = t.anonymous.subst x s.anonymous := by
  induction t with
  | func ps r hps hr => exact congrArg₂ func (anonymousRow_substRow _ hps) hr
  | object ps hps => exact congrArg object (anonymousRow_substRow id hps)
  | var y =>
    by_cases e : y = x
    · rw [e]
      show ((var x).subst x s).anonymous = (var x).subst x s.anonymous
      rw [subst_var_self, subst_var_self]
    · show ((var y).subst x s).anonymous = (var y).subst x s.anonymous
      rw [subst_var_of_ne e, subst_var_of_ne e]
      rfl
  | mu y b hb =>
    show ((mu y b).subst x s).anonymous = (mu y b.anonymous).subst x s.anonymous
    by_cases e : y = x
    · rw [e, subst_mu_self, subst_mu_self]
      rfl
    · rw [subst_mu_of_ne e, subst_mu_of_ne e, ← hb]
      rfl
  | _ => rfl

theorem anonymous_unfold (t : Ty) : t.unfold.anonymous = t.anonymous.unfold := by
  cases t with
  | mu x b => exact anonymous_subst b x (mu x b)
  | _ => rfl

theorem anonymous_iterate_unfold (n : Nat) (t : Ty) :
    (unfold^[n] t).anonymous = unfold^[n] t.anonymous :=
  Function.Semiconj.iterate_right anonymous_unfold n t

/-! ## head forms -/

theorem anonymous_chain_var (names : List Name) (x : Name) :
    (chain names (var x)).anonymous = chain names (var x) := by
  induction names with
  | nil => rfl
  | cons y names ih => exact congrArg (mu y) ih

/-- an unfolding that comes back meets no function types; any other takes one turn for each binder,
whatever the names of parameters are -/
theorem headForm_anonymous (t : Ty) : t.anonymous.headForm = t.headForm.anonymous := by
  cases h : spins [] t with
  | false =>
    have h' : spins [] t.anonymous = false := (spins_anonymous [] t).trans h
    rw [headForm_of_not_spins h, headForm_of_not_spins h', binders_anonymous,
      anonymous_iterate_unfold]
  | true =>
    obtain ⟨before, x, after, rfl, hx⟩ := exists_chain_of_spins h
    rw [anonymous_chain_var, (stopsAfter_chain before hx).2, anonymous_chain_var]

theorem isUnguarded_anonymous (t : Ty) : t.anonymous.isUnguarded = t.isUnguarded := by
  rw [isUnguarded, isUnguarded, headForm_anonymous, isMu_anonymous]

/-! ## types up to the names of binders -/

theorem alphaParams_anonymousRow (label : Name → Name) {bound : List (Name × Name)} {ps qs : Row}
    (h : ∀ p ∈ ps, ∀ u : Ty, alphaUnder bound p.2.anonymous u.anonymous = alphaUnder bound p.2 u) :
    alphaParams bound (anonymousRow label ps) (anonymousRow label qs) =
      alphaParams bound ps qs := by
  induction ps generalizing qs with
  | nil => cases qs <;> rfl
  | cons p ps ih =>
    obtain ⟨hp, hps⟩ := List.forall_mem_cons.mp h
    cases qs with
    | nil => rfl
    | cons q qs => exact congrArg₂ and (hp q.2) (ih hps)

theorem alphaProps_anonymousRow {bound : List (Name × Name)} {ps qs : Row}
    (h : ∀ p ∈ ps, ∀ u : Ty, alphaUnder bound p.2.anonymous u.anonymous = alphaUnder bound p.2 u) :
    alphaProps bound (anonymousRow id ps) (anonymousRow id qs) = alphaProps bound ps qs := by
  induction ps with
  | nil => rfl
  | cons p ps ih =>
    obtain ⟨x, t⟩ := p
    obtain ⟨hp, hps⟩ := List.forall_mem_cons.mp h
    show alphaProps bound ((x, t.anonymous) :: anonymousRow id ps) (anonymousRow id qs) = _
    rw [alphaProps, alphaProps, lookup_anonymousRow]
    cases qs.lookup x with
    | none => rfl
    | some u => exact congrArg₂ and (hp u) (ih hps)

theorem alphaUnder_anonymous (bound : List (Name × Name)) (t u : Ty) :
    alphaUnder bound t.anonymous u.anonymous = alphaUnder bound t u := by
  induction t generalizing bound u with
  | func ps r hps hr =>
    cases u with
    | func qs s =>
      exact congrArg₂ and (alphaParams_anonymousRow _ fun p hp u => hps p hp bound u) (hr bound s)
    | _ => rfl
  | object ps hps =>
    cases u with
    | object qs =>
      show ((anonymousRow id ps).length == (anonymousRow id qs).length &&
        alphaProps bound (anonymousRow id ps) (anonymousRow id qs)) = _
      rw [length_anonymousRow, length_anonymousRow,
        alphaProps_anonymousRow fun p hp u => hps p hp bound u]
      rfl
    | _ => rfl
  | mu x b hb =>
    cases u with
    | mu y c => exact hb ((x, y) :: bound) c
    | _ => rfl
  | _ => cases u <;> rfl

theorem alphaEq_anonymous (t u : Ty) : t.anonymous.alphaEq u.anonymous = t.alphaEq u :=
  alphaUnder_anonymous [] t u

end Equirec.Ty
