import Mathlib.Data.List.Forall2
import Equirec.Term.Typing
import Equirec.Proofs.Run
import Equirec.Proofs.Term.Rules

/-!
# Terms that are checked alike

Two terms are alike if they differ in nothing but their annotations, and these are related.  If the
relation goes on from types to their heads and parts, holds of what is put together from related
parts, and no comparison tells related types apart, then the checks of the two terms end alike.
Nothing is asked of the contexts but that related types are bound to the free variables of the
terms.

* `Term.freeVars`        the variables of a term that the context has to bind
* `Term.Alike`           terms that differ in their annotations only
* `Term.alike_self`      a term is like itself if its annotations are related to themselves
* `TypeError.Alike`      errors of the same sort, with related types in them
* `Ty.Congruence`        a relation of types that the check respects
* `Term.checkedAlike_ite`, `Term.checkedAlike_call` and so on
                         terms are checked alike if their parts are
* `Term.check_matches`   terms that are alike are checked alike
-/

namespace Equirec

/-! ## free variables -/

namespace Term

mutual
/-- the free variables of a term from left to right: parameters are bound in the body, a constant
in the rest, a recursive function in both -/
def freeVars : Term → List Name
  | bool _ => []
  | number _ => []
  | ite c a b => c.freeVars ++ (a.freeVars ++ b.freeVars)
  | add l r => l.freeVars ++ r.freeVars
  | var x => [x]
  | func ps b => b.freeVars.filter (· ∉ Row.names ps)
  | call f as => f.freeVars ++ freeVarsArgs as
  | seq a r => a.freeVars ++ r.freeVars
  | const x a r => a.freeVars ++ r.freeVars.filter (· ≠ x)
  | object ps => freeVarsProps ps
  | get o _ => o.freeVars
  | recFunc f ps _ b r =>
    b.freeVars.filter (· ∉ f :: Row.names ps) ++ r.freeVars.filter (· ≠ f)
def freeVarsArgs : List Term → List Name
  | [] => []
  | a :: as => a.freeVars ++ freeVarsArgs as
def freeVarsProps : List (Name × Term) → List Name
  | [] => []
  | (_, a) :: ps => a.freeVars ++ freeVarsProps ps
end

theorem mem_freeVarsArgs {as : List Term} {x : Name} :
    x ∈ freeVarsArgs as ↔ ∃ a ∈ as, x ∈ a.freeVars := by
  induction as with
  | nil => simp [freeVarsArgs]
  | cons a as ih => simp [freeVarsArgs, ih]

theorem mem_freeVarsProps {ps : List (Name × Term)} {x : Name} :
    x ∈ freeVarsProps ps ↔ ∃ p ∈ ps, x ∈ p.2.freeVars := by
  induction ps with
  | nil => simp [freeVarsProps]
  | cons p ps ih => simp [freeVarsProps, ih]

end Term

/-! ## rows, terms and errors -/

/-- the same names in order, with related types -/
def Row.Alike (R : Ty → Ty → Prop) : Row → Row → Prop :=
  List.Forall₂ fun p q => p.1 = q.1 ∧ R p.2 q.2

theorem Row.Alike.types {R : Ty → Ty → Prop} {ps qs : Row} (h : ps.Alike R qs) :
    List.Forall₂ (fun p q => R p.2 q.2) ps qs :=
  List.Forall₂.imp (fun _ _ hp => hp.2) h

theorem Row.alike_self {R : Ty → Ty → Prop} {ps : Row} (h : ∀ p ∈ ps, R p.2 p.2) :
    ps.Alike R ps :=
  List.forall₂_same.mpr fun p hp => ⟨rfl, h p hp⟩

theorem Row.Alike.names_eq {R : Ty → Ty → Prop} {ps qs : Row} (h : ps.Alike R qs) :
    Row.names ps = Row.names qs := by
  induction h with
  | nil => rfl
  | cons hp _ ih => exact congrArg₂ List.cons hp.1 ih

theorem Row.Alike.rel_lookup {R : Ty → Ty → Prop} {ps qs : Row} (h : ps.Alike R qs) (x : Name) :
    Option.Rel R (ps.lookup x) (qs.lookup x) := by
  induction h with
  | nil => exact .none
  | @cons p q ps qs hp _ ih =>
    rw [lookup_cons_ite, lookup_cons_ite, ← hp.1]
    by_cases e : x = p.1
    · rw [if_pos e, if_pos e]
      exact .some hp.2
    · rw [if_neg e, if_neg e]
      exact ih

namespace Term

mutual
/-- the terms differ in their annotations only, and these are related -/
inductive Alike (R : Ty → Ty → Prop) : Term → Term → Prop
  | bool {b : Bool} : Alike R (.bool b) (.bool b)
  | number {n : Float} : Alike R (.number n) (.number n)
  | ite {c a b c' a' b' : Term} (test : Alike R c c') (thenBranch : Alike R a a')
      (elseBranch : Alike R b b') : Alike R (.ite c a b) (.ite c' a' b')
  | add {l r l' r' : Term} (left : Alike R l l') (right : Alike R r r') :
      Alike R (.add l r) (.add l' r')
  | var {x : Name} : Alike R (.var x) (.var x)
  | func {ps ps' : Row} {b b' : Term} (params : ps.Alike R ps') (body : Alike R b b') :
      Alike R (.func ps b) (.func ps' b')
  | call {f f' : Term} {as as' : List Term} (callee : Alike R f f') (args : AlikeArgs R as as') :
      Alike R (.call f as) (.call f' as')
  | seq {a r a' r' : Term} (first : Alike R a a') (rest : Alike R r r') :
      Alike R (.seq a r) (.seq a' r')
  | const {x : Name} {a r a' r' : Term} (value : Alike R a a') (rest : Alike R r r') :
      Alike R (.const x a r) (.const x a' r')
  | object {ps ps' : List (Name × Term)} (props : AlikeProps R ps ps') :
      Alike R (.object ps) (.object ps')
  | get {o o' : Term} {x : Name} (target : Alike R o o') : Alike R (.get o x) (.get o' x)
  | recFunc {f : Name} {ps ps' : Row} {t t' : Ty} {b r b' r' : Term} (params : ps.Alike R ps')
      (result : R t t') (body : Alike R b b') (rest : Alike R r r') :
      Alike R (.recFunc f ps t b r) (.recFunc f ps' t' b' r')
inductive AlikeArgs (R : Ty → Ty → Prop) : List Term → List Term → Prop
  | nil : AlikeArgs R [] []
  | cons {a a' : Term} {as as' : List Term} (arg : Alike R a a') (rest : AlikeArgs R as as') :
      AlikeArgs R (a :: as) (a' :: as')
inductive AlikeProps (R : Ty → Ty → Prop) : List (Name × Term) → List (Name × Term) → Prop
  | nil : AlikeProps R [] []
  | cons {x : Name} {a a' : Term} {ps ps' : List (Name × Term)} (prop : Alike R a a')
      (rest : AlikeProps R ps ps') : AlikeProps R ((x, a) :: ps) ((x, a') :: ps')
end

theorem AlikeArgs.length_eq {R : Ty → Ty → Prop} {as as' : List Term} (h : AlikeArgs R as as') :
    as.length = as'.length := by
  induction as generalizing as' with
  | nil =>
    cases h
    rfl
  | cons a as ih =>
    cases h with
    | cons _ rest => exact congrArg Nat.succ (ih rest)

theorem alikeArgs_self {R : Ty → Ty → Prop} {as : List Term} (h : ∀ a ∈ as, a.Alike R a) :
    AlikeArgs R as as := by
  induction as with
  | nil => exact .nil
  | cons a as ih =>
    obtain ⟨ha, has⟩ := List.forall_mem_cons.mp h
    exact .cons ha (ih has)

theorem alikeProps_self {R : Ty → Ty → Prop} {ps : List (Name × Term)}
    (h : ∀ p ∈ ps, p.2.Alike R p.2) : AlikeProps R ps ps := by
  induction ps with
  | nil => exact .nil
  | cons p ps ih =>
    obtain ⟨hp, hps⟩ := List.forall_mem_cons.mp h
    exact .cons hp (ih hps)

/-- a term whose annotations are related to themselves is like itself -/
theorem alike_self {R : Ty → Ty → Prop} {P : Ty → Prop} {L : List Name → Prop}
    (hR : ∀ t, P t → R t t) {m : Term} (hm : m.Built P L) : m.Alike R m := by
  induction m with
  | bool b => exact .bool
  | number n => exact .number
  | ite c a b hc ha hb =>
    obtain ⟨hmc, hma, hmb⟩ := built_ite.mp hm
    exact .ite (hc hmc) (ha hma) (hb hmb)
  | add l r hl hr =>
    obtain ⟨hml, hmr⟩ := built_add.mp hm
    exact .add (hl hml) (hr hmr)
  | var x => exact .var
  | func ps b hb =>
    obtain ⟨hps, hmb⟩ := built_func.mp hm
    exact .func (Row.alike_self fun p hp => hR _ (hps p hp)) (hb hmb)
  | call f as hf has =>
    obtain ⟨hmf, hmas⟩ := built_call.mp hm
    exact .call (hf hmf) (alikeArgs_self fun a ha => has a ha (hmas a ha))
  | seq a r ha hr =>
    obtain ⟨hma, hmr⟩ := built_seq.mp hm
    exact .seq (ha hma) (hr hmr)
  | const x a r ha hr =>
    obtain ⟨hma, hmr⟩ := built_const.mp hm
    exact .const (ha hma) (hr hmr)
  | object ps hps =>
    exact .object (alikeProps_self fun p hp => hps p hp ((built_object.mp hm).2 p hp))
  | get o x ho => exact .get (ho (built_get.mp hm))
  | recFunc f ps t b r hb hr =>
    obtain ⟨hps, ht, hmb, hmr⟩ := built_recFunc.mp hm
    exact .recFunc (Row.alike_self fun p hp => hR _ (hps p hp)) (hR t ht) (hb hmb) (hr hmr)

end Term

/-- the same cause, with related types; where parameters of function types are named, the names do
not count -/
inductive TypeError.Alike (R : Ty → Ty → Prop) : TypeError → TypeError → Prop
  | nonBooleanCondition {t t' : Ty} (found : R t t') :
      Alike R (.nonBooleanCondition t) (.nonBooleanCondition t')
  | branchMismatch {t t' u u' : Ty} (thenType : R t t') (elseType : R u u') :
      Alike R (.branchMismatch t u) (.branchMismatch t' u')
  | nonNumberOperand {t t' u u' : Ty} (left : R t t') (right : R u u') :
      Alike R (.nonNumberOperand t u) (.nonNumberOperand t' u')
  | undefinedVariable {x : Name} : Alike R (.undefinedVariable x) (.undefinedVariable x)
  | notAFunction {t t' : Ty} (found : R t t') : Alike R (.notAFunction t) (.notAFunction t')
  | arityMismatch {m n : Nat} : Alike R (.arityMismatch m n) (.arityMismatch m n)
  | argumentMismatch {x y : Name} {t t' u u' : Ty} (expected : R t t') (found : R u u') :
      Alike R (.argumentMismatch x t u) (.argumentMismatch y t' u')
  | notAnObject {t t' : Ty} (found : R t t') : Alike R (.notAnObject t) (.notAnObject t')
  | unknownProperty {x : Name} {t t' : Ty} (type : R t t') :
      Alike R (.unknownProperty x t) (.unknownProperty x t')
  | returnMismatch {f : Name} {t t' u u' : Ty} (declared : R t t') (found : R u u') :
      Alike R (.returnMismatch f t u) (.returnMismatch f t' u')
  | unboundTypeVariable {x : Name} : Alike R (.unboundTypeVariable x) (.unboundTypeVariable x)

/-! ## relations of types -/

/-- head forms of the same shape with related parts -/
inductive Ty.AlikeHeads (R : Ty → Ty → Prop) : Ty → Ty → Prop
  | boolean : AlikeHeads R .boolean .boolean
  | number : AlikeHeads R .number .number
  | func {ps qs : Row} {r s : Ty} (params : List.Forall₂ (fun p q => R p.2 q.2) ps qs)
      (result : R r s) : AlikeHeads R (.func ps r) (.func qs s)
  | object {ps qs : Row} (props : ∀ x, Option.Rel R (ps.lookup x) (qs.lookup x)) :
      AlikeHeads R (.object ps) (.object qs)
  | var {x y : Name} : AlikeHeads R (.var x) (.var y)
  | mu {x y : Name} {b c : Ty} : AlikeHeads R (.mu x b) (.mu y c)

theorem Ty.AlikeHeads.eq_boolean_iff {R : Ty → Ty → Prop} {t u : Ty} (h : t.AlikeHeads R u) :
    t = .boolean ↔ u = .boolean := by
  cases h <;> simp

theorem Ty.AlikeHeads.eq_number_iff {R : Ty → Ty → Prop} {t u : Ty} (h : t.AlikeHeads R u) :
    t = .number ↔ u = .number := by
  cases h <;> simp

/-- related types have related heads and parts and the same comparisons, and what is put together
from related types is related, objects having names as in `L`; `E` is what has to be the case for a
comparison to have no answer -/
structure Ty.Congruence (R : Ty → Ty → Prop) (L : List Name → Prop) (E : Prop) : Prop where
  boolean : R .boolean .boolean
  number : R .number .number
  func : ∀ {ps qs r s}, List.Forall₂ (fun p q => R p.2 q.2) ps qs → R r s →
    R (.func ps r) (.func qs s)
  object : ∀ {ps qs}, L (Row.names ps) → ps.Alike R qs → R (.object ps) (.object qs)
  headForm : ∀ {t u}, R t u → R t.headForm u.headForm
  heads : ∀ {t u}, R t u → t.headForm.AlikeHeads R u.headForm
  holds : ∀ (c : Comparison) {t u t' u'}, R t t' → R u u' →
    (c.holds t u).Matches (fun b b' => b = b') (TypeError.Alike R) E (c.holds t' u')

/-! ## contexts -/

theorem Bindings.rel_setAll {R : Ty → Ty → Prop} {Γ Γ' : Bindings} {ps qs : Row}
    (hps : ps.Alike R qs) {x : Name}
    (h : x ∉ Row.names ps → Option.Rel R (Γ x) (Γ' x)) :
    Option.Rel R (Γ.setAll ps x) (Γ'.setAll qs x) := by
  induction hps generalizing Γ Γ' with
  | nil => exact h List.not_mem_nil
  | @cons p q ps qs hp _ ih =>
    obtain ⟨hname, htype⟩ := hp
    refine ih fun hx => ?_
    show Option.Rel R (if x = p.1 then some p.2 else Γ x) (if x = q.1 then some q.2 else Γ' x)
    rw [← hname]
    by_cases e : x = p.1
    · rw [if_pos e, if_pos e]
      exact .some htype
    · rw [if_neg e, if_neg e]
      exact h fun hmem => (List.mem_cons.mp hmem).elim e hx

theorem Context.rel_extend {R : Ty → Ty → Prop} {Γ Γ' : Context} {ps qs : Row}
    (hps : ps.Alike R qs) {x : Name}
    (h : x ∉ Row.names ps → Option.Rel R (Γ.get? x) (Γ'.get? x)) :
    Option.Rel R ((Γ.extend ps).get? x) ((Γ'.extend qs).get? x) := by
  rw [Context.get?_extend_eq, Context.get?_extend_eq]
  exact Bindings.rel_setAll hps h

theorem Context.rel_bind {R : Ty → Ty → Prop} {Γ Γ' : Context} {x y : Name} {t t' : Ty}
    (ht : R t t') (h : y ≠ x → Option.Rel R (Γ.get? y) (Γ'.get? y)) :
    Option.Rel R ((Γ.bind x t).get? y) ((Γ'.bind x t').get? y) := by
  have hrow : Row.Alike R [(x, t)] [(x, t')] := .cons ⟨rfl, ht⟩ .nil
  exact Context.rel_extend hrow fun hy => h fun e => hy (List.mem_singleton.mpr e)

/-! ## the check -/

namespace Term

section
variable {R : Ty → Ty → Prop} {L : List Name → Prop} {E : Prop} {Γ Γ' : Context}

/-- the checks of the two terms end in related types, or in errors that are alike -/
def CheckedAlike (R : Ty → Ty → Prop) (E : Prop) (Γ Γ' : Context) (m m' : Term) : Prop :=
  (m.check Γ).Matches R (TypeError.Alike R) E (m'.check Γ')

theorem checkedAlike_var {x : Name} (hx : Option.Rel R (Γ.get? x) (Γ'.get? x)) :
    CheckedAlike R E Γ Γ' (var x) (var x) := by
  rw [CheckedAlike, check, check]
  generalize Γ.get? x = o at hx
  generalize Γ'.get? x = o' at hx
  cases hx with
  | some ht => exact .pure ht
  | none => exact .fail .undefinedVariable

theorem matches_checkProps {ps ps' : List (Name × Term)}
    (hcheck : ∀ p ∈ ps, ∀ b, p.2.Alike R b → CheckedAlike R E Γ Γ' p.2 b)
    (h : AlikeProps R ps ps') :
    (checkProps ps Γ).Matches (fun row row' => Row.names row = ps.map Prod.fst ∧ row.Alike R row')
      (TypeError.Alike R) E (checkProps ps' Γ') := by
  induction ps generalizing ps' with
  | nil =>
    cases h
    exact .pure ⟨rfl, .nil⟩
  | cons p ps ih =>
    cases h with
    | cons prop rest =>
      obtain ⟨ha, hcheck⟩ := List.forall_mem_cons.mp hcheck
      refine (ha _ prop).bind fun t t' ht => (ih hcheck rest).bind fun row row' hrow => ?_
      exact .pure ⟨congrArg _ hrow.1, .cons ⟨rfl, ht⟩ hrow.2⟩

variable (hR : Ty.Congruence R L E)
include hR

theorem matches_normalize {t t' : Ty} (h : R t t') :
    t.normalize.Matches (fun u u' => R u u' ∧ u.AlikeHeads R u') (TypeError.Alike R) E
      t'.normalize := by
  rw [Run.Matches, Ty.outcome_normalize, Ty.outcome_normalize]
  exact .ok ⟨hR.headForm h, hR.heads h⟩

theorem checkedAlike_ite {c a b c' a' b' : Term} (hc : CheckedAlike R E Γ Γ' c c')
    (ha : CheckedAlike R E Γ Γ' a a') (hb : CheckedAlike R E Γ Γ' b b') :
    CheckedAlike R E Γ Γ' (ite c a b) (ite c' a' b') := by
  refine hc.bind fun s s' hs => (matches_normalize hR hs).bind fun v v' hv => ?_
  refine .ite hv.2.eq_boolean_iff (fun _ => ?_) fun _ => .fail (.nonBooleanCondition hv.1)
  refine ha.bind fun t t' ht => hb.bind fun u u' hu => ?_
  exact .test (hR.holds .equality ht hu) (.pure ht) (.fail (.branchMismatch ht hu))

theorem checkedAlike_add {l r l' r' : Term} (hl : CheckedAlike R E Γ Γ' l l')
    (hr : CheckedAlike R E Γ Γ' r r') : CheckedAlike R E Γ Γ' (add l r) (add l' r') := by
  refine hl.bind fun s s' hs => (matches_normalize hR hs).bind fun t t' ht => ?_
  refine hr.bind fun v v' hv => (matches_normalize hR hv).bind fun u u' hu => ?_
  exact .ite (and_congr ht.2.eq_number_iff hu.2.eq_number_iff) (fun _ => .pure hR.number)
    fun _ => .fail (.nonNumberOperand ht.1 hu.1)

theorem matches_checkArgs {as as' : List Term}
    (hcheck : ∀ a ∈ as, ∀ b, a.Alike R b → CheckedAlike R E Γ Γ' a b)
    (h : AlikeArgs R as as') {ps qs : Row} (hps : List.Forall₂ (fun p q => R p.2 q.2) ps qs) :
    (checkArgs as ps Γ).Matches (fun _ _ => True) (TypeError.Alike R) E (checkArgs as' qs Γ') := by
  induction as generalizing as' ps qs with
  | nil =>
    cases h
    exact .pure trivial
  | cons a as ih =>
    cases h with
    | cons arg rest =>
      cases hps with
      | nil => exact .pure trivial
      | cons hp hps =>
        obtain ⟨ha, hcheck⟩ := List.forall_mem_cons.mp hcheck
        refine (ha _ arg).bind fun t t' ht => .test (hR.holds _ ht hp) (ih hcheck rest hps) ?_
        exact .fail (.argumentMismatch hp ht)

theorem checkedAlike_call {f f' : Term} {as as' : List Term} (hf : CheckedAlike R E Γ Γ' f f')
    (hcheck : ∀ a ∈ as, ∀ b, a.Alike R b → CheckedAlike R E Γ Γ' a b)
    (args : AlikeArgs R as as') : CheckedAlike R E Γ Γ' (call f as) (call f' as') := by
  refine hf.bind fun s s' hs => (matches_normalize hR hs).bind fun v v' hv => ?_
  obtain ⟨hv, hheads⟩ := hv
  cases hheads with
  | func params result =>
    have hps := params.length_eq
    have has := args.length_eq
    refine .ite (by rw [hps, has]) (fun _ => ?_) fun _ => ?_
    · exact (matches_checkArgs hR hcheck args params).bind fun _ _ _ => .pure result
    · rw [hps, has]
      exact .fail .arityMismatch
  | _ => exact .fail (.notAFunction hv)

theorem checkedAlike_get {o o' : Term} {x : Name} (ho : CheckedAlike R E Γ Γ' o o') :
    CheckedAlike R E Γ Γ' (get o x) (get o' x) := by
  refine ho.bind fun s s' hs => (matches_normalize hR hs).bind fun v v' hv => ?_
  obtain ⟨hv, hheads⟩ := hv
  cases hheads with
  | @object ps qs props =>
    dsimp only
    have hx := props x
    generalize ps.lookup x = o at hx
    generalize qs.lookup x = o' at hx
    cases hx with
    | some ht => exact .pure ht
    | none => exact .fail (.unknownProperty hv)
  | _ => exact .fail (.notAnObject hv)

theorem checkedAlike_recFunc {f : Name} {ps ps' : Row} {t t' : Ty} {b r b' r' : Term} (ht : R t t')
    (hb : CheckedAlike R E (Γ.extend ((f, .func ps t) :: ps)) (Γ'.extend ((f, .func ps' t') :: ps'))
      b b')
    (hr : CheckedAlike R E (Γ.bind f (.func ps t)) (Γ'.bind f (.func ps' t')) r r') :
    CheckedAlike R E Γ Γ' (recFunc f ps t b r) (recFunc f ps' t' b' r') := by
  refine hb.bind fun u u' hu => .test (hR.holds .equality hu ht) ?_ (.fail (.returnMismatch ht hu))
  exact (Run.Matches.log _ _).bind fun _ _ _ => hr

/-- terms that are alike are checked alike, if related types are bound to their free variables -/
theorem check_matches {m m' : Term} (h : m.Alike R m') (hl : m.Built (fun _ => True) L)
    (hΓ : ∀ x ∈ m.freeVars, Option.Rel R (Γ.get? x) (Γ'.get? x)) :
    CheckedAlike R E Γ Γ' m m' := by
  induction m generalizing m' Γ Γ' with
  | bool b =>
    cases h
    exact .pure hR.boolean
  | number n =>
    cases h
    exact .pure hR.number
  | ite c a b hc ha hb =>
    obtain ⟨hlc, hla, hlb⟩ := built_ite.mp hl
    obtain ⟨hΓc, hΓab⟩ := List.forall_mem_append.mp hΓ
    obtain ⟨hΓa, hΓb⟩ := List.forall_mem_append.mp hΓab
    cases h with
    | ite test thenBranch elseBranch =>
      exact checkedAlike_ite hR (hc test hlc hΓc) (ha thenBranch hla hΓa) (hb elseBranch hlb hΓb)
  | add l r hl' hr' =>
    obtain ⟨hll, hlr⟩ := built_add.mp hl
    obtain ⟨hΓl, hΓr⟩ := List.forall_mem_append.mp hΓ
    cases h with
    | add left right => exact checkedAlike_add hR (hl' left hll hΓl) (hr' right hlr hΓr)
  | var x =>
    cases h
    exact checkedAlike_var (hΓ x (List.mem_singleton_self x))
  | func ps b hb =>
    cases h with
    | func params body =>
      refine (hb body (built_func.mp hl).2 fun x hx => ?_).bind fun r r' hr => ?_
      · refine Context.rel_extend params fun hn => hΓ x ?_
        exact List.mem_filter.mpr ⟨hx, decide_eq_true hn⟩
      · exact .pure (hR.func params.types hr)
  | call f as hf has =>
    obtain ⟨hlf, hlas⟩ := built_call.mp hl
    obtain ⟨hΓf, hΓas⟩ := List.forall_mem_append.mp hΓ
    cases h with
    | call callee args =>
      refine checkedAlike_call hR (hf callee hlf hΓf) (fun a ha b hb => ?_) args
      exact has a ha hb (hlas a ha) fun x hx => hΓas x (mem_freeVarsArgs.mpr ⟨a, ha, hx⟩)
  | seq a r ha hr =>
    obtain ⟨hla, hlr⟩ := built_seq.mp hl
    obtain ⟨hΓa, hΓr⟩ := List.forall_mem_append.mp hΓ
    cases h with
    | seq first rest => exact (ha first hla hΓa).bind fun _ _ _ => hr rest hlr hΓr
  | const x a r ha hr =>
    obtain ⟨hla, hlr⟩ := built_const.mp hl
    obtain ⟨hΓa, hΓr⟩ := List.forall_mem_append.mp hΓ
    cases h with
    | const value rest =>
      refine (ha value hla hΓa).bind fun t t' ht => hr rest hlr fun y hy => ?_
      refine Context.rel_bind ht fun hne => hΓr y ?_
      exact List.mem_filter.mpr ⟨hy, decide_eq_true hne⟩
  | object ps hps =>
    obtain ⟨hn, hlps⟩ := built_object.mp hl
    cases h with
    | object props =>
      refine (matches_checkProps (fun p hp b hb => ?_) props).bind fun row row' hrow => ?_
      · exact hps p hp hb (hlps p hp) fun x hx => hΓ x (mem_freeVarsProps.mpr ⟨p, hp, hx⟩)
      · exact .pure (hR.object (hrow.1 ▸ hn) hrow.2)
  | get o x ho =>
    cases h with
    | get target => exact checkedAlike_get hR (ho target (built_get.mp hl) hΓ)
  | recFunc f ps t b r hb hr =>
    obtain ⟨_, _, hlb, hlr⟩ := built_recFunc.mp hl
    obtain ⟨hΓb, hΓr⟩ := List.forall_mem_append.mp hΓ
    cases h with
    | @recFunc _ _ ps' _ t' _ _ _ _ params result body rest =>
      have hf : R (.func ps t) (.func ps' t') := hR.func params.types result
      have hrow : Row.Alike R ((f, .func ps t) :: ps) ((f, .func ps' t') :: ps') :=
        .cons ⟨rfl, hf⟩ params
      refine checkedAlike_recFunc hR result (hb body hlb fun x hx => ?_)
        (hr rest hlr fun x hx => ?_)
      · refine Context.rel_extend hrow fun hn => hΓb x ?_
        exact List.mem_filter.mpr ⟨hx, decide_eq_true hn⟩
      · refine Context.rel_bind hf fun hne => hΓr x ?_
        exact List.mem_filter.mpr ⟨hx, decide_eq_true hne⟩

end

end Term

end Equirec
