import Equirec.Term.Typing
import Equirec.Proofs.Run
import Equirec.Proofs.Ty.Regular
import Equirec.Proofs.Term.Rules

/-!
# Kinds of types that last

The check puts types together, takes them apart and unfolds them.  What lasts through all three
holds of every type that comes up in a check, if it holds of the annotations and of what the
context binds.

* `TypeError.types`      the types in an error
* `Ty.Lasting`           a kind of types that lasts
* `Ty.lasting_distinct`, `Ty.lasting_free`
                         objects that name each property once; free variables among given ones
* `Term.confined_ite`, `Term.confined_call` and so on
                         the check of a term stays within the kind if those of its parts do
* `Term.check_confined`  it does if the annotations, the context and the comparisons do
-/

namespace Equirec

def TypeError.types : TypeError → List Ty
  | nonBooleanCondition t => [t]
  | branchMismatch t u => [t, u]
  | nonNumberOperand t u => [t, u]
  | undefinedVariable _ => []
  | notAFunction t => [t]
  | arityMismatch _ _ => []
  | argumentMismatch _ t u => [t, u]
  | notAnObject t => [t]
  | unknownProperty _ t => [t]
  | returnMismatch _ t u => [t, u]
  | unboundTypeVariable _ => []

/-! ## kinds of types -/

namespace Ty

/-- a kind of types that holds of what types of the kind lead to and of what is put together from
them, objects having names as in `L` -/
structure Lasting (P : Ty → Prop) (L : List Name → Prop) : Prop where
  boolean : P boolean
  number : P number
  func : ∀ {ps r}, (∀ p ∈ ps, P p.2) → P r → P (func ps r)
  object : ∀ {ps}, L (Row.names ps) → (∀ p ∈ ps, P p.2) → P (object ps)
  of_leads : ∀ {t u}, P t → t.Leads u → P u

theorem Lasting.headForm {P : Ty → Prop} {L : List Name → Prop} (hP : Lasting P L) {t : Ty}
    (h : P t) : P t.headForm := by
  refine headForm_induction (fun t h => ?_) h
  cases t with
  | mu x b => exact hP.of_leads h .turn
  | _ => exact h

theorem lasting_distinct : Lasting Distinct List.Nodup where
  boolean := trivial
  number := trivial
  func hps hr := allObjects_func.mpr ⟨hps, hr⟩
  object hn hps := allObjects_object.mpr ⟨hn, hps⟩
  of_leads := Distinct.of_leads

theorem lasting_free (V : Name → Prop) :
    Lasting (fun t => ∀ x ∈ t.freeVars, V x) fun _ => True where
  boolean := List.forall_mem_nil _
  number := List.forall_mem_nil _
  func := by
    intro ps r hps hr x hx
    rcases mem_freeVars_func.mp hx with ⟨p, hp, hx⟩ | hx
    · exact hps p hp x hx
    · exact hr x hx
  object := by
    intro ps _ hps x hx
    obtain ⟨p, hp, hx⟩ := mem_freeVars_object.mp hx
    exact hps p hp x hx
  of_leads ht h x hx := ht x (mem_freeVars_of_leads h hx)

end Ty

/-! ## the check -/

namespace Term

section
variable {P : Ty → Prop} {L : List Name → Prop} {F : TypeError → Prop} {E : Prop} {Γ : Context}

theorem confined_checkProps {ps : List (Name × Term)}
    (hps : ∀ p ∈ ps, (p.2.check Γ).Confined P F E) : (checkProps ps Γ).Confined
      (fun row => Row.names row = ps.map Prod.fst ∧ ∀ p ∈ row, P p.2) F E := by
  induction ps with
  | nil => exact .pure ⟨rfl, List.forall_mem_nil _⟩
  | cons p ps ih =>
    obtain ⟨x, a⟩ := p
    obtain ⟨ha, hps⟩ := List.forall_mem_cons.mp hps
    show (a.check Γ >>= _).Confined _ _ _
    refine ha.bind fun t ht => (ih hps).bind fun row hrow => .pure ⟨?_, ?_⟩
    · exact congrArg _ hrow.1
    · exact List.forall_mem_cons.mpr ⟨ht, hrow.2⟩

theorem confined_normalize (hP : Ty.Lasting P L) {t : Ty} (h : P t) :
    t.normalize.Confined P F E := by
  have hrun : (pure t.headForm : Run Ty).Confined P F E := .pure (hP.headForm h)
  exact hrun.of_outcome_eq t.outcome_normalize

variable (hF : ∀ e : TypeError, (∀ x, e ≠ .unboundTypeVariable x) → (∀ t ∈ e.types, P t) → F e)
include hF

/-- the run fails with a fault of the term -/
theorem confined_fail {α : Type} {Q : α → Prop} {e : TypeError}
    (hx : ∀ x, e ≠ .unboundTypeVariable x) (ht : ∀ t ∈ e.types, P t) :
    (Run.fail e : Run α).Confined Q F E :=
  .fail (hF e hx ht)

theorem confined_var {x : Name} (hΓ : ∀ t, Γ.get? x = some t → P t) :
    ((var x).check Γ).Confined P F E := by
  rw [check]
  split
  · next t hx => exact .pure (hΓ t hx)
  · exact confined_fail hF (by simp) (by simp [TypeError.types])

section
variable (hP : Ty.Lasting P L)
include hP

theorem confined_add {l r : Term} (hl : (l.check Γ).Confined P F E)
    (hr : (r.check Γ).Confined P F E) : ((add l r).check Γ).Confined P F E := by
  show (l.check Γ >>= _).Confined _ _ _
  refine hl.bind fun s hs => (confined_normalize hP hs).bind fun t ht => ?_
  refine hr.bind fun v hv => (confined_normalize hP hv).bind fun u hu => ?_
  split
  · exact .pure hP.number
  · exact confined_fail hF (by simp) (by simpa [TypeError.types] using ⟨ht, hu⟩)

theorem confined_get {o : Term} {x : Name} (ho : (o.check Γ).Confined P F E) :
    ((get o x).check Γ).Confined P F E := by
  show (o.check Γ >>= _).Confined _ _ _
  refine ho.bind fun s hs => (confined_normalize hP hs).bind fun h hh => ?_
  split
  · next row =>
    split
    · next t ht => exact .pure (hP.of_leads hh (.prop (Row.mem_of_lookup ht)))
    · exact confined_fail hF (by simp) (by simpa [TypeError.types] using hh)
  · exact confined_fail hF (by simp) (by simpa [TypeError.types] using hh)

end

variable (hC : ∀ (c : Comparison) (t u : Ty), P t → P u →
  (c.holds t u).Confined (fun _ => True) F E)
include hC

theorem confined_checkArgs {as : List Term} (has : ∀ a ∈ as, (a.check Γ).Confined P F E) {ps : Row}
    (hps : ∀ p ∈ ps, P p.2) : (checkArgs as ps Γ).Confined (fun _ => True) F E := by
  induction as generalizing ps with
  | nil => exact .pure trivial
  | cons a as ih =>
    cases ps with
    | nil => exact .pure trivial
    | cons p ps =>
      obtain ⟨x, expected⟩ := p
      obtain ⟨ha, has⟩ := List.forall_mem_cons.mp has
      obtain ⟨hp, hps⟩ := List.forall_mem_cons.mp hps
      show (a.check Γ >>= _).Confined _ _ _
      refine ha.bind fun t ht => .test (hC _ t expected ht hp) (ih has hps) ?_
      exact confined_fail hF (by simp) (by simpa [TypeError.types] using ⟨hp, ht⟩)

theorem confined_recFunc {f : Name} {ps : Row} {t : Ty} {b r : Term} (ht : P t)
    (hb : (b.check (Γ.extend ((f, .func ps t) :: ps))).Confined P F E)
    (hr : (r.check (Γ.bind f (.func ps t))).Confined P F E) :
    ((recFunc f ps t b r).check Γ).Confined P F E := by
  show (b.check (Γ.extend ((f, .func ps t) :: ps)) >>= _).Confined _ _ _
  refine hb.bind fun u hu => .test (hC .equality u t hu ht) ?_ ?_
  · exact (Run.Confined.log _).bind fun _ _ => hr
  · exact confined_fail hF (by simp) (by simpa [TypeError.types] using ⟨ht, hu⟩)

variable (hP : Ty.Lasting P L)
include hP

theorem confined_ite {c a b : Term} (hc : (c.check Γ).Confined P F E)
    (ha : (a.check Γ).Confined P F E) (hb : (b.check Γ).Confined P F E) :
    ((ite c a b).check Γ).Confined P F E := by
  show (c.check Γ >>= _).Confined _ _ _
  refine hc.bind fun s hs => (confined_normalize hP hs).bind fun h hh => ?_
  split
  · refine ha.bind fun t ht => hb.bind fun u hu => .test (hC .equality t u ht hu) (.pure ht) ?_
    exact confined_fail hF (by simp) (by simpa [TypeError.types] using ⟨ht, hu⟩)
  · exact confined_fail hF (by simp) (by simpa [TypeError.types] using hh)

theorem confined_call {f : Term} {as : List Term} (hf : (f.check Γ).Confined P F E)
    (has : ∀ a ∈ as, (a.check Γ).Confined P F E) : ((call f as).check Γ).Confined P F E := by
  show (f.check Γ >>= _).Confined _ _ _
  refine hf.bind fun s hs => (confined_normalize hP hs).bind fun h hh => ?_
  split
  · next ps r =>
    have hps : ∀ p ∈ ps, P p.2 := fun p hp => hP.of_leads hh (.param hp)
    split
    · exact (confined_checkArgs hF hC has hps).bind fun _ _ => .pure (hP.of_leads hh .result)
    · exact confined_fail hF (by simp) (by simp [TypeError.types])
  · exact confined_fail hF (by simp) (by simpa [TypeError.types] using hh)

/-- the types of a check are of the kind, and so are the types in its faults -/
theorem check_confined {m : Term} (hm : m.Built P L) (hΓ : ∀ x t, Γ.get? x = some t → P t) :
    (m.check Γ).Confined P F E := by
  induction m generalizing Γ with
  | bool b => exact .pure hP.boolean
  | number n => exact .pure hP.number
  | ite c a b hc ha hb =>
    obtain ⟨hmc, hma, hmb⟩ := built_ite.mp hm
    exact confined_ite hF hC hP (hc hmc hΓ) (ha hma hΓ) (hb hmb hΓ)
  | add l r hl hr =>
    obtain ⟨hml, hmr⟩ := built_add.mp hm
    exact confined_add hF hP (hl hml hΓ) (hr hmr hΓ)
  | var x => exact confined_var hF (hΓ x)
  | func ps b hb =>
    obtain ⟨hps, hmb⟩ := built_func.mp hm
    show (b.check (Γ.extend ps) >>= _).Confined _ _ _
    refine (hb hmb ?_).bind fun r hr => .pure (hP.func hps hr)
    rw [Context.get?_extend_eq]
    exact Bindings.forall_setAll hΓ hps
  | call f as hf has =>
    obtain ⟨hmf, hmas⟩ := built_call.mp hm
    exact confined_call hF hC hP (hf hmf hΓ) fun a ha => has a ha (hmas a ha) hΓ
  | seq a r ha hr =>
    obtain ⟨hma, hmr⟩ := built_seq.mp hm
    show (a.check Γ >>= _).Confined _ _ _
    exact (ha hma hΓ).bind fun _ _ => hr hmr hΓ
  | const x a r ha hr =>
    obtain ⟨hma, hmr⟩ := built_const.mp hm
    show (a.check Γ >>= _).Confined _ _ _
    refine (ha hma hΓ).bind fun t ht => hr hmr ?_
    rw [Context.get?_bind_eq]
    exact Bindings.forall_set hΓ ht
  | object ps hps =>
    obtain ⟨hn, hmps⟩ := built_object.mp hm
    show (checkProps ps Γ >>= _).Confined _ _ _
    refine (confined_checkProps fun p hp => hps p hp (hmps p hp) hΓ).bind fun row hrow => ?_
    exact .pure (hP.object (by rwa [hrow.1]) hrow.2)
  | get o x ho => exact confined_get hF hP (ho (built_get.mp hm) hΓ)
  | recFunc f ps t b r hb hr =>
    obtain ⟨hps, ht, hmb, hmr⟩ := built_recFunc.mp hm
    have hset := Bindings.forall_set hΓ (x := f) (hP.func hps ht)
    refine confined_recFunc hF hC ht (hb hmb ?_) (hr hmr ?_)
    · rw [Context.get?_extend_eq]
      exact Bindings.forall_setAll hset hps
    · rw [Context.get?_bind_eq]
      exact hset

end

end Term

end Equirec
