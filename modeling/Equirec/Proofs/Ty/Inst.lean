import Mathlib.Logic.Function.Basic
import Equirec.Proofs.Ty.Distinct

/-!
# Types put in for several variables at once

An assignment gives types to some names.  `Ty.inst` puts them in for the free variables of a type,
all at once; below a `mu` its name is given no type.

* `Ty.inst`                      the type with the assigned types put in
* `Ty.subst_inst`                one more substitution is one more assigned type
* `Ty.subst_eq_inst`             a substitution assigns one type
* `Ty.mem_freeVars_inst`         what is left free by the types put in, or is free in one of them
-/

namespace Equirec.Ty

/-- the types given to names -/
abbrev Assignment := Name → Option Ty

namespace Assignment

def none : Assignment := fun _ => Option.none

/-- the assignment without a type for `x` -/
def hide (σ : Assignment) (x : Name) : Assignment := Function.update σ x Option.none

/-- the assignment with the type `s` for `x` -/
def set (σ : Assignment) (x : Name) (s : Ty) : Assignment := Function.update σ x (some s)

theorem hide_none (x : Name) : none.hide x = none := Function.update_eq_self x none

theorem hide_self (σ : Assignment) (x : Name) : σ.hide x x = Option.none :=
  Function.update_self ..

theorem hide_of_ne (σ : Assignment) {x y : Name} (h : y ≠ x) : σ.hide x y = σ y :=
  Function.update_of_ne h ..

theorem set_self (σ : Assignment) (x : Name) (s : Ty) : σ.set x s x = some s :=
  Function.update_self ..

theorem set_of_ne (σ : Assignment) {x y : Name} (h : y ≠ x) (s : Ty) : σ.set x s y = σ y :=
  Function.update_of_ne h ..

theorem hide_hide (σ : Assignment) (x : Name) : (σ.hide x).hide x = σ.hide x :=
  Function.update_idem ..

theorem hide_set (σ : Assignment) (x : Name) (s : Ty) : (σ.set x s).hide x = σ.hide x :=
  Function.update_idem ..

theorem hide_comm (σ : Assignment) (x y : Name) : (σ.hide x).hide y = (σ.hide y).hide x := by
  by_cases e : x = y
  · rw [e]
  · exact Function.update_comm e ..

theorem hide_set_of_ne (σ : Assignment) {x y : Name} (h : x ≠ y) (s : Ty) :
    (σ.set x s).hide y = (σ.hide y).set x s :=
  Function.update_comm h ..

theorem forall_none {P : Ty → Prop} : ∀ x u, none x = some u → P u :=
  fun _ _ h => absurd h (by simp [none])

theorem forall_hide {P : Ty → Prop} {σ : Assignment} (h : ∀ x u, σ x = some u → P u) (x : Name) :
    ∀ y u, σ.hide x y = some u → P u := by
  intro y u hy
  by_cases e : y = x
  · rw [e, hide_self] at hy
    exact absurd hy (by simp)
  · rw [hide_of_ne σ e] at hy
    exact h y u hy

/-- what holds of a type that is given now and of those given before holds of all of them -/
theorem forall_set {P : Ty → Prop} {σ : Assignment} (h : ∀ x u, σ x = some u → P u) {x : Name}
    {s : Ty} (hs : P s) : ∀ y u, σ.set x s y = some u → P u := by
  intro y u hy
  by_cases e : y = x
  · rw [e, set_self] at hy
    exact Option.some.inj hy ▸ hs
  · rw [set_of_ne σ e] at hy
    exact h y u hy

/-- what is free in the types given is among some names -/
def Within (σ : Assignment) (names : List Name) : Prop :=
  ∀ x s, σ x = some s → ∀ y ∈ s.freeVars, y ∈ names

variable {names : List Name}

theorem Within.none : none.Within names := forall_none

theorem Within.hide {σ : Assignment} (h : σ.Within names) (x : Name) :
    (σ.hide x).Within names :=
  forall_hide h x

theorem Within.set {σ : Assignment} (h : σ.Within names) (x : Name) {s : Ty}
    (hs : ∀ y ∈ s.freeVars, y ∈ names) : (σ.set x s).Within names :=
  forall_set h hs

end Assignment

/-! ## instances -/

mutual
def inst : Assignment → Ty → Ty
  | _, boolean => boolean
  | _, number => number
  | σ, func ps r => func (instRow σ ps) (r.inst σ)
  | σ, object ps => object (instRow σ ps)
  | σ, var x => (σ x).getD (var x)
  | σ, mu x b => mu x (b.inst (σ.hide x))
def instRow : Assignment → Row → Row
  | _, [] => []
  | σ, (x, t) :: ps => (x, t.inst σ) :: instRow σ ps
end

theorem instRow_eq_map (σ : Assignment) (ps : Row) :
    instRow σ ps = ps.map fun p => (p.1, p.2.inst σ) := by
  induction ps with
  | nil => rfl
  | cons p ps ih =>
    rw [List.map_cons, ← ih]
    rfl

theorem mem_instRow {σ : Assignment} {ps : Row} {p : Name × Ty} :
    p ∈ instRow σ ps ↔ ∃ q ∈ ps, (q.1, q.2.inst σ) = p := by
  rw [instRow_eq_map, List.mem_map]

theorem length_instRow (σ : Assignment) (ps : Row) : (instRow σ ps).length = ps.length := by
  rw [instRow_eq_map, List.length_map]

theorem lookup_instRow (σ : Assignment) (ps : Row) (x : Name) :
    (instRow σ ps).lookup x = (ps.lookup x).map (inst σ) := by
  induction ps with
  | nil => rfl
  | cons p ps ih =>
    obtain ⟨y, t⟩ := p
    show List.lookup x ((y, t.inst σ) :: instRow σ ps) = _
    simp only [lookup_cons_ite, ih]
    split <;> rfl

theorem inst_var_of_some {σ : Assignment} {x : Name} {s : Ty} (h : σ x = some s) :
    (var x).inst σ = s := by
  show (σ x).getD (var x) = s
  rw [h, Option.getD_some]

theorem inst_var_of_none {σ : Assignment} {x : Name} (h : σ x = none) :
    (var x).inst σ = var x := by
  show (σ x).getD (var x) = var x
  rw [h, Option.getD_none]

theorem instRow_eq_self {σ : Assignment} {ps : Row} (h : ∀ p ∈ ps, p.2.inst σ = p.2) :
    instRow σ ps = ps := by
  refine Row.induct ps h rfl fun p ps hp ih => ?_
  show (p.1, p.2.inst σ) :: instRow σ ps = p :: ps
  rw [hp, ih]

theorem inst_none (t : Ty) : t.inst .none = t := by
  induction t with
  | boolean => rfl
  | number => rfl
  | func ps r hps hr =>
    show func (instRow .none ps) (r.inst .none) = func ps r
    rw [instRow_eq_self hps, hr]
  | object ps hps => exact congrArg object (instRow_eq_self hps)
  | var x => rfl
  | mu x b hb =>
    show mu x (b.inst (Assignment.none.hide x)) = mu x b
    rw [Assignment.hide_none, hb]

theorem substRow_instRow {σ τ : Assignment} {ps : Row} {x : Name} {s : Ty}
    (h : ∀ p ∈ ps, (p.2.inst σ).subst x s = p.2.inst τ) :
    substRow (instRow σ ps) x s = instRow τ ps := by
  rw [substRow_eq_map, instRow_eq_map, instRow_eq_map, List.map_map]
  exact List.map_congr_left fun p hp => congrArg (Prod.mk p.1) (h p hp)

/-- a type put in for a variable that has none yet is one more assigned type, as no type given
before has the variable free -/
theorem subst_inst {names : List Name} {σ : Assignment} (hσ : σ.Within names) (t : Ty) {x : Name}
    (hx : x ∉ names) (s : Ty) : (t.inst (σ.hide x)).subst x s = t.inst (σ.set x s) := by
  induction t generalizing σ with
  | boolean => rfl
  | number => rfl
  | func ps r hps hr =>
    show func (substRow (instRow (σ.hide x) ps) x s) ((r.inst (σ.hide x)).subst x s) = _
    rw [substRow_instRow fun p hp => hps p hp hσ, hr hσ]
    rfl
  | object ps hps => exact congrArg object (substRow_instRow fun p hp => hps p hp hσ)
  | var y =>
    by_cases e : y = x
    · rw [e, inst_var_of_none (σ.hide_self x), inst_var_of_some (σ.set_self x s), subst_var_self]
    · cases h : σ y with
      | none =>
        rw [inst_var_of_none (by rw [σ.hide_of_ne e, h]),
          inst_var_of_none (by rw [σ.set_of_ne e, h]), subst_var_of_ne e]
      | some u =>
        rw [inst_var_of_some (by rw [σ.hide_of_ne e, h]),
          inst_var_of_some (by rw [σ.set_of_ne e, h]),
          subst_of_not_mem_freeVars s fun hu => hx (hσ y u h x hu)]
  | mu y b hb =>
    show (mu y (b.inst ((σ.hide x).hide y))).subst x s = mu y (b.inst ((σ.set x s).hide y))
    by_cases e : y = x
    · rw [e, subst_mu_self, σ.hide_hide, σ.hide_set]
    · rw [subst_mu_of_ne e, σ.hide_comm, hb (hσ.hide y), σ.hide_set_of_ne (Ne.symm e)]

theorem subst_eq_inst (t : Ty) (x : Name) (s : Ty) : t.subst x s = t.inst (.set .none x s) := by
  have hnone : Assignment.none.Within [] := .none
  rw [← subst_inst hnone t List.not_mem_nil, Assignment.hide_none, inst_none]

theorem mem_freeVars_inst {names : List Name} {σ : Assignment} (hσ : σ.Within names) {t : Ty}
    {y : Name} (h : y ∈ (t.inst σ).freeVars) : y ∈ t.freeVars ∧ σ y = none ∨ y ∈ names := by
  induction t generalizing σ with
  | boolean => exact absurd h List.not_mem_nil
  | number => exact absurd h List.not_mem_nil
  | func ps r hps hr =>
    rw [mem_freeVars_func]
    rcases mem_freeVars_func.mp h with ⟨p, hp, hy⟩ | hy
    · obtain ⟨q, hq, rfl⟩ := mem_instRow.mp hp
      exact (hps q hq hσ hy).imp_left fun h => ⟨.inl ⟨q, hq, h.1⟩, h.2⟩
    · exact (hr hσ hy).imp_left fun h => ⟨.inr h.1, h.2⟩
  | object ps hps =>
    obtain ⟨p, hp, hy⟩ := mem_freeVars_object.mp h
    obtain ⟨q, hq, rfl⟩ := mem_instRow.mp hp
    exact (hps q hq hσ hy).imp_left fun h => ⟨mem_freeVars_object.mpr ⟨q, hq, h.1⟩, h.2⟩
  | var x =>
    cases hx : σ x with
    | none =>
      rw [inst_var_of_none hx] at h
      exact .inl ⟨h, by rw [mem_freeVars_var.mp h, hx]⟩
    | some s =>
      rw [inst_var_of_some hx] at h
      exact .inr (hσ x s hx y h)
  | mu x b hb =>
    have h := mem_freeVars_mu.mp h
    refine (hb (hσ.hide x) h.1).imp_left fun ⟨h1, h2⟩ => ?_
    rw [σ.hide_of_ne h.2] at h2
    exact ⟨mem_freeVars_mu.mpr ⟨h1, h.2⟩, h2⟩

/-- a type all of whose other free variables are given a type -/
theorem mem_of_mem_freeVars_inst {names : List Name} {σ : Assignment} (hσ : σ.Within names)
    {t : Ty} (ht : ∀ y ∈ t.freeVars, y ∈ names ∨ (σ y).isSome) :
    ∀ y ∈ (t.inst σ).freeVars, y ∈ names := by
  intro y hy
  rcases mem_freeVars_inst hσ hy with ⟨h1, h2⟩ | hy
  · rcases ht y h1 with hy | hs
    · exact hy
    · rw [h2] at hs
      exact Bool.noConfusion hs
  · exact hy

end Equirec.Ty
