import Equirec.Ty.Subst
import Equirec.Ty.Scope

/-!
# Closed types

* `Row.induct`                    induction on a row with something known of its members
* `Ty.mem_freeVars_subst`         what can be free after a substitution
* `Ty.subst_of_not_mem_freeVars`  a variable that is not free can be replaced by anything
* `Ty.Closed.unfold`              the unfolding of a closed type is closed
* `Ty.firstFree_eq_find?`         the leftmost variable that is not bound, read off the free ones
* `Ty.validate_eq_ok_iff`         the types that are not refused are the closed ones
-/

namespace Equirec

/-- induction on a row whose members are known to be of some sort -/
@[elab_as_elim]
theorem Row.induct {P : Row → Prop} {Q : Name × Ty → Prop} (ps : Row) (h : ∀ p ∈ ps, Q p)
    (nil : P []) (cons : ∀ p ps, Q p → P ps → P (p :: ps)) : P ps := by
  induction ps with
  | nil => exact nil
  | cons p ps ih =>
    obtain ⟨hp, hps⟩ := List.forall_mem_cons.mp h
    exact cons p ps hp (ih hps)

namespace Ty

/-! ## free variables by shape -/

theorem mem_freeVarsRow {ps : Row} {y : Name} :
    y ∈ freeVarsRow ps ↔ ∃ p ∈ ps, y ∈ p.2.freeVars := by
  rw [freeVarsRow_eq_flatMap, List.mem_flatMap]

theorem mem_freeVars_func {ps : Row} {r : Ty} {y : Name} :
    y ∈ (func ps r).freeVars ↔ (∃ p ∈ ps, y ∈ p.2.freeVars) ∨ y ∈ r.freeVars := by
  show y ∈ freeVarsRow ps ++ r.freeVars ↔ _
  rw [List.mem_append, mem_freeVarsRow]

theorem mem_freeVars_object {ps : Row} {y : Name} :
    y ∈ (object ps).freeVars ↔ ∃ p ∈ ps, y ∈ p.2.freeVars :=
  mem_freeVarsRow

theorem mem_freeVars_var {x y : Name} : y ∈ (var x).freeVars ↔ y = x :=
  List.mem_singleton

theorem mem_freeVars_mu {x y : Name} {b : Ty} :
    y ∈ (mu x b).freeVars ↔ y ∈ b.freeVars ∧ y ≠ x := by
  show y ∈ b.freeVars.filter (· != x) ↔ _
  rw [List.mem_filter, bne_iff_ne]

/-! ## substitution -/

theorem mem_substRow {ps : Row} {x : Name} {s : Ty} {p : Name × Ty} :
    p ∈ substRow ps x s ↔ ∃ q ∈ ps, (q.1, q.2.subst x s) = p := by
  rw [substRow_eq_map, List.mem_map]

theorem subst_var_self (x : Name) (s : Ty) : (var x).subst x s = s := if_pos rfl

theorem subst_var_of_ne {x y : Name} (h : y ≠ x) (s : Ty) : (var y).subst x s = var y := if_neg h

theorem subst_mu_self (x : Name) (b s : Ty) : (mu x b).subst x s = mu x b := if_pos rfl

theorem subst_mu_of_ne {x y : Name} (h : y ≠ x) (b s : Ty) :
    (mu y b).subst x s = mu y (b.subst x s) :=
  if_neg h

/-- whatever is free after a substitution was free in the type, or is free in the type put in -/
theorem mem_freeVars_subst {t s : Ty} {x y : Name} (h : y ∈ (t.subst x s).freeVars) :
    (y ∈ t.freeVars ∧ y ≠ x) ∨ y ∈ s.freeVars := by
  induction t with
  | boolean => exact absurd h List.not_mem_nil
  | number => exact absurd h List.not_mem_nil
  | func ps r hps hr =>
    rcases mem_freeVars_func.mp h with ⟨p, hp, hy⟩ | hy
    · obtain ⟨q, hq, rfl⟩ := mem_substRow.mp hp
      rcases hps q hq hy with h | h
      · exact .inl ⟨mem_freeVars_func.mpr (.inl ⟨q, hq, h.1⟩), h.2⟩
      · exact .inr h
    · rcases hr hy with h | h
      · exact .inl ⟨mem_freeVars_func.mpr (.inr h.1), h.2⟩
      · exact .inr h
  | object ps hps =>
    obtain ⟨p, hp, hy⟩ := mem_freeVars_object.mp h
    obtain ⟨q, hq, rfl⟩ := mem_substRow.mp hp
    rcases hps q hq hy with h | h
    · exact .inl ⟨mem_freeVars_object.mpr ⟨q, hq, h.1⟩, h.2⟩
    · exact .inr h
  | var z =>
    by_cases e : z = x
    · rw [e, subst_var_self] at h
      exact .inr h
    · rw [subst_var_of_ne e] at h
      exact .inl ⟨h, by rw [mem_freeVars_var.mp h]; exact e⟩
  | mu z b hb =>
    by_cases e : z = x
    · subst e
      rw [subst_mu_self] at h
      exact .inl ⟨h, (mem_freeVars_mu.mp h).2⟩
    · rw [subst_mu_of_ne e, mem_freeVars_mu] at h
      rcases hb h.1 with h' | h'
      · exact .inl ⟨mem_freeVars_mu.mpr ⟨h'.1, h.2⟩, h'.2⟩
      · exact .inr h'

theorem substRow_eq_self {ps : Row} {x : Name} {s : Ty} (h : ∀ p ∈ ps, p.2.subst x s = p.2) :
    substRow ps x s = ps := by
  refine Row.induct ps h rfl fun p ps hp ih => ?_
  show (p.1, p.2.subst x s) :: substRow ps x s = p :: ps
  rw [hp, ih]

theorem subst_of_not_mem_freeVars {t : Ty} {x : Name} (s : Ty) (h : x ∉ t.freeVars) :
    t.subst x s = t := by
  induction t with
  | boolean => rfl
  | number => rfl
  | func ps r hps hr =>
    rw [mem_freeVars_func, not_or] at h
    show func (substRow ps x s) (r.subst x s) = func ps r
    rw [substRow_eq_self fun p hp => hps p hp fun hx => h.1 ⟨p, hp, hx⟩, hr h.2]
  | object ps hps =>
    rw [mem_freeVars_object] at h
    show object (substRow ps x s) = object ps
    rw [substRow_eq_self fun p hp => hps p hp fun hx => h ⟨p, hp, hx⟩]
  | var y => exact subst_var_of_ne (fun e => h (mem_freeVars_var.mpr e.symm)) s
  | mu y b hb =>
    by_cases e : y = x
    · rw [e, subst_mu_self]
    · have hx : x ∉ b.freeVars := fun hx => h (mem_freeVars_mu.mpr ⟨hx, Ne.symm e⟩)
      rw [subst_mu_of_ne e, hb hx]

/-! ## closed types -/

theorem closed_iff {t : Ty} : t.Closed ↔ ∀ y, y ∉ t.freeVars :=
  List.eq_nil_iff_forall_not_mem

theorem Closed.not_mem {t : Ty} (h : t.Closed) (y : Name) : y ∉ t.freeVars := closed_iff.mp h y

theorem Closed.subst_eq {t : Ty} (h : t.Closed) (x : Name) (s : Ty) : t.subst x s = t :=
  subst_of_not_mem_freeVars s (h.not_mem x)

theorem closed_func {ps : Row} {r : Ty} :
    (func ps r).Closed ↔ (∀ p ∈ ps, p.2.Closed) ∧ r.Closed := by
  simp only [closed_iff, mem_freeVars_func, not_or, not_exists, not_and]
  exact ⟨fun h => ⟨fun p hp y => (h y).1 p hp, fun y => (h y).2⟩,
    fun h y => ⟨fun p hp => h.1 p hp y, h.2 y⟩⟩

theorem closed_object {ps : Row} : (object ps).Closed ↔ ∀ p ∈ ps, p.2.Closed := by
  simp only [closed_iff, mem_freeVars_object, not_exists, not_and]
  exact ⟨fun h p hp y => h y p hp, fun h y p hp => h p hp y⟩

theorem not_closed_var (x : Name) : ¬ (var x).Closed := fun h =>
  h.not_mem x (mem_freeVars_var.mpr rfl)

theorem Closed.mem_body {x y : Name} {b : Ty} (h : (mu x b).Closed) (hy : y ∈ b.freeVars) :
    y = x :=
  Decidable.byContradiction fun e => h.not_mem y (mem_freeVars_mu.mpr ⟨hy, e⟩)

theorem mem_freeVars_unfold {t : Ty} {y : Name} (h : y ∈ t.unfold.freeVars) : y ∈ t.freeVars := by
  cases t with
  | mu x b =>
    rw [unfold_mu] at h
    rcases mem_freeVars_subst h with h | h
    · exact mem_freeVars_mu.mpr h
    · exact h
  | _ => exact h

theorem Closed.unfold {t : Ty} (h : t.Closed) : t.unfold.Closed :=
  closed_iff.mpr fun y hy => h.not_mem y (mem_freeVars_unfold hy)

/-! ## refused types -/

theorem firstFreeRow_eq_find? {ps : Row} {bound : List Name}
    (h : ∀ p ∈ ps, firstFree bound p.2 = p.2.freeVars.find? fun y => !bound.contains y) :
    firstFreeRow bound ps = (freeVarsRow ps).find? fun y => !bound.contains y := by
  refine Row.induct ps h rfl fun p ps hp ih => ?_
  show (firstFree bound p.2 <|> firstFreeRow bound ps) = (p.2.freeVars ++ freeVarsRow ps).find? _
  rw [List.find?_append, hp, ih, Option.orElse_eq_orElse, Option.orElse_eq_or]

/-- the leftmost variable that is not bound is the first of the free ones that no outer name
binds -/
theorem firstFree_eq_find? (t : Ty) (bound : List Name) :
    firstFree bound t = t.freeVars.find? fun y => !bound.contains y := by
  induction t generalizing bound with
  | boolean => rfl
  | number => rfl
  | func ps r hps hr =>
    show (firstFreeRow bound ps <|> firstFree bound r) = (freeVarsRow ps ++ r.freeVars).find? _
    rw [List.find?_append, firstFreeRow_eq_find? fun p hp => hps p hp bound,
      hr, Option.orElse_eq_orElse, Option.orElse_eq_or]
  | object ps hps => exact firstFreeRow_eq_find? fun p hp => hps p hp bound
  | var x =>
    show (if bound.contains x then none else some x) = [x].find? _
    rw [List.find?_singleton]
    cases bound.contains x <;> rfl
  | mu x b hb =>
    show firstFree (x :: bound) b = (b.freeVars.filter (· != x)).find? _
    rw [List.find?_filter, hb]
    congr 1
    funext y
    rw [List.contains_cons, Bool.not_or, Bool.decide_and]
    simp only [bne, Bool.decide_eq_true]

theorem firstFree_nil (t : Ty) : firstFree [] t = t.freeVars.head? := by
  rw [firstFree_eq_find?]
  cases t.freeVars <;> rfl

theorem validate_eq_ok_iff {t : Ty} : t.validate = .ok () ↔ t.Closed := by
  rw [validate, firstFree_nil, Closed]
  cases t.freeVars with
  | nil => simp
  | cons y ys => simp

end Ty

end Equirec
