import Mathlib.Logic.Function.Iterate
import Equirec.Proofs.Ty.Distinct

/-!
# What a type unfolds to

Behind the binders in front of a type stands a variable or the constructor of its head form.  If it
is a variable of one of these binders, the type spins: it unfolds for ever without coming to a
constructor.

* `Ty.spins`                        the test for it, under outer binders
* `Ty.isUnguarded_eq_spins`         the types that spin are those without a head form
* `Ty.isUnguarded_iff`              no number of unfoldings brings up a constructor
* `Ty.headForm_of_not_spins`        any other type takes one unfolding for each binder in front
* `Ty.exists_repeat_of_spins`       a type that spins comes back within as many unfoldings
* `Ty.Settles`, `Ty.settles_headForm`
                                    unfolding without any bound, until no `mu` stands in front or
                                    a type comes up again, ends at the head form
-/

namespace Equirec.Ty

/-! ## the variable behind the binders -/

/-- whether the type is a chain of binders with a variable of theirs, or of the outer ones, at its
end -/
def spins : List Name → Ty → Bool
  | bound, mu x b => spins (x :: bound) b
  | bound, var x => bound.contains x
  | _, _ => false

theorem spins_mu (bound : List Name) (x : Name) (b : Ty) :
    spins bound (mu x b) = spins (x :: bound) b := rfl

theorem spins_var (bound : List Name) (x : Name) : spins bound (var x) = bound.contains x := rfl

theorem spins_mono {bound outer : List Name} (h : ∀ y ∈ bound, y ∈ outer) {t : Ty}
    (ht : spins bound t = true) : spins outer t = true := by
  induction t generalizing bound outer with
  | var y =>
    rw [spins_var, List.contains_iff_mem] at ht ⊢
    exact h y ht
  | mu x b ih =>
    refine ih (fun y hy => ?_) ht
    rcases List.mem_cons.mp hy with rfl | hy
    · exact List.mem_cons_self ..
    · exact List.mem_cons_of_mem _ (h y hy)
  | _ => exact ht

theorem spins_congr {bound outer : List Name} (h : ∀ y, y ∈ bound ↔ y ∈ outer) (t : Ty) :
    spins bound t = spins outer t := by
  rw [Bool.eq_iff_iff]
  exact ⟨spins_mono fun y => (h y).mp, spins_mono fun y => (h y).mpr⟩

theorem spins_swap (x y : Name) (bound : List Name) (t : Ty) :
    spins (x :: y :: bound) t = spins (y :: x :: bound) t :=
  spins_congr (fun z => by simp only [List.mem_cons]; exact or_left_comm) t

theorem spins_twice (x : Name) (bound : List Name) (t : Ty) :
    spins (x :: x :: bound) t = spins (x :: bound) t :=
  spins_congr (fun z => by simp only [List.mem_cons, or_self_left]) t

/-- the variable at the end is one of the outer names if it is the first of them or one of the
rest -/
theorem spins_cons (y : Name) (bound : List Name) (t : Ty) :
    spins (y :: bound) t = (spins [y] t || spins bound t) := by
  induction t generalizing bound with
  | var x => simp only [spins_var, List.contains_cons, List.contains_nil, Bool.or_false]
  | mu x b ih =>
    have hx := ih (x :: bound)
    have hy := ih [x]
    rw [spins_mu, spins_mu, spins_mu, spins_swap, hx, spins_swap x y, hy]
    cases h : spins [x] b
    · rw [Bool.or_false]
    · have hb : spins (x :: bound) b = true :=
        spins_mono (fun z hz => by rw [List.mem_singleton.mp hz]; exact List.mem_cons_self ..) h
      rw [hb, Bool.or_true, Bool.or_true]
  | _ => rfl

theorem isMu_of_spins {t : Ty} (h : spins [] t = true) : t.isMu = true := by
  cases t with
  | mu x b => rfl
  | var x => exact absurd h (by simp [spins])
  | _ => exact absurd h (by simp [spins])

theorem mem_of_spins {bound : List Name} {t : Ty} (h : spins bound t = true) :
    ∀ y ∈ t.freeVars, y ∈ bound := by
  induction t generalizing bound with
  | var x =>
    intro y hy
    rw [mem_freeVars_var.mp hy]
    exact List.contains_iff_mem.mp h
  | mu x b ih =>
    intro y hy
    obtain ⟨hb, hne⟩ := mem_freeVars_mu.mp hy
    rcases List.mem_cons.mp (ih h y hb) with e | hm
    · exact absurd e hne
    · exact hm
  | _ => exact absurd h (by simp [spins])

theorem closed_of_spins {t : Ty} (h : spins [] t = true) : t.Closed :=
  closed_iff.mpr fun y hy => absurd (mem_of_spins h y hy) List.not_mem_nil

/-! ## substitution and unfolding -/

theorem spins_subst {b s : Ty} {x : Name} {bound : List Name} (hb : spins (x :: bound) b = true)
    (hs : spins [] s = true) : spins bound (b.subst x s) = true := by
  induction b generalizing bound with
  | var y =>
    by_cases e : y = x
    · rw [e, subst_var_self]
      exact spins_mono (fun y hy => absurd hy List.not_mem_nil) hs
    · rw [subst_var_of_ne e, spins_var, List.contains_iff_mem]
      exact List.mem_of_ne_of_mem e (List.contains_iff_mem.mp hb)
  | mu y c ih =>
    by_cases e : y = x
    · subst e
      rw [spins_mu, spins_twice] at hb
      rw [subst_mu_self]
      exact hb
    · rw [spins_mu, spins_swap] at hb
      rw [subst_mu_of_ne e]
      exact ih hb
  | _ => exact hb

theorem subst_of_not_spins {b : Ty} {x : Name} {bound : List Name} (s : Ty)
    (hb : spins (x :: bound) b = false) :
    (b.subst x s).binders = b.binders ∧ spins bound (b.subst x s) = false := by
  induction b generalizing bound with
  | var y =>
    rw [spins_var] at hb
    have hy : y ∉ x :: bound := fun h => by
      rw [List.contains_iff_mem.mpr h] at hb
      exact Bool.noConfusion hb
    obtain ⟨hne, hm⟩ := not_or.mp fun h => hy (List.mem_cons.mpr h)
    rw [subst_var_of_ne hne, spins_var]
    exact ⟨rfl, by simpa using hm⟩
  | mu y c ih =>
    by_cases e : y = x
    · subst e
      rw [spins_mu, spins_twice] at hb
      rw [subst_mu_self]
      exact ⟨rfl, hb⟩
    · rw [spins_mu, spins_swap] at hb
      rw [subst_mu_of_ne e]
      obtain ⟨h1, h2⟩ := ih hb
      exact ⟨by rw [binders, binders, h1], h2⟩
  | _ => exact ⟨rfl, rfl⟩

theorem spins_unfold {t : Ty} (h : spins [] t = true) : spins [] t.unfold = true := by
  cases t with
  | mu x b => exact spins_subst (show spins [x] b = true from h) h
  | _ => exact h

theorem unfold_of_not_spins {x : Name} {b : Ty} (h : spins [] (mu x b) = false) :
    (mu x b).unfold.binders = b.binders ∧ spins [] (mu x b).unfold = false :=
  subst_of_not_spins (mu x b) h

theorem isMu_of_binders_eq_zero {t : Ty} (h : t.binders = 0) : t.isMu = false := by
  cases t with
  | mu x b => exact absurd h (Nat.succ_ne_zero _)
  | _ => rfl

/-! ## types that do not spin -/

theorem isMu_iterate_of_not_spins {t : Ty} (h : spins [] t = false) :
    (unfold^[t.binders] t).isMu = false := by
  generalize hn : t.binders = n
  induction n generalizing t with
  | zero => exact isMu_of_binders_eq_zero hn
  | succ n ih =>
    cases t with
    | mu x b =>
      obtain ⟨h1, h2⟩ := unfold_of_not_spins h
      rw [Function.iterate_succ_apply]
      exact ih h2 (by rw [h1]; exact Nat.succ.inj hn)
    | _ => exact absurd hn (Nat.succ_ne_zero n).symm

/-- types met before do not stop the unfolding: they have more binders in front -/
theorem headFrom_of_not_spins {t : Ty} (h : spins [] t = false) {met : List Ty}
    (hmet : ∀ m ∈ met, t.binders < m.binders) :
    headFrom t.binders met t = unfold^[t.binders] t := by
  generalize hn : t.binders = n
  induction n generalizing t met with
  | zero => rfl
  | succ n ih =>
    cases t with
    | mu x b =>
      obtain ⟨h1, h2⟩ := unfold_of_not_spins h
      have hb : (mu x b).unfold.binders = n := by rw [h1]; exact Nat.succ.inj hn
      have hnot : met.contains (mu x b) = false := by
        rw [Bool.eq_false_iff]
        intro hc
        exact Nat.lt_irrefl _ (hmet _ (List.contains_iff_mem.mp hc))
      have hmet' : ∀ m ∈ mu x b :: met, (mu x b).unfold.binders < m.binders := by
        intro m hm
        rcases List.mem_cons.mp hm with rfl | hm
        · omega
        · have := hmet m hm
          omega
      rw [headFrom, hnot, Function.iterate_succ_apply]
      exact ih h2 hmet' hb
    | _ => exact absurd hn (Nat.succ_ne_zero n).symm

theorem headForm_of_not_spins {t : Ty} (h : spins [] t = false) :
    t.headForm = unfold^[t.binders] t :=
  headFrom_of_not_spins h fun _ hm => absurd hm List.not_mem_nil

theorem headForm_unfold_of_not_spins {t : Ty} (h : spins [] t = false) :
    t.unfold.headForm = t.headForm := by
  cases t with
  | mu x b =>
    obtain ⟨hb, hs⟩ := unfold_of_not_spins h
    rw [headForm_of_not_spins hs, headForm_of_not_spins h, hb]
    rfl
  | _ => rfl

/-- the types without a head form are those that spin -/
theorem isUnguarded_eq_spins (t : Ty) : t.isUnguarded = spins [] t := by
  rw [isUnguarded]
  cases h : spins [] t
  · rw [headForm_of_not_spins h]
    exact isMu_iterate_of_not_spins h
  · exact isMu_of_spins (headForm_induction (P := fun t => spins [] t = true)
      (fun _ h => spins_unfold h) h)

/-- no number of unfoldings comes to a constructor -/
theorem isUnguarded_iff {t : Ty} : t.isUnguarded = true ↔ ∀ n, (unfold^[n] t).isMu = true := by
  rw [isUnguarded_eq_spins]
  constructor
  · intro h n
    induction n generalizing t with
    | zero => exact isMu_of_spins h
    | succ n ih =>
      rw [Function.iterate_succ_apply]
      exact ih (spins_unfold h)
  · intro h
    cases hs : spins [] t with
    | true => rfl
    | false => exact absurd (h t.binders) (by simp [isMu_iterate_of_not_spins hs])

/-! ## types that spin -/

/-- the binders in front of the variable drop one after the other, and what was put in for it is
left -/
theorem iterate_unfold_subst {b s : Ty} {x : Name} (hx : spins [x] b = true)
    (hn : spins [] b = false) (hs : s.Closed) : unfold^[b.binders] (b.subst x s) = s := by
  induction b with
  | var y =>
    have e : y = x := List.mem_singleton.mp (List.contains_iff_mem.mp hx)
    rw [e]
    exact subst_var_self x s
  | mu y c ih =>
    have e : y ≠ x := by
      intro e
      subst e
      rw [spins_mu, spins_twice] at hx
      rw [spins_mu, hx] at hn
      exact Bool.noConfusion hn
    rw [spins_mu] at hn
    rw [spins_mu, spins_cons, hn, Bool.false_or] at hx
    have hc : spins [] c = false := by
      rw [Bool.eq_false_iff]
      intro h
      rw [spins_mono (fun z hz => absurd hz List.not_mem_nil) h] at hn
      exact Bool.noConfusion hn
    have hfree : y ∉ (c.subst x s).freeVars := by
      intro h
      rcases mem_freeVars_subst h with ⟨h, hne⟩ | h
      · exact hne (List.mem_singleton.mp (mem_of_spins hx y h))
      · exact hs.not_mem y h
    rw [subst_mu_of_ne e, binders, Function.iterate_succ_apply, unfold_mu,
      subst_of_not_mem_freeVars _ hfree]
    exact ih hx hc
  | _ => exact absurd hx (by simp [spins])

/-- a type that spins comes back to a type met before, after as many unfoldings as it has binders
in front or earlier -/
theorem exists_repeat_of_spins {t : Ty} (h : spins [] t = true) :
    ∃ i j, i < j ∧ j ≤ t.binders ∧ unfold^[i] t = unfold^[j] t := by
  induction t with
  | mu x b ih =>
    cases hb : spins [] b
    · -- the variable is the outermost binder's: the whole type comes back
      refine ⟨0, b.binders + 1, Nat.succ_pos _, Nat.le_refl _, ?_⟩
      rw [Function.iterate_succ_apply, unfold_mu, iterate_unfold_subst h hb (closed_of_spins h)]
      rfl
    · -- the body is closed: the first unfolding only drops the binder
      obtain ⟨i, j, hij, hj, e⟩ := ih hb
      refine ⟨i + 1, j + 1, Nat.succ_lt_succ hij, Nat.succ_le_succ hj, ?_⟩
      rw [Function.iterate_succ_apply, Function.iterate_succ_apply, unfold_mu,
        (closed_of_spins hb).subst_eq]
      exact e
  | _ => exact absurd h (by simp [spins])

/-! ## unfolding without a bound -/

/-- `Settles met t h`: unfolding `t` ends at `h`, which has no `mu` in front or is the first type
that was met before -/
inductive Settles : List Ty → Ty → Ty → Prop
  | head {met : List Ty} {t : Ty} (h : t.isMu = false) : Settles met t t
  | back {met : List Ty} {t : Ty} (h : t.isMu = true) (hm : t ∈ met) : Settles met t t
  | turn {met : List Ty} {t u : Ty} (h : t.isMu = true) (hm : t ∉ met)
      (rest : Settles (t :: met) t.unfold u) : Settles met t u

theorem Settles.unique {met : List Ty} {t u v : Ty} (hu : Settles met t u)
    (hv : Settles met t v) : u = v := by
  induction hu with
  | head h =>
    cases hv with
    | head _ => rfl
    | back h' _ => rfl
    | turn h' _ _ => rw [h] at h'; exact Bool.noConfusion h'
  | back h hm =>
    cases hv with
    | head _ => rfl
    | back _ _ => rfl
    | turn _ hm' _ => exact absurd hm hm'
  | turn h hm _ ih =>
    cases hv with
    | head h' => rw [h] at h'; exact Bool.noConfusion h'
    | back _ hm' => exact absurd hm' hm
    | turn _ _ rest => exact ih rest

/-- the unfoldings that are allowed are enough if they lead to a constructor or to a type met
before -/
theorem settles_headFrom {n : Nat} {met : List Ty} {t : Ty}
    (h : ∃ j ≤ n, (unfold^[j] t).isMu = false ∨ unfold^[j] t ∈ met ∨
      ∃ i < j, unfold^[i] t = unfold^[j] t) : Settles met t (headFrom n met t) := by
  induction n generalizing met t with
  | zero =>
    obtain ⟨j, hj, h⟩ := h
    obtain rfl : j = 0 := Nat.le_zero.mp hj
    rcases h with h | h | ⟨i, hi, _⟩
    · exact .head h
    · cases ht : t.isMu
      · exact .head ht
      · exact .back ht h
    · exact absurd hi (Nat.not_lt_zero i)
  | succ n ih =>
    cases ht : t.isMu
    · rw [headFrom_of_not_isMu ht]
      exact .head ht
    · by_cases hm : t ∈ met
      · rw [headFrom, ht, List.contains_iff_mem.mpr hm]
        exact .back ht hm
      · have hc : met.contains t = false := by simpa using hm
        rw [headFrom, ht, hc]
        refine .turn ht hm (ih ?_)
        obtain ⟨j, hj, h⟩ := h
        cases j with
        | zero =>
          rcases h with h | h | ⟨i, hi, _⟩
          · rw [show unfold^[0] t = t from rfl, ht] at h
            exact Bool.noConfusion h
          · exact absurd h hm
          · exact absurd hi (Nat.not_lt_zero i)
        | succ j =>
          refine ⟨j, Nat.le_of_succ_le_succ hj, ?_⟩
          rw [Function.iterate_succ_apply] at h
          rcases h with h | h | ⟨i, hi, e⟩
          · exact .inl h
          · exact .inr (.inl (List.mem_cons_of_mem _ h))
          · cases i with
            | zero => exact .inr (.inl (List.mem_cons.mpr (.inl e.symm)))
            | succ i =>
              rw [Function.iterate_succ_apply] at e
              exact .inr (.inr ⟨i, Nat.lt_of_succ_lt_succ hi, e⟩)

/-- as many unfoldings as there are binders in front are enough -/
theorem settles_headForm (t : Ty) : Settles [] t t.headForm := by
  refine settles_headFrom ?_
  cases h : spins [] t
  · exact ⟨t.binders, Nat.le_refl _, .inl (isMu_iterate_of_not_spins h)⟩
  · obtain ⟨i, j, hij, hj, e⟩ := exists_repeat_of_spins h
    exact ⟨j, hj, .inr (.inr ⟨i, hij, e⟩)⟩

theorem settles_iff {t u : Ty} : Settles [] t u ↔ u = t.headForm :=
  ⟨fun h => h.unique (settles_headForm t), fun h => h ▸ settles_headForm t⟩

end Equirec.Ty
