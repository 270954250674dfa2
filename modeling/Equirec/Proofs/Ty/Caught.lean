import Mathlib.Algebra.Group.Nat.Defs
import Mathlib.Data.Finset.Card
import Mathlib.Data.Finset.Dedup
import Equirec.Comparison
import Equirec.Proofs.Ty.Regular

/-!
# The types that an open type leads to

A type with free variables leads to its nodes until a `mu` is turned that has the name of one of
them.  This `mu` may catch the variable in copies that were put in below it, and what it leads to
is no node of the type any more.  But the variable is not free in it, so this happens at most once
for each free variable, and there are only finitely many types on all ways together.

* `Ty.size_le_of_mem_nodes`     how large the nodes of a type are
* `Ty.freeCount`                the number of variables that are free in a type
* `Ty.freeCount_lt_of_held`     a node that may catch a variable has fewer of them
* `Ty.reach`                    the nodes of a type, the nodes of those that may catch a variable,
                                and so on
* `Ty.mem_reach_of_leads`       they lead to each other only
* `Ty.length_reach_le`, `Ty.depth_le_of_mem_reach`
                                `Comparison.typesWithin` bounds their number and their layers
-/

namespace Equirec

namespace Ty

/-! ## the size of the nodes -/

theorem sizeRow_instRow_le {σ : Assignment} {w : Nat} {ps : Row}
    (h : ∀ p ∈ ps, (p.2.inst σ).size ≤ p.2.size * w) : sizeRow (instRow σ ps) ≤ sizeRow ps * w := by
  refine Row.induct ps h (Nat.zero_le _) fun p ps hp ih => ?_
  show (p.2.inst σ).size + sizeRow (instRow σ ps) ≤ (p.2.size + sizeRow ps) * w
  rw [Nat.add_mul]
  exact Nat.add_le_add hp ih

theorem size_inst_le {σ : Assignment} {w : Nat} (hw : 0 < w)
    (hσ : ∀ x s, σ x = some s → s.size ≤ w) (t : Ty) : (t.inst σ).size ≤ t.size * w := by
  induction t generalizing σ with
  | boolean => exact Nat.le_mul_of_pos_right 1 hw
  | number => exact Nat.le_mul_of_pos_right 1 hw
  | func ps r hps hr =>
    show sizeRow (instRow σ ps) + (r.inst σ).size + 1 ≤ (sizeRow ps + r.size + 1) * w
    have hrow := sizeRow_instRow_le fun p hp => hps p hp hσ
    have hres := hr hσ
    rw [Nat.add_mul, Nat.add_mul]
    omega
  | object ps hps =>
    show sizeRow (instRow σ ps) + 1 ≤ (sizeRow ps + 1) * w
    have hrow := sizeRow_instRow_le fun p hp => hps p hp hσ
    rw [Nat.add_mul]
    omega
  | var x =>
    cases hx : σ x with
    | none =>
      rw [inst_var_of_none hx]
      exact Nat.le_mul_of_pos_right 1 hw
    | some s =>
      rw [inst_var_of_some hx]
      exact Nat.le_trans (hσ x s hx) (Nat.le_mul_of_pos_left w (size_pos _))
  | mu x b hb =>
    show (b.inst (σ.hide x)).size + 1 ≤ (b.size + 1) * w
    have hbody := hb (Assignment.forall_hide hσ x)
    rw [Nat.add_mul]
    omega

/-- the types put in get larger by one more factor with each binder that is passed -/
theorem size_le_of_mem_nodes {held : List Name} {t s : Ty} (hs : s ∈ t.nodes held .none) :
    s.size ≤ t.size ^ t.size := by
  have hpos : 0 < t.size := t.size_pos
  let P : Assignment → Ty → Prop := fun σ u =>
    ∃ j, u.size + j ≤ t.size ∧ ∀ x v, σ x = some v → v.size ≤ t.size ^ j
  have hstart : P .none t := ⟨0, Nat.le_refl _, Assignment.forall_none⟩
  have hpart : ∀ σ u v, u.isMu = false → Leads u v → P σ u → P σ v := by
    rintro σ u v hm hl ⟨j, hj, hσ⟩
    have := size_lt_of_leads hl hm
    exact ⟨j, by omega, hσ⟩
  have hinst : ∀ σ u, P σ u → ∃ j, u.size + j ≤ t.size ∧ (u.inst σ).size ≤ t.size ^ (j + 1) ∧
      ∀ x v, σ x = some v → v.size ≤ t.size ^ j := by
    rintro σ u ⟨j, hj, hσ⟩
    refine ⟨j, hj, Nat.le_trans (size_inst_le (Nat.pow_pos hpos) hσ u) ?_, hσ⟩
    rw [Nat.pow_succ']
    exact Nat.mul_le_mul_right _ (by omega)
  have hbody : ∀ σ x b, x ∉ held → P σ (mu x b) → P (σ.set x ((mu x b).inst σ)) b := by
    intro σ x b _ h
    obtain ⟨j, hj, hi, hσ⟩ := hinst σ _ h
    have hsize : (mu x b).size = b.size + 1 := rfl
    refine ⟨j + 1, by omega, Assignment.forall_set (fun y v hy => ?_) hi⟩
    exact Nat.le_trans (hσ y v hy) (Nat.pow_le_pow_right hpos (Nat.le_succ j))
  obtain ⟨τ, u, hu, rfl⟩ := exists_inst_of_mem_nodes hpart hbody hstart hs
  obtain ⟨j, hj, hi, _⟩ := hinst τ u hu
  have := u.size_pos
  exact Nat.le_trans hi (Nat.pow_le_pow_right hpos (by omega))

/-! ## variables that are caught -/

/-- how many variables are free in a type -/
def freeCount (t : Ty) : Nat := t.freeVars.toFinset.card

theorem freeCount_lt_of_held {t s : Ty} (hs : s ∈ t.nodes t.freeVars .none)
    (hh : s.Held t.freeVars) : s.freeCount < t.freeCount := by
  obtain ⟨x, hx, b, rfl⟩ := hh
  have hsub : (mu x b).freeVars.toFinset ⊆ t.freeVars.toFinset := by
    intro y hy
    rw [List.mem_toFinset] at hy ⊢
    exact mem_freeVars_of_mem_nodes (fun _ h => h) hs y hy
  refine Finset.card_lt_card (Finset.ssubset_iff_of_subset hsub |>.mpr ⟨x, ?_, fun h => ?_⟩)
  · exact List.mem_toFinset.mpr hx
  · exact (mem_freeVars_mu.mp (List.mem_toFinset.mp h)).2 rfl

/-- the types that a type leads to as at most `k` of its free variables are caught -/
def reach : Nat → Ty → List Ty
  | 0, t => t.nodes t.freeVars .none
  | k + 1, t =>
    t.nodes t.freeVars .none ++
      ((t.nodes t.freeVars .none).filter fun s => s.freeCount ≤ k).flatMap (reach k)

theorem nodes_subset_reach (k : Nat) {t s : Ty} (hs : s ∈ t.nodes t.freeVars .none) :
    s ∈ reach k t := by
  cases k with
  | zero => exact hs
  | succ k => exact List.mem_append_left _ hs

theorem mem_reach_succ {k : Nat} {t s : Ty} :
    s ∈ reach (k + 1) t ↔ s ∈ t.nodes t.freeVars .none ∨
      ∃ v ∈ t.nodes t.freeVars .none, v.freeCount ≤ k ∧ s ∈ reach k v := by
  show s ∈ _ ++ List.flatMap (reach k) _ ↔ _
  simp only [List.mem_append, List.mem_flatMap, List.mem_filter, decide_eq_true_eq, and_assoc]

/-- a node that may catch a variable has its own nodes among the types -/
theorem mem_reach_of_leads {k : Nat} {t s u : Ty} (ht : t.freeCount ≤ k) (hs : s ∈ reach k t)
    (hu : Leads s u) : u ∈ reach k t := by
  induction k generalizing t s with
  | zero =>
    rcases mem_nodes_or_held (fun _ h => h) hs hu with h | h
    · exact h
    · have := freeCount_lt_of_held hs h
      omega
  | succ k ih =>
    rcases mem_reach_succ.mp hs with hs | ⟨v, hv, hk, hs⟩
    · rcases mem_nodes_or_held (fun _ h => h) hs hu with h | h
      · exact nodes_subset_reach _ h
      · have hlt := freeCount_lt_of_held hs h
        have hk : s.freeCount ≤ k := by omega
        have hself : s ∈ reach k s := nodes_subset_reach k s.self_mem_nodes
        exact mem_reach_succ.mpr (.inr ⟨s, hs, hk, ih hk hself hu⟩)
    · exact mem_reach_succ.mpr (.inr ⟨v, hv, hk, ih hk hs hu⟩)

end Ty

/-! ## their number -/

namespace Comparison

theorem typesWithin_succ (k n : Nat) :
    typesWithin (k + 1) n = n + n * typesWithin k (n ^ n) := rfl

theorem le_typesWithin (k n : Nat) : n ≤ typesWithin k n := by
  cases k with
  | zero => exact Nat.le_refl n
  | succ k => exact Nat.le_add_right n _

theorem typesWithin_le_succ (k : Nat) {n : Nat} (hn : 0 < n) :
    typesWithin k (n ^ n) ≤ typesWithin (k + 1) n := by
  rw [typesWithin_succ]
  have := Nat.le_mul_of_pos_left (typesWithin k (n ^ n)) hn
  omega

theorem typesWithin_mono (k : Nat) : Monotone (typesWithin k) := by
  induction k with
  | zero => exact monotone_id
  | succ k ih =>
    intro m n h
    have hpow : m ^ m ≤ n ^ n := Nat.pow_self_mono h
    rw [typesWithin_succ, typesWithin_succ]
    exact Nat.add_le_add h (Nat.mul_le_mul h (ih hpow))

end Comparison

namespace Ty

open Comparison (typesWithin typesWithin_mono typesWithin_succ le_typesWithin typesWithin_le_succ)

theorem length_flatMap_le {f : Ty → List Ty} {ts : List Ty} {n : Nat}
    (h : ∀ t ∈ ts, (f t).length ≤ n) : (ts.flatMap f).length ≤ ts.length * n := by
  induction ts with
  | nil => exact Nat.zero_le _
  | cons t ts ih =>
    obtain ⟨ht, hts⟩ := List.forall_mem_cons.mp h
    have hrest := ih hts
    rw [List.flatMap_cons, List.length_append, List.length_cons, Nat.succ_mul]
    omega

theorem length_reach_le (k : Nat) (t : Ty) : (reach k t).length ≤ typesWithin k t.size := by
  induction k generalizing t with
  | zero => exact length_nodes_le t _
  | succ k ih =>
    have hnodes : (t.nodes t.freeVars .none).length ≤ t.size := length_nodes_le t _
    have hfilter : ((t.nodes t.freeVars .none).filter fun s => s.freeCount ≤ k).length ≤ t.size :=
      Nat.le_trans (List.length_filter_le ..) hnodes
    have hlength : ∀ s ∈ (t.nodes t.freeVars .none).filter fun s => s.freeCount ≤ k,
        (reach k s).length ≤ typesWithin k (t.size ^ t.size) := by
      intro s hs
      have hsize := size_le_of_mem_nodes (List.mem_of_mem_filter hs)
      exact Nat.le_trans (ih s) (typesWithin_mono k hsize)
    rw [reach, List.length_append, typesWithin_succ]
    exact Nat.add_le_add hnodes
      (Nat.le_trans (length_flatMap_le hlength) (Nat.mul_le_mul_right _ hfilter))

theorem depth_le_of_mem_reach {k : Nat} {t s : Ty} (hs : s ∈ reach k t) :
    s.depth ≤ typesWithin k t.size := by
  induction k generalizing t with
  | zero => exact depth_le_size_of_mem hs
  | succ k ih =>
    rcases mem_reach_succ.mp hs with hs | ⟨v, hv, _, hs⟩
    · exact Nat.le_trans (depth_le_size_of_mem hs) (le_typesWithin _ _)
    · calc
        s.depth ≤ typesWithin k v.size := ih hs
        _ ≤ typesWithin k (t.size ^ t.size) := typesWithin_mono k (size_le_of_mem_nodes hv)
        _ ≤ typesWithin (k + 1) t.size := typesWithin_le_succ k t.size_pos

end Ty

end Equirec
