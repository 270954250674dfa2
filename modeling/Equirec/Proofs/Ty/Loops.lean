import Mathlib.Algebra.GroupWithZero.Nat
import Equirec.Proofs.Ty.Regular

/-!
# The loops of a type

The unfoldings of a type go on for ever only inside a `mu`.  What stands outside of every `mu` comes
up once on each way down.

* `Ty.loops`                     the outermost `mu`s of a type
* `Ty.mem_loops_of_leads`        parts have no other loops
* `Ty.sum_size_loops_le`         the loops are parts of the type that do not overlap
* `Ty.RecognizableLoops`         every object below a `mu` agrees with itself up to the names of
                                 binders
* `Ty.Recognizable.loops`        it does if every object of the type does
-/

namespace Equirec.Ty

mutual
/-- the `mu`s that are not below another one -/
def loops : Ty → List Ty
  | boolean => []
  | number => []
  | func ps r => loopsRow ps ++ r.loops
  | object ps => loopsRow ps
  | var _ => []
  | mu x b => [mu x b]
def loopsRow : Row → List Ty
  | [] => []
  | (_, t) :: ps => t.loops ++ loopsRow ps
end

theorem mem_loopsRow {ps : Row} {s : Ty} : s ∈ loopsRow ps ↔ ∃ p ∈ ps, s ∈ p.2.loops := by
  induction ps with
  | nil => exact iff_of_false List.not_mem_nil (by simp)
  | cons p ps ih =>
    show s ∈ p.2.loops ++ loopsRow ps ↔ _
    rw [List.mem_append, ih, List.exists_mem_cons_iff]

theorem mem_loops_func {ps : Row} {r s : Ty} :
    s ∈ (func ps r).loops ↔ (∃ p ∈ ps, s ∈ p.2.loops) ∨ s ∈ r.loops := by
  show s ∈ loopsRow ps ++ r.loops ↔ _
  rw [List.mem_append, mem_loopsRow]

theorem mem_loops_object {ps : Row} {s : Ty} :
    s ∈ (object ps).loops ↔ ∃ p ∈ ps, s ∈ p.2.loops :=
  mem_loopsRow

theorem mem_loops_self {t : Ty} (h : t.isMu = true) : t ∈ t.loops := by
  cases t with
  | mu x b => exact List.mem_singleton_self _
  | _ => exact absurd h (by simp [isMu])

theorem mem_loops_of_leads {t u s : Ty} (h : t.Leads u) (ht : t.isMu = false)
    (hs : s ∈ u.loops) : s ∈ t.loops := by
  cases h with
  | param h => exact mem_loops_func.mpr (.inl ⟨_, h, hs⟩)
  | result => exact mem_loops_func.mpr (.inr hs)
  | prop h => exact mem_loops_object.mpr ⟨_, h, hs⟩
  | turn => exact absurd ht (by simp [isMu])

theorem mem_freeVars_of_mem_loops {t s : Ty} {y : Name} (hs : s ∈ t.loops)
    (hy : y ∈ s.freeVars) : y ∈ t.freeVars := by
  induction t with
  | func ps r hps hr =>
    refine mem_freeVars_func.mpr ((mem_loops_func.mp hs).imp ?_ hr)
    rintro ⟨p, hp, h⟩
    exact ⟨p, hp, hps p hp h⟩
  | object ps hps =>
    obtain ⟨p, hp, h⟩ := mem_loops_object.mp hs
    exact mem_freeVars_object.mpr ⟨p, hp, hps p hp h⟩
  | mu x b _ =>
    rw [List.mem_singleton.mp hs] at hy
    exact hy
  | _ => exact absurd hs List.not_mem_nil

theorem Closed.of_mem_loops {t s : Ty} (ht : t.Closed) (hs : s ∈ t.loops) : s.Closed :=
  closed_iff.mpr fun y hy => ht.not_mem y (mem_freeVars_of_mem_loops hs hy)

theorem sum_size_loopsRow_le {ps : Row} (h : ∀ p ∈ ps, (p.2.loops.map size).sum ≤ p.2.size) :
    ((loopsRow ps).map size).sum ≤ sizeRow ps := by
  refine Row.induct ps h (Nat.le_refl 0) fun p ps hp ih => ?_
  show ((p.2.loops ++ loopsRow ps).map size).sum ≤ p.2.size + sizeRow ps
  rw [List.map_append, List.sum_append]
  exact Nat.add_le_add hp ih

theorem sum_size_loops_le (t : Ty) : (t.loops.map size).sum ≤ t.size := by
  induction t with
  | func ps r hps hr =>
    show ((loopsRow ps ++ r.loops).map size).sum ≤ sizeRow ps + r.size + 1
    rw [List.map_append, List.sum_append]
    exact Nat.le_succ_of_le (Nat.add_le_add (sum_size_loopsRow_le hps) hr)
  | object ps hps => exact Nat.le_succ_of_le (sum_size_loopsRow_le hps)
  | mu x b _ => exact Nat.le_of_eq List.sum_singleton
  | _ => exact Nat.zero_le _

/-! ## recognizable loops -/

/-- every object below a `mu` agrees with itself up to the names of binders; what stands outside of
every `mu` may be anything -/
def RecognizableLoops (t : Ty) : Prop := ∀ s ∈ t.loops, s.Recognizable

instance (t : Ty) : Decidable t.RecognizableLoops :=
  inferInstanceAs (Decidable (∀ s ∈ t.loops, s.Recognizable))

theorem Recognizable.loops {t : Ty} (ht : t.Recognizable) : t.RecognizableLoops := by
  intro s hs
  induction t with
  | func ps r hps hr =>
    obtain ⟨hin, hres⟩ := allObjects_func.mp ht
    rcases mem_loops_func.mp hs with ⟨p, hp, h⟩ | h
    · exact hps p hp (hin p hp) h
    · exact hr hres h
  | object ps hps =>
    obtain ⟨_, hin⟩ := allObjects_object.mp ht
    obtain ⟨p, hp, h⟩ := mem_loops_object.mp hs
    exact hps p hp (hin p hp) h
  | mu x b _ =>
    rw [List.mem_singleton.mp hs]
    exact ht
  | _ => exact absurd hs List.not_mem_nil

end Equirec.Ty
