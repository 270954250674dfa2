import Mathlib.Algebra.Order.BigOperators.Group.List
import Mathlib.Data.Finset.Prod
import Mathlib.Tactic.Ring
import Equirec.Proofs.Run
import Equirec.Proofs.Comparison.Step
import Equirec.Proofs.Ty.Loops

/-!
# The budget of a comparison

A budget that is large enough gives the run that every larger one gives.  Along nested steps of a
comparison each turn takes a new pair for granted, out of the pairs of the types that the two
types lead to, and between two turns the types get smaller.  So there is an end to the nesting if
the types that come up are finitely many and each of them is known again.

* `Comparison.holdsWithin_mono`     a larger budget leaves a finished run as it is
* `Universe`                        types that lead to each other only, and are known again
* `Universe.missing`                the pairs that are not taken for granted yet
* `Comparison.ends_within`          nested steps that are enough for two types of a universe
* `Universe.ofClosed`               the universe of two closed types
* `Comparison.ends_of_closed`       for closed types `Comparison.budget` is enough
-/

namespace Equirec

/-! ## larger budgets -/

namespace Comparison

variable {c : Comparison}

theorem allHold_mono {related related' : Ty → Ty → Run Bool} {ps : List (Option (Ty × Ty))}
    (hr : ∀ a b, (related a b).outcome ≠ .exhausted → related' a b = related a b)
    (h : (allHold related ps).outcome ≠ .exhausted) :
    allHold related' ps = allHold related ps := by
  induction ps with
  | nil => rfl
  | cons o ps ih =>
    cases o with
    | none => rfl
    | some p =>
      refine Run.bind_mono (hr p.1 p.2) (fun b hb => ?_) h
      cases b with
      | true => exact ih hb
      | false => rfl

theorem step_mono {next next' : Assumptions → Ty → Ty → Run Bool}
    (hn : ∀ seen t u, (next seen t u).outcome ≠ .exhausted → next' seen t u = next seen t u)
    {seen : Assumptions} {t u : Ty} (h : (c.step next seen t u).outcome ≠ .exhausted) :
    c.step next' seen t u = c.step next seen t u := by
  unfold step at h ⊢
  cases ht : t.isMu with
  | true =>
    simp only [ht, if_true] at h ⊢
    refine Run.bind_mono (fun _ => rfl) (fun s hs => ?_) h
    cases hm : s.isMu with
    | true => rfl
    | false =>
      simp only [hm, Bool.false_eq_true, if_false] at hs ⊢
      exact Run.bind_mono (fun _ => rfl) (fun _ => hn _ _ _) hs
  | false =>
    simp only [ht, Bool.false_eq_true, if_false] at h ⊢
    cases hu : u.isMu with
    | true =>
      simp only [hu, if_true] at h ⊢
      refine Run.bind_mono (fun _ => rfl) (fun s hs => ?_) h
      cases hm : s.isMu with
      | true => rfl
      | false =>
        simp only [hm, Bool.false_eq_true, if_false] at hs ⊢
        exact Run.bind_mono (fun _ => rfl) (fun _ => hn _ _ _) hs
    | false =>
      simp only [hu, Bool.false_eq_true, if_false] at h ⊢
      cases hx : headVar? t u with
      | some x => rfl
      | none =>
        simp only [hx] at h ⊢
        exact allHold_mono (hn seen) h

theorem holdsWithin_mono {n m : Nat} (hnm : n ≤ m) {seen : Assumptions} {t u : Ty}
    (h : (c.holdsWithin n seen t u).outcome ≠ .exhausted) :
    c.holdsWithin m seen t u = c.holdsWithin n seen t u := by
  induction n generalizing m seen t u with
  | zero => exact absurd rfl h
  | succ n ih =>
    obtain ⟨m, rfl⟩ := Nat.exists_eq_add_of_le' (Nat.lt_of_lt_of_le n.succ_pos hnm)
    rw [holdsWithin_succ] at h ⊢
    rw [holdsWithin_succ]
    cases hc : seen.cover t u with
    | true => rfl
    | false =>
      simp only [hc, Bool.false_eq_true, if_false] at h ⊢
      exact step_mono (fun _ _ _ => ih (Nat.le_of_succ_le_succ hnm)) h

end Comparison

/-! ## universes -/

/-- finitely many types that lead to each other only, each of them known again -/
structure Universe where
  types : Finset Ty
  mem_of_leads : ∀ t ∈ types, ∀ u, t.Leads u → u ∈ types
  alphaEq_self : ∀ t ∈ types, t.alphaEq t = true
  /-- no type has more layers in front of the next binder or variable -/
  layers : Nat
  depth_le : ∀ t ∈ types, t.depth ≤ layers

namespace Universe

variable {U : Universe}

theorem headForm_mem {t : Ty} (h : t ∈ U.types) : t.headForm ∈ U.types := by
  refine Ty.headForm_induction (fun s hs => ?_) h
  cases s with
  | mu x b => exact U.mem_of_leads _ hs _ .turn
  | _ => exact hs

/-- how many pairs are not taken for granted -/
def missing (U : Universe) (seen : Assumptions) : Nat :=
  ((U.types ×ˢ U.types).filter fun p => p ∉ seen).card

theorem missing_le (U : Universe) (seen : Assumptions) :
    U.missing seen ≤ U.types.card * U.types.card := by
  rw [← Finset.card_product]
  exact Finset.card_filter_le ..

theorem missing_cons_lt {seen : Assumptions} {t u : Ty} (ht : t ∈ U.types) (hu : u ∈ U.types)
    (h : (t, u) ∉ seen) : U.missing ((t, u) :: seen) < U.missing seen := by
  refine Finset.card_lt_card (Finset.ssubset_iff_subset_ne.mpr ⟨fun p hp => ?_, fun he => ?_⟩)
  · rw [Finset.mem_filter] at hp ⊢
    exact ⟨hp.1, fun hs => hp.2 (List.mem_cons_of_mem _ hs)⟩
  · have hmem : (t, u) ∈ (U.types ×ˢ U.types).filter fun p => p ∉ seen :=
      Finset.mem_filter.mpr ⟨Finset.mem_product.mpr ⟨ht, hu⟩, h⟩
    rw [← he] at hmem
    exact (Finset.mem_filter.mp hmem).2 (List.mem_cons_self ..)

/-- a pair that is taken for granted is known -/
theorem not_mem_of_cover {seen : Assumptions} {t u : Ty} (ht : t ∈ U.types) (hu : u ∈ U.types)
    (h : seen.cover t u = false) : (t, u) ∉ seen := by
  intro hs
  have : seen.cover t u = true :=
    Assumptions.cover_iff.mpr ⟨(t, u), hs, U.alphaEq_self t ht, U.alphaEq_self u hu⟩
  exact absurd (h.symm.trans this) Bool.false_ne_true

/-- a turn takes a pair for granted, after it come at most as many layers as there are -/
theorem turn_lt {seen : Assumptions} {t u : Ty} (ht : t ∈ U.types) (hu : u ∈ U.types)
    (hc : seen.cover t u = false) {d e n : Nat} (hd : d ≤ U.layers)
    (h : U.missing seen * (U.layers + 1) + e < n + 1) :
    U.missing ((t, u) :: seen) * (U.layers + 1) + d < n := by
  have hlt := missing_cons_lt ht hu (not_mem_of_cover ht hu hc)
  have hmul := Nat.mul_le_mul_right (U.layers + 1) hlt
  rw [Nat.succ_mul] at hmul
  omega

end Universe

namespace Comparison

variable {c : Comparison}

theorem ends_within {U : Universe} {n : Nat} {seen : Assumptions} {t u : Ty} (ht : t ∈ U.types)
    (hu : u ∈ U.types)
    (hn : U.missing seen * (U.layers + 1) + min t.depth u.depth < n) :
    (c.holdsWithin n seen t u).outcome ≠ .exhausted := by
  induction n generalizing seen t u with
  | zero => exact absurd hn (Nat.not_lt_zero _)
  | succ n ih =>
    cases c.ends n seen t u with
    | assumed _ ho | unguarded _ _ ho | onlyRightUnguarded _ _ _ ho | openHead _ _ _ _ ho =>
      simp [ho]
    | turnLeft hc _ _ ho =>
      rw [ho]
      have hd := Nat.le_trans (Nat.min_le_right t.headForm.depth u.depth) (U.depth_le u hu)
      exact ih (Universe.headForm_mem ht) hu (Universe.turn_lt ht hu hc hd hn)
    | turnRight hc _ _ _ ho =>
      rw [ho]
      have hd := Nat.le_trans (Nat.min_le_left t.depth u.headForm.depth) (U.depth_le t ht)
      exact ih ht (Universe.headForm_mem hu) (Universe.turn_lt ht hu hc hd hn)
    | heads _ htm hum _ ho =>
      rw [ho]
      rcases allHold_cases (c.holdsWithin n seen) (c.premises t u) with
        ⟨htrue, _⟩ | ⟨hfalse, _⟩ | ⟨p, hp, hrun, _⟩
      · simp [htrue]
      · simp [hfalse]
      · rw [← hrun]
        rcases leads_of_mem_premises hp with ⟨hl, hr⟩ | ⟨hl, hr⟩
        · have hdl := Ty.depth_lt_of_leads hl htm
          have hdr := Ty.depth_lt_of_leads hr hum
          exact ih (U.mem_of_leads _ ht _ hl) (U.mem_of_leads _ hu _ hr) (by omega)
        · have hdl := Ty.depth_lt_of_leads hl htm
          have hdr := Ty.depth_lt_of_leads hr hum
          exact ih (U.mem_of_leads _ hu _ hr) (U.mem_of_leads _ ht _ hl) (by omega)

end Comparison

/-! ## outside of the loops -/

/-- the type is in the universe, or its loops are and there are few layers around them -/
def Universe.Around (U : Universe) (k : Nat) (t : Ty) : Prop :=
  t ∈ U.types ∨ t.depth < k ∧ ∀ s ∈ t.loops, s ∈ U.types

namespace Universe.Around

variable {U : Universe} {k : Nat} {t u : Ty}

theorem mem (h : U.Around k t) (ht : t.isMu = true) : t ∈ U.types :=
  h.elim id fun h => h.2 t (Ty.mem_loops_self ht)

theorem of_leads (h : U.Around k t) (ht : t.isMu = false) (hu : t.Leads u) :
    U.Around (k - 1) u := by
  rcases h with h | ⟨hd, hs⟩
  · exact .inl (U.mem_of_leads t h u hu)
  · have := Ty.depth_lt_of_leads hu ht
    exact .inr ⟨by omega, fun s h => hs s (Ty.mem_loops_of_leads hu ht h)⟩

end Universe.Around

namespace Comparison

variable {c : Comparison}

/-- outside of the universe each step goes down a layer, with at most two turns in between -/
theorem ends_around {U : Universe} {n k l : Nat} {seen : Assumptions} {t u : Ty}
    (ht : U.Around k t) (hu : U.Around l u)
    (hn : 3 * (k + l) + turns t u +
      (U.types.card * U.types.card * (U.layers + 1) + U.layers) < n) :
    (c.holdsWithin n seen t u).outcome ≠ .exhausted := by
  induction n generalizing seen t u k l with
  | zero => exact absurd hn (Nat.not_lt_zero _)
  | succ n ih =>
    by_cases hin : t ∈ U.types ∧ u ∈ U.types
    · have hmul := Nat.mul_le_mul_right (U.layers + 1) (U.missing_le seen)
      have hmin := Nat.le_trans (Nat.min_le_left t.depth u.depth) (U.depth_le t hin.1)
      exact ends_within hin.1 hin.2 (by omega)
    have hpos : 0 < k + l := by
      rcases ht with ht | ⟨ht, _⟩
      · rcases hu with hu | ⟨hu, _⟩
        · exact absurd ⟨ht, hu⟩ hin
        · omega
      · omega
    cases c.ends n seen t u with
    | assumed _ ho | unguarded _ _ ho | onlyRightUnguarded _ _ _ ho | openHead _ _ _ _ ho =>
      simp [ho]
    | turnLeft _ htm hg ho =>
      rw [ho]
      have hlt := turns_headForm_left (u := u) htm hg
      exact ih (k := k) (.inl (Universe.headForm_mem (ht.mem htm))) hu (by omega)
    | turnRight _ _ hum hg ho =>
      rw [ho]
      have hlt := turns_headForm_right (t := t) hum hg
      exact ih (l := l) ht (.inl (Universe.headForm_mem (hu.mem hum))) (by omega)
    | heads _ htm hum _ ho =>
      rw [ho]
      rcases allHold_cases (c.holdsWithin n seen) (c.premises t u) with
        ⟨htrue, _⟩ | ⟨hfalse, _⟩ | ⟨p, hp, hrun, _⟩
      · simp [htrue]
      · simp [hfalse]
      · rw [← hrun]
        have hle := turns_le p.1 p.2
        rcases leads_of_mem_premises hp with ⟨hl, hr⟩ | ⟨hl, hr⟩
        · exact ih (ht.of_leads htm hl) (hu.of_leads hum hr) (by omega)
        · exact ih (hu.of_leads hum hr) (ht.of_leads htm hl) (by omega)

end Comparison

/-! ## closed types -/

/-- the nodes of closed types whose objects are known again -/
def Universe.ofClosed (ts : List Ty) (hc : ∀ t ∈ ts, t.Closed) (hr : ∀ t ∈ ts, t.Recognizable) :
    Universe where
  types := (ts.flatMap (Ty.nodes [] .none)).toFinset
  mem_of_leads := by
    intro s hs v hv
    obtain ⟨t, ht, h⟩ := List.mem_flatMap.mp (List.mem_toFinset.mp hs)
    exact List.mem_toFinset.mpr
      (List.mem_flatMap.mpr ⟨t, ht, Ty.mem_nodes_of_leads (hc t ht) h hv⟩)
  alphaEq_self := by
    intro s hs
    obtain ⟨t, ht, h⟩ := List.mem_flatMap.mp (List.mem_toFinset.mp hs)
    exact (hr t ht).alphaEq_of_mem_nodes (hc t ht) h
  layers := (ts.map Ty.size).sum
  depth_le := by
    intro s hs
    obtain ⟨t, ht, h⟩ := List.mem_flatMap.mp (List.mem_toFinset.mp hs)
    have hd : s.depth ≤ t.size := Ty.depth_le_size_of_mem h
    exact Nat.le_trans hd (List.le_sum_of_mem (List.mem_map.mpr ⟨t, ht, rfl⟩))

theorem Universe.card_ofClosed_le {ts : List Ty} (hc : ∀ t ∈ ts, t.Closed)
    (hr : ∀ t ∈ ts, t.Recognizable) :
    (Universe.ofClosed ts hc hr).types.card ≤ (ts.map Ty.size).sum := by
  refine Nat.le_trans (List.toFinset_card_le _) ?_
  rw [List.length_flatMap]
  exact List.sum_le_sum fun t _ => Ty.length_nodes_le t _

theorem Universe.around_ofClosed {ts : List Ty} (hc : ∀ t ∈ ts, t.Closed)
    (hr : ∀ t ∈ ts, t.Recognizable) {t : Ty} (ht : ∀ s ∈ t.loops, s ∈ ts) :
    (Universe.ofClosed ts hc hr).Around (t.size + 1) t := by
  refine .inr ⟨Nat.lt_succ_of_le (Ty.depth_le_size t), fun s hs => ?_⟩
  exact List.mem_toFinset.mpr (List.mem_flatMap.mpr ⟨s, ht s hs, s.self_mem_nodes⟩)

namespace Comparison

variable {c : Comparison}

theorem budget_of_closed {t u : Ty} (ht : t.Closed) (hu : u.Closed) :
    budget t u = (t.size + u.size + 2) ^ 3 := by
  rw [budget, ht, hu]
  rfl

/-- the layers and turns around the loops, and in the loops as many pairs as nodes squared with as
many layers between two of them as nodes -/
theorem nesting_lt_cube {m w s : Nat} (hs : 0 < s) (hm : m ≤ s) (hw : w ≤ s) :
    3 * (s + 2) + 2 + (m * m * (w + 1) + w) < (s + 2) ^ 3 := by
  have hcube : (s + 2) ^ 3 = s * s * (s + 1) + (5 * (s * s) + 12 * s + 8) := by ring
  have hmul := Nat.mul_le_mul (Nat.mul_le_mul hm hm) (Nat.add_le_add_right hw 1)
  omega

/-- whatever is assumed, the budget is enough for closed types with recognizable loops -/
theorem ends_of_closed {t u : Ty} (ht : t.Closed) (hu : u.Closed) (htr : t.RecognizableLoops)
    (hur : u.RecognizableLoops) (seen : Assumptions) :
    (c.holdsWithin (budget t u) seen t u).outcome ≠ .exhausted := by
  have hc : ∀ s ∈ t.loops ++ u.loops, s.Closed := fun s hs =>
    (List.mem_append.mp hs).elim ht.of_mem_loops hu.of_mem_loops
  have hr : ∀ s ∈ t.loops ++ u.loops, s.Recognizable := fun s hs =>
    (List.mem_append.mp hs).elim (htr s) (hur s)
  have hsum : ((t.loops ++ u.loops).map Ty.size).sum ≤ t.size + u.size := by
    rw [List.map_append, List.sum_append]
    exact Nat.add_le_add t.sum_size_loops_le u.sum_size_loops_le
  have hat := Universe.around_ofClosed hc hr (t := t) fun s hs => List.mem_append_left _ hs
  have hau := Universe.around_ofClosed hc hr (t := u) fun s hs => List.mem_append_right _ hs
  have hlt := nesting_lt_cube (Nat.add_pos_left t.size_pos u.size)
    (Nat.le_trans (Universe.card_ofClosed_le hc hr) hsum) hsum
  refine ends_around hat hau ?_
  have hturns := turns_le t u
  rw [budget_of_closed ht hu]
  show _ + ((Universe.ofClosed _ hc hr).types.card * _ *
    (((t.loops ++ u.loops).map Ty.size).sum + 1) + ((t.loops ++ u.loops).map Ty.size).sum) < _
  omega

/-- a larger budget gives the same run -/
theorem holdsWithin_eq_holds {t u : Ty} (ht : t.Closed) (hu : u.Closed)
    (htr : t.RecognizableLoops) (hur : u.RecognizableLoops) {n : Nat} (hn : budget t u ≤ n) :
    c.holdsWithin n [] t u = c.holds t u := by
  rw [holds_of_closed ht hu]
  exact holdsWithin_mono hn (ends_of_closed ht hu htr hur [])

end Comparison

end Equirec
