import Equirec.Proofs.Comparison.Answer
import Equirec.Proofs.Comparison.Budget
import Equirec.Proofs.Ty.Caught

/-!
# The reserve of a comparison

Types whose objects name each property once are known again wherever they come up, and they lead to
finitely many types, whatever variables are free in them.  So their comparison has an end, and the
reserve is enough for it.

* `Universe.ofDistinct`         the universe of two of them
* `Comparison.ends_of_distinct` the reserve is enough
* `Comparison.holds_ends`       the comparison ends
* `Comparison.holdsWithin_eq_holds_of_distinct`
                                a budget larger than the reserve gives the same run
-/

namespace Equirec

/-- the types that two types lead to as at most `k` free variables of each are caught -/
def Universe.ofDistinct (k : Nat) (t u : Ty) (ht : t.freeCount ≤ k) (hu : u.freeCount ≤ k) :
    Universe where
  types := ((Ty.reach k t ++ Ty.reach k u).filter fun s => s.Distinct).toFinset
  mem_of_leads := by
    intro s hs v hv
    rw [List.mem_toFinset, List.mem_filter, List.mem_append, decide_eq_true_eq] at hs ⊢
    obtain ⟨hs, hd⟩ := hs
    refine ⟨hs.imp (fun h => ?_) fun h => ?_, hd.of_leads hv⟩
    · exact Ty.mem_reach_of_leads ht h hv
    · exact Ty.mem_reach_of_leads hu h hv
  alphaEq_self := by
    intro s hs
    have hd : s.Distinct := of_decide_eq_true (List.mem_filter.mp (List.mem_toFinset.mp hs)).2
    exact hd.recognizable.alphaEq_self
  layers := Comparison.typesWithin k (t.size + u.size)
  depth_le := by
    intro s hs
    have hmono := Comparison.typesWithin_mono k
    rcases List.mem_append.mp (List.mem_filter.mp (List.mem_toFinset.mp hs)).1 with h | h
    · exact Nat.le_trans (Ty.depth_le_of_mem_reach h) (hmono (Nat.le_add_right ..))
    · exact Nat.le_trans (Ty.depth_le_of_mem_reach h) (hmono (Nat.le_add_left ..))

theorem Universe.card_ofDistinct_le {k : Nat} {t u : Ty} (ht : t.freeCount ≤ k)
    (hu : u.freeCount ≤ k) : (Universe.ofDistinct k t u ht hu).types.card ≤
      2 * Comparison.typesWithin k (t.size + u.size) := by
  have hmono := Comparison.typesWithin_mono k
  have hlt := Nat.le_trans (Ty.length_reach_le k t) (hmono (Nat.le_add_right t.size u.size))
  have hlu := Nat.le_trans (Ty.length_reach_le k u) (hmono (Nat.le_add_left u.size t.size))
  have hfilter := List.length_filter_le (fun s : Ty => decide s.Distinct)
    (Ty.reach k t ++ Ty.reach k u)
  rw [List.length_append] at hfilter
  have hcard : (Universe.ofDistinct k t u ht hu).types.card ≤ _ := List.toFinset_card_le _
  omega

/-! ## the end of a comparison -/

theorem Name.card_le_length_distinct {xs ys : List Name} (h : ∀ x ∈ xs, x ∈ ys) :
    xs.toFinset.card ≤ (Name.distinct ys).length := by
  have hsub : xs.toFinset ⊆ (Name.distinct ys).toFinset := by
    intro x hx
    rw [List.mem_toFinset] at hx ⊢
    exact List.mem_eraseDups.mpr (h x hx)
  exact Nat.le_trans (Finset.card_le_card hsub) (List.toFinset_card_le _)

namespace Comparison

variable {c : Comparison}

theorem nesting_lt_reserve {m d : Nat} (hd : d ≤ m) :
    2 * m * (2 * m) * (m + 1) + d < (2 * m + 2) ^ 3 := by
  have hcube : (2 * m + 2) ^ 3 =
      2 * m * (2 * m) * (m + 1) + (4 * (m * m * m) + 20 * (m * m) + 24 * m + 8) := by ring
  omega

theorem ends_of_distinct {t u : Ty} (ht : t.Distinct) (hu : u.Distinct) (seen : Assumptions) :
    (c.holdsWithin (reserve t u) seen t u).outcome ≠ .exhausted := by
  have hkt : t.freeCount ≤ (Name.distinct (t.freeVars ++ u.freeVars)).length :=
    Name.card_le_length_distinct fun _ h => List.mem_append_left _ h
  have hku : u.freeCount ≤ (Name.distinct (t.freeVars ++ u.freeVars)).length :=
    Name.card_le_length_distinct fun _ h => List.mem_append_right _ h
  rw [reserve]
  revert hkt hku
  generalize (Name.distinct (t.freeVars ++ u.freeVars)).length = k
  intro hkt hku
  let U : Universe := .ofDistinct k t u hkt hku
  have hself : ∀ s : Ty, s ∈ Ty.reach k s := fun s => Ty.nodes_subset_reach k s.self_mem_nodes
  have hmt : t ∈ U.types := List.mem_toFinset.mpr
    (List.mem_filter.mpr ⟨List.mem_append_left _ (hself t), decide_eq_true ht⟩)
  have hmu : u ∈ U.types := List.mem_toFinset.mpr
    (List.mem_filter.mpr ⟨List.mem_append_right _ (hself u), decide_eq_true hu⟩)
  have hmissing : U.missing seen ≤
      2 * typesWithin k (t.size + u.size) * (2 * typesWithin k (t.size + u.size)) :=
    Nat.le_trans (U.missing_le seen) (Nat.mul_le_mul (Universe.card_ofDistinct_le hkt hku)
      (Universe.card_ofDistinct_le hkt hku))
  have hdepth : min t.depth u.depth ≤ typesWithin k (t.size + u.size) :=
    Nat.le_trans (Nat.min_le_left ..) (U.depth_le t hmt)
  refine ends_within hmt hmu (Nat.lt_of_le_of_lt ?_ (nesting_lt_reserve hdepth))
  exact Nat.add_le_add_right (Nat.mul_le_mul_right _ hmissing) _

/-- runs within two budgets that are both enough are the same run -/
theorem holdsWithin_unique {m n : Nat} {seen : Assumptions} {t u : Ty}
    (hm : (c.holdsWithin m seen t u).outcome ≠ .exhausted)
    (hn : (c.holdsWithin n seen t u).outcome ≠ .exhausted) :
    c.holdsWithin m seen t u = c.holdsWithin n seen t u := by
  rw [← holdsWithin_mono (Nat.le_max_left m n) hm, ← holdsWithin_mono (Nat.le_max_right m n) hn]

theorem holds_ends {t u : Ty} (ht : t.Distinct) (hu : u.Distinct) :
    (c.holds t u).outcome ≠ .exhausted := by
  by_cases hc : t.Closed ∧ u.Closed
  · rw [holds_of_closed hc.1 hc.2]
    exact ends_of_closed hc.1 hc.2 ht.recognizable.loops hu.recognizable.loops []
  · unfold holds
    by_cases h : (c.holdsWithin (budget t u) [] t u).outcome = .exhausted
    · rw [if_pos ⟨h, hc⟩]
      exact ends_of_distinct ht hu []
    · rw [if_neg fun h' => h h'.1]
      exact h

theorem holdsWithin_eq_holds_of_distinct {t u : Ty} (ht : t.Distinct) (hu : u.Distinct) {n : Nat}
    (hn : reserve t u ≤ n) : c.holdsWithin n [] t u = c.holds t u := by
  have hr := ends_of_distinct (c := c) ht hu []
  have hends := holds_ends (c := c) ht hu
  obtain ⟨m, hm⟩ := c.exists_holds_eq t u
  rw [hm] at hends ⊢
  refine holdsWithin_unique ?_ hends
  rwa [holdsWithin_mono hn hr]

end Comparison

end Equirec
