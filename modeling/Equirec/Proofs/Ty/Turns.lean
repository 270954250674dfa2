import Equirec.Proofs.Ty.Head

/-!
# How often a type is unfolded

The binders in front of a type are a chain of names.  If what stands behind them is no variable of
theirs, each unfolding takes one of them away.  If it is, the binders in front of its own one are
taken away first, and then those behind it, each of them now in front of the closed type in the
middle.  The unfolding stops as soon as a type comes up again, and that may be before all binders
have had their turn: where the chain ends in the names that stand in front of the binder, the types
of the second round are those of the first.

* `Ty.chain`             a type behind binders
* `Ty.front`, `Ty.behind`  the names of the binders in front of a type, and what is behind them
* `sharedEnd`            the longest list that two lists end with
* `Ty.StopsAfter`        the unfolding has come to an end after so many turns, and not before
* `Ty.StopsAfter.eq_headForm`
                         what it has come to is the head form
* `Ty.stopsAfter_of_not_spins`, `Ty.stopsAfter_chain`
                         the number of turns of the two sorts of types
* `Ty.unfolding_stops`   the number of turns and the head form of any type
-/

namespace Equirec

/-! ## common ends -/

/-- the longest end of the first list that the second one ends with, too -/
def sharedEnd : List Name → List Name → List Name
  | [], _ => []
  | x :: xs, ys => if x :: xs <:+ ys then x :: xs else sharedEnd xs ys

theorem sharedEnd_suffix_left (xs ys : List Name) : sharedEnd xs ys <:+ xs := by
  induction xs with
  | nil => exact List.suffix_rfl
  | cons x xs ih =>
    rw [sharedEnd]
    split
    · exact List.suffix_rfl
    · exact ih.trans (List.suffix_cons x xs)

theorem sharedEnd_suffix_right (xs ys : List Name) : sharedEnd xs ys <:+ ys := by
  induction xs with
  | nil => exact List.nil_suffix
  | cons x xs ih =>
    rw [sharedEnd]
    split
    · assumption
    · exact ih

theorem suffix_sharedEnd {zs xs ys : List Name} (hx : zs <:+ xs) (hy : zs <:+ ys) :
    zs <:+ sharedEnd xs ys := by
  induction xs with
  | nil => exact hx
  | cons x xs ih =>
    rw [sharedEnd]
    split
    · exact hx
    · next h =>
      rcases List.suffix_cons_iff.mp hx with rfl | hx
      · exact absurd hy h
      · exact ih hx

theorem sharedEnd_eq_left {xs ys : List Name} (h : xs <:+ ys) : sharedEnd xs ys = xs := by
  cases xs with
  | nil => rfl
  | cons x xs => rw [sharedEnd, if_pos h]

/-- a member of a list stands at a last place -/
theorem exists_last_of_mem {x : Name} {names : List Name} (h : x ∈ names) :
    ∃ before after, names = before ++ x :: after ∧ x ∉ after := by
  induction names with
  | nil => exact absurd h List.not_mem_nil
  | cons y names ih =>
    by_cases hx : x ∈ names
    · obtain ⟨before, after, rfl, hafter⟩ := ih hx
      exact ⟨y :: before, after, rfl, hafter⟩
    · have e : x = y := (List.mem_cons.mp h).resolve_right hx
      exact ⟨[], names, by rw [e, List.nil_append], hx⟩

namespace Ty

/-! ## chains of binders -/

/-- a type behind binders of these names -/
def chain (names : List Name) (t : Ty) : Ty := names.foldr mu t

/-- the names of the binders in front of a type -/
def front : Ty → List Name
  | mu x b => x :: b.front
  | _ => []

/-- what stands behind the binders in front of a type -/
def behind : Ty → Ty
  | mu _ b => b.behind
  | t => t

theorem chain_cons (x : Name) (names : List Name) (t : Ty) :
    chain (x :: names) t = mu x (chain names t) := rfl

theorem chain_append (xs ys : List Name) (t : Ty) : chain (xs ++ ys) t = chain xs (chain ys t) :=
  List.foldr_append

theorem chain_front_behind (t : Ty) : chain t.front t.behind = t := by
  induction t with
  | mu x b ih => exact congrArg (mu x) ih
  | _ => rfl

theorem isMu_behind (t : Ty) : t.behind.isMu = false := by
  induction t with
  | mu x b ih => exact ih
  | _ => rfl

theorem length_front (t : Ty) : t.front.length = t.binders := by
  induction t with
  | mu x b ih => exact congrArg (· + 1) ih
  | _ => rfl

theorem binders_of_not_isMu {t : Ty} (h : t.isMu = false) : t.binders = 0 := by
  cases t with
  | mu x b => exact absurd h (by simp [isMu])
  | _ => rfl

theorem isMu_chain {t : Ty} (h : t.isMu = true) (names : List Name) :
    (chain names t).isMu = true := by
  cases names with
  | nil => exact h
  | cons x names => rfl

theorem binders_chain (names : List Name) (t : Ty) :
    (chain names t).binders = names.length + t.binders := by
  induction names with
  | nil => exact (Nat.zero_add _).symm
  | cons x names ih =>
    rw [chain_cons, binders, ih, List.length_cons]
    omega

/-- chains in front of one and the same type differ if their names do -/
theorem chain_inj {xs ys : List Name} {t : Ty} (h : chain xs t = chain ys t) : xs = ys := by
  have hlen : xs.length = ys.length := by
    have hb := congrArg binders h
    rw [binders_chain, binders_chain] at hb
    omega
  induction xs generalizing ys with
  | nil => exact (List.length_eq_zero_iff.mp hlen.symm).symm
  | cons x xs ih =>
    cases ys with
    | nil => exact absurd hlen (Nat.succ_ne_zero _)
    | cons y ys =>
      rw [chain_cons, chain_cons, mu.injEq] at h
      rw [h.1, ih h.2 (Nat.succ.inj hlen)]

theorem closed_chain {t : Ty} (h : t.Closed) (names : List Name) : (chain names t).Closed := by
  induction names with
  | nil => exact h
  | cons x names ih => exact closed_iff.mpr fun y hy => ih.not_mem y (mem_freeVars_mu.mp hy).1

theorem subst_chain {x : Name} {names : List Name} (h : x ∉ names) (t s : Ty) :
    (chain names t).subst x s = chain names (t.subst x s) := by
  induction names with
  | nil => rfl
  | cons y names ih =>
    obtain ⟨hne, hnames⟩ := not_or.mp (mt List.mem_cons.mpr h)
    rw [chain_cons, subst_mu_of_ne (Ne.symm hne), ih hnames, chain_cons]

theorem spins_chain (bound names : List Name) (t : Ty) :
    spins bound (chain names t) = spins (names.reverse ++ bound) t := by
  induction names generalizing bound with
  | nil => rfl
  | cons x names ih =>
    rw [chain_cons, spins_mu, ih, List.reverse_cons, List.append_assoc, List.singleton_append]

theorem spins_of_not_isMu {bound : List Name} {t : Ty} (h : t.isMu = false) :
    spins bound t = true ↔ ∃ x, t = var x ∧ x ∈ bound := by
  cases t with
  | var x => simp [spins_var]
  | mu x b => exact absurd h (by simp [isMu])
  | _ => simp [spins]

/-- a type spins if what is behind its binders is a variable of theirs -/
theorem spins_iff (t : Ty) : spins [] t = true ↔ ∃ x, t.behind = var x ∧ x ∈ t.front := by
  rw [← chain_front_behind t, spins_chain, chain_front_behind, List.append_nil,
    spins_of_not_isMu (isMu_behind t)]
  simp only [List.mem_reverse]

/-! ## turns -/

/-- after so many turns the unfolding has come to a type without a `mu` in front, or to one that it
came to before; at none of the turns before was that so -/
structure StopsAfter (n : Nat) (t : Ty) : Prop where
  stops : (unfold^[n] t).isMu = false ∨ ∃ i < n, unfold^[i] t = unfold^[n] t
  goesOn : ∀ m < n, (unfold^[m] t).isMu = true ∧ ∀ i < m, unfold^[i] t ≠ unfold^[m] t

instance (n : Nat) (t : Ty) : Decidable (t.StopsAfter n) :=
  decidable_of_iff
    (((unfold^[n] t).isMu = false ∨ ∃ i < n, unfold^[i] t = unfold^[n] t) ∧
      ∀ m < n, (unfold^[m] t).isMu = true ∧ ∀ i < m, unfold^[i] t ≠ unfold^[m] t)
    ⟨fun h => ⟨h.1, h.2⟩, fun h => ⟨h.1, h.2⟩⟩

/-- the turns that are left, after some types have been met -/
theorem settles_of_turns {n : Nat} {met : List Ty} {t : Ty}
    (hstop : (unfold^[n] t).isMu = false ∨ unfold^[n] t ∈ met ∨ ∃ i < n, unfold^[i] t = unfold^[n] t)
    (hgo : ∀ m < n, (unfold^[m] t).isMu = true ∧ unfold^[m] t ∉ met ∧
      ∀ i < m, unfold^[i] t ≠ unfold^[m] t) : Settles met t (unfold^[n] t) := by
  induction n generalizing met t with
  | zero =>
    rcases hstop with h | h | ⟨i, hi, _⟩
    · exact .head h
    · cases ht : t.isMu with
      | false => exact .head ht
      | true => exact .back ht h
    · exact absurd hi (Nat.not_lt_zero i)
  | succ n ih =>
    obtain ⟨ht, hm, _⟩ := hgo 0 (Nat.succ_pos n)
    rw [Function.iterate_succ_apply] at hstop ⊢
    refine .turn ht hm (ih ?_ fun m hlt => ?_)
    · rcases hstop with h | h | ⟨i, hi, e⟩
      · exact .inl h
      · exact .inr (.inl (List.mem_cons_of_mem _ h))
      · cases i with
        | zero => exact .inr (.inl (List.mem_cons.mpr (.inl e.symm)))
        | succ i => exact .inr (.inr ⟨i, Nat.lt_of_succ_lt_succ hi, e⟩)
    · obtain ⟨h1, h2, h3⟩ := hgo (m + 1) (Nat.succ_lt_succ hlt)
      rw [Function.iterate_succ_apply] at h1 h2 h3
      refine ⟨h1, fun hmem => ?_, fun i hi => h3 (i + 1) (Nat.succ_lt_succ hi)⟩
      rcases List.mem_cons.mp hmem with e | hmem
      · exact h3 0 (Nat.succ_pos m) e.symm
      · exact h2 hmem

theorem StopsAfter.eq_headForm {n : Nat} {t : Ty} (h : t.StopsAfter n) :
    unfold^[n] t = t.headForm := by
  refine settles_iff.mp (settles_of_turns ?_ fun m hm => ?_)
  · exact h.stops.imp_right .inr
  · exact ⟨(h.goesOn m hm).1, List.not_mem_nil, (h.goesOn m hm).2⟩

/-! ## types that do not spin -/

theorem binders_iterate_of_not_spins {t : Ty} (h : spins [] t = false) {m : Nat}
    (hm : m ≤ t.binders) : (unfold^[m] t).binders + m = t.binders := by
  induction m generalizing t with
  | zero => rfl
  | succ m ih =>
    cases t with
    | mu x b =>
      obtain ⟨hb, hs⟩ := unfold_of_not_spins h
      have hm' : m ≤ (mu x b).unfold.binders := by rw [hb]; exact Nat.le_of_succ_le_succ hm
      have := ih hs hm'
      rw [Function.iterate_succ_apply, binders]
      omega
    | _ => exact absurd hm (Nat.not_succ_le_zero m)

/-- each turn takes a binder away, so no type comes up again -/
theorem stopsAfter_of_not_spins {t : Ty} (h : spins [] t = false) : t.StopsAfter t.binders := by
  refine ⟨.inl (isMu_iterate_of_not_spins h), fun m hm => ⟨?_, fun i hi e => ?_⟩⟩
  · have hb := binders_iterate_of_not_spins h (Nat.le_of_lt hm)
    cases hmu : (unfold^[m] t).isMu with
    | true => rfl
    | false =>
      have := binders_of_not_isMu hmu
      omega
  · have hb := binders_iterate_of_not_spins h (Nat.le_of_lt hm)
    have hb' := binders_iterate_of_not_spins h (Nat.le_of_lt (Nat.lt_trans hi hm))
    rw [e] at hb'
    omega

/-! ## types that spin -/

section
variable {after : List Name} {x : Name}

/-- the binders in front of a closed type drop without a trace -/
theorem iterate_unfold_chain {s : Ty} (hs : s.Closed) {names : List Name} {m : Nat}
    (hm : m ≤ names.length) : unfold^[m] (chain names s) = chain (names.drop m) s := by
  induction m generalizing names with
  | zero => rfl
  | succ m ih =>
    cases names with
    | nil => exact absurd hm (Nat.not_succ_le_zero m)
    | cons x names =>
      rw [Function.iterate_succ_apply, chain_cons, unfold_mu, (closed_chain hs names).subst_eq,
        ih (Nat.le_of_succ_le_succ hm), List.drop_succ_cons]

theorem closed_chain_var (x : Name) (after : List Name) : (chain (x :: after) (var x)).Closed := by
  refine closed_of_spins ?_
  rw [spins_chain, spins_var, List.contains_iff_mem]
  simp

/-- the turn of the binder of the variable: what is behind it comes in front of the whole type -/
theorem unfold_chain_var (hx : x ∉ after) :
    (chain (x :: after) (var x)).unfold = chain after (chain (x :: after) (var x)) := by
  rw [chain_cons, unfold_mu, subst_chain hx, subst_var_self]

/-- the first round -/
theorem iterate_before {before : List Name} {m : Nat} (hm : m ≤ before.length) :
    unfold^[m] (chain (before ++ x :: after) (var x)) =
      chain (before.drop m) (chain (x :: after) (var x)) := by
  rw [chain_append]
  exact iterate_unfold_chain (closed_chain_var x after) hm

/-- the second round -/
theorem iterate_after (before : List Name) (hx : x ∉ after) {m : Nat} (hm : m ≤ after.length) :
    unfold^[before.length + 1 + m] (chain (before ++ x :: after) (var x)) =
      chain (after.drop m) (chain (x :: after) (var x)) := by
  rw [Nat.add_comm, Function.iterate_add_apply, Nat.add_comm _ 1, Function.iterate_add_apply,
    iterate_before (Nat.le_refl _), List.drop_length]
  show unfold^[m] (chain (x :: after) (var x)).unfold = _
  rw [unfold_chain_var hx, iterate_unfold_chain (closed_chain_var x after) hm]

/-- every turn of the two rounds gives a part of the names in front of the closed type -/
theorem exists_iterate_eq (before : List Name) (hx : x ∉ after) {m : Nat}
    (hm : m ≤ before.length + 1 + after.length) :
    ∃ names, unfold^[m] (chain (before ++ x :: after) (var x)) =
        chain names (chain (x :: after) (var x)) ∧
      ((m ≤ before.length ∧ names = before.drop m) ∨
        ∃ j, m = before.length + 1 + j ∧ names = after.drop j) := by
  by_cases h : m ≤ before.length
  · exact ⟨_, iterate_before h, .inl ⟨h, rfl⟩⟩
  · obtain ⟨j, rfl⟩ := Nat.exists_eq_add_of_le (Nat.lt_of_not_le h)
    exact ⟨_, iterate_after before hx (by omega), .inr ⟨j, rfl, rfl⟩⟩

/-- a type of the second round that came up in the first has no more names in front than both
rounds end with -/
theorem length_le_of_drop_eq {before : List Name} {i j : Nat} (h : before.drop i = after.drop j) :
    after.length - j ≤ (sharedEnd before after).length := by
  have hsuffix : after.drop j <:+ sharedEnd before after :=
    suffix_sharedEnd (h ▸ List.drop_suffix i before) (List.drop_suffix j after)
  have hlen := hsuffix.length_le
  rwa [List.length_drop] at hlen

theorem drop_eq_of_suffix {xs ys : List Name} (h : xs <:+ ys) :
    ys.drop (ys.length - xs.length) = xs :=
  (List.suffix_iff_eq_drop.mp h).symm

/-- the variable of a binder with `before` in front of it and `after` behind it: both rounds are
gone through, up to the names that both end with -/
theorem stopsAfter_chain (before : List Name) (hx : x ∉ after) :
    (chain (before ++ x :: after) (var x)).StopsAfter
        (before.length + 1 + after.length - (sharedEnd before after).length) ∧
      (chain (before ++ x :: after) (var x)).headForm =
        chain (sharedEnd before after ++ x :: after) (var x) := by
  have hleft := sharedEnd_suffix_left before after
  have hright := sharedEnd_suffix_right before after
  have hl := hleft.length_le
  have hr := hright.length_le
  have hlast : unfold^[before.length + 1 + after.length - (sharedEnd before after).length]
      (chain (before ++ x :: after) (var x)) =
        chain (sharedEnd before after) (chain (x :: after) (var x)) := by
    rw [Nat.add_sub_assoc hr, iterate_after before hx (Nat.sub_le _ _), drop_eq_of_suffix hright]
  have hstops : (chain (before ++ x :: after) (var x)).StopsAfter
      (before.length + 1 + after.length - (sharedEnd before after).length) := by
    refine ⟨.inr ⟨before.length - (sharedEnd before after).length, by omega, ?_⟩, fun m hm => ?_⟩
    · rw [hlast, iterate_before (Nat.sub_le _ _), drop_eq_of_suffix hleft]
    · obtain ⟨names, hnames, hcase⟩ :=
        exists_iterate_eq before (m := m) hx (by omega)
      rw [hnames]
      refine ⟨isMu_chain rfl names, fun i hi e => ?_⟩
      obtain ⟨earlier, hearlier, hcase'⟩ :=
        exists_iterate_eq before (m := i) hx (by omega)
      rw [hearlier] at e
      obtain rfl := chain_inj e
      -- the names that are left get fewer within a round, so the two turns are of different rounds
      rcases hcase with ⟨hb, rfl⟩ | ⟨j, rfl, rfl⟩ <;> rcases hcase' with ⟨hb', h⟩ | ⟨j', rfl, h⟩
      · have := congrArg List.length h
        rw [List.length_drop, List.length_drop] at this
        omega
      · omega
      · have := length_le_of_drop_eq h.symm
        omega
      · have := congrArg List.length h
        rw [List.length_drop, List.length_drop] at this
        omega
  exact ⟨hstops, by rw [← hstops.eq_headForm, hlast, ← chain_append]⟩

end

/-! ## any type -/

theorem eq_chain {t : Ty} {names : List Name} {x : Name} (hfront : t.front = names)
    (hbehind : t.behind = var x) : t = chain names (var x) := by
  rw [← chain_front_behind t, hfront, hbehind]

/-- a type that spins is the chain of the binder of its variable, the last one of its name -/
theorem exists_chain_of_spins {t : Ty} (h : spins [] t = true) :
    ∃ before x after, t = chain (before ++ x :: after) (var x) ∧ x ∉ after := by
  obtain ⟨x, hbehind, hmem⟩ := (spins_iff t).mp h
  obtain ⟨before, after, hfront, hx⟩ := exists_last_of_mem hmem
  exact ⟨before, x, after, eq_chain hfront hbehind, hx⟩

theorem headForm_headForm (t : Ty) : t.headForm.headForm = t.headForm := by
  cases h : spins [] t with
  | false =>
    refine headForm_of_not_isMu ?_
    rw [headForm_of_not_spins h]
    exact isMu_iterate_of_not_spins h
  | true =>
    obtain ⟨before, x, after, rfl, hx⟩ := exists_chain_of_spins h
    rw [(stopsAfter_chain before hx).2, (stopsAfter_chain _ hx).2,
      sharedEnd_eq_left (sharedEnd_suffix_right before after)]

/-- A type with a variable behind its binders whose own binder has `before` in front of it and
`after` behind it takes one turn for each binder, save for the names that both of them end with; it
comes to its own end from these names on, and is unguarded.  Any other type takes one turn for each
binder and comes to a constructor or a free variable.  So unfolding to the end a second time, or
once more at the beginning if the type is not unguarded, changes nothing. -/
theorem unfolding_stops (t : Ty) :
    (∀ before x after, t.front = before ++ x :: after → t.behind = var x → x ∉ after →
        t.StopsAfter (t.binders - (sharedEnd before after).length) ∧
          t.headForm = chain (sharedEnd before after ++ x :: after) (var x) ∧
          t.isUnguarded = true) ∧
      ((∀ x, t.behind = var x → x ∉ t.front) →
        t.StopsAfter t.binders ∧ t.headForm.isMu = false ∧ t.isUnguarded = false) ∧
      t.headForm.headForm = t.headForm ∧
      (t.isUnguarded = false → t.unfold.headForm = t.headForm) := by
  refine ⟨fun before x after hfront hbehind hx => ?_, fun hfree => ?_, headForm_headForm t,
    fun hg => ?_⟩
  · have hbinders : t.binders = before.length + 1 + after.length := by
      rw [← length_front, hfront, List.length_append, List.length_cons]
      omega
    have hspins : spins [] t = true :=
      (spins_iff t).mpr ⟨x, hbehind, hfront ▸ List.mem_append_right _ (List.mem_cons_self ..)⟩
    obtain ⟨hstops, hhead⟩ := stopsAfter_chain before hx
    rw [← eq_chain hfront hbehind, ← hbinders] at hstops
    rw [← eq_chain hfront hbehind] at hhead
    exact ⟨hstops, hhead, by rw [isUnguarded_eq_spins, hspins]⟩
  · have hspins : spins [] t = false := by
      rw [Bool.eq_false_iff]
      intro h
      obtain ⟨x, hbehind, hmem⟩ := (spins_iff t).mp h
      exact hfree x hbehind hmem
    have hg : t.isUnguarded = false := by rw [isUnguarded_eq_spins, hspins]
    exact ⟨stopsAfter_of_not_spins hspins, hg, hg⟩
  · rw [isUnguarded_eq_spins] at hg
    exact headForm_unfold_of_not_spins hg

/-- one name in front of the binder of `b` that the chain also ends with: four turns for five
binders -/
theorem unfolding_stops_shadowed :
    let t := chain ["c", "a", "b", "d", "a"] (var "b")
    t.StopsAfter 4 ∧ t.headForm = chain ["a", "b", "d", "a"] (var "b") ∧ t.isUnguarded = true := by
  intro t
  exact (unfolding_stops t).1 ["c", "a"] "b" ["d", "a"] rfl rfl (by decide)

/-- with the binder's neighbour repeated at the end, the type itself comes up again before the last
binder has had its turn, and not the part of it that starts at the binder -/
theorem unfolding_comes_back_early :
    let t := chain ["a", "b", "a"] (var "b")
    t.Closed ∧ t.StopsAfter 2 ∧ ¬ t.StopsAfter t.binders ∧ t.headForm = t ∧
      t.headForm ≠ chain ["b", "a"] (var "b") := by
  decide

end Ty

end Equirec
