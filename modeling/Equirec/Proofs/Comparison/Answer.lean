import Equirec.Proofs.Comparison.Meaning

/-!
# The endings of a comparison

A comparison may come back to a pair that it takes for granted.  It has passed a node of both trees
by then: a pair is taken for granted as a side of it is unfolded, and does not come back before
both sides are heads.  So what has been taken for granted is right to a depth, and then to the
next.

* `Comparison.Deepens.of_run`    what a run that ends in `true` says of the nodes at every depth
* `Comparison.related_of_run`    such a run is right
* `Comparison.run_of_related`    a comparison of related types does not end in `false`
* `Comparison.free_of_run`       one that fails names a free variable of the two types
-/

namespace Equirec.Comparison

variable {c : Comparison}

theorem turns_eq_of_alphaEq {p : Ty × Ty} {t u : Ty} (ht : p.1.alphaEq t = true)
    (hu : p.2.alphaEq u = true) : turns p.1 p.2 = turns t u := by
  rw [turns, turns, Ty.alphaEq_isMu ht, Ty.alphaEq_isMu hu]

/-! ## what a run bears out -/

/-- statements `A k` of pairs of a kind `G`, each about the nodes at depths below `k`, that are
known of a pair if they are known of a pair it is known by, of its unfolding or, one node up, of
its premises -/
structure Deepens (c : Comparison) (G : Ty → Ty → Prop) (A : Nat → Ty → Ty → Prop) : Prop where
  zero : ∀ {t u}, A 0 t u
  of_succ : ∀ {k t u}, A (k + 1) t u → A k t u
  of_alphaEq : ∀ {k t u t' u'}, G t u → t.alphaEq t' = true → u.alphaEq u' = true → A k t u →
    A k t' u'
  unguarded : ∀ {k t u}, t.isUnguarded = true → u.isUnguarded = true → A k t u
  left : ∀ {t u}, G t u → G t.headForm u
  of_left : ∀ {k t u}, t.isUnguarded = false → A k t.headForm u → A k t u
  right : ∀ {t u}, G t u → G t u.headForm
  of_right : ∀ {k t u}, u.isUnguarded = false → A k t u.headForm → A k t u
  premise : ∀ {t u p}, G t u → some p ∈ c.premises t u → G p.1 p.2
  of_premises : ∀ {k t u}, G t u → t.isMu = false → u.isMu = false →
    (∀ o ∈ c.premises t u, Met (A k) o) → A (k + 1) t u

namespace Deepens

variable {G : Ty → Ty → Prop} {A : Nat → Ty → Ty → Prop}

/-- the step to the next depth: a pair that is not known as far has a turn ahead that the pair in
question has behind it -/
theorem succ_of_run (hA : c.Deepens G A) {k : Nat}
    (ih : ∀ (n : Nat) (seen : Assumptions) (t u : Ty), G t u →
      (∀ p ∈ seen, G p.1 p.2 ∧ A k p.1 p.2) →
      (c.holdsWithin n seen t u).outcome = .ok true → A k t u)
    (n : Nat) {seen : Assumptions} {t u : Ty} (hG : G t u)
    (hs : ∀ p ∈ seen, G p.1 p.2 ∧ A k p.1 p.2)
    (hahead : ∀ p ∈ seen, A (k + 1) p.1 p.2 ∨ turns t u < turns p.1 p.2)
    (h : (c.holdsWithin n seen t u).outcome = .ok true) : A (k + 1) t u := by
  induction n generalizing seen t u with
  | zero => exact absurd h (by simp [holdsWithin_zero])
  | succ n ihn =>
    have hs' : ∀ p ∈ (t, u) :: seen, G p.1 p.2 ∧ A k p.1 p.2 :=
      List.forall_mem_cons.mpr ⟨⟨hG, ih (n + 1) seen t u hG hs h⟩, hs⟩
    -- a turn leaves the pair it started from ahead
    have hturn : ∀ {t' u'}, turns t' u' < turns t u →
        ∀ p ∈ (t, u) :: seen, A (k + 1) p.1 p.2 ∨ turns t' u' < turns p.1 p.2 := by
      intro t' u' hlt
      refine List.forall_mem_cons.mpr ⟨.inr hlt, fun p hp => ?_⟩
      exact (hahead p hp).imp_right fun hp => Nat.lt_trans hlt hp
    cases c.ends n seen t u with
    | assumed hc _ =>
      obtain ⟨p, hp, hpt, hpu⟩ := Assumptions.cover_iff.mp hc
      rcases hahead p hp with hknown | hlt
      · exact hA.of_alphaEq (hs p hp).1 hpt hpu hknown
      · rw [turns_eq_of_alphaEq hpt hpu] at hlt
        exact absurd hlt (Nat.lt_irrefl _)
    | unguarded _ hgt ho => exact hA.unguarded hgt (Outcome.ok.inj (ho.symm.trans h))
    | turnLeft _ htm hgt ho =>
      exact hA.of_left hgt
        (ihn (hA.left hG) hs' (hturn (turns_headForm_left htm hgt)) (ho.symm.trans h))
    | onlyRightUnguarded _ _ _ ho => exact absurd (ho.symm.trans h) (by simp)
    | turnRight _ _ hum hgu ho =>
      exact hA.of_right hgu
        (ihn (hA.right hG) hs' (hturn (turns_headForm_right hum hgu)) (ho.symm.trans h))
    | openHead _ _ _ _ ho => exact absurd (ho.symm.trans h) (by simp)
    | heads _ htm hum _ ho =>
      rw [ho] at h
      rcases allHold_cases (c.holdsWithin n seen) (c.premises t u) with
        ⟨_, hall⟩ | ⟨hfalse, _⟩ | ⟨_, _, _, hne⟩
      · refine hA.of_premises hG htm hum fun o ho => ?_
        obtain ⟨p, rfl, hp⟩ := met_iff.mp (hall o ho)
        exact ih n seen p.1 p.2 (hA.premise hG ho) hs hp
      · exact absurd (h.symm.trans hfalse) (by simp)
      · exact absurd h hne

/-- a run that ends in `true` bears the statements out to every depth, if its assumptions do -/
theorem of_run (hA : c.Deepens G A) (k n : Nat) {seen : Assumptions} {t u : Ty} (hG : G t u)
    (hs : ∀ p ∈ seen, G p.1 p.2 ∧ A k p.1 p.2)
    (h : (c.holdsWithin n seen t u).outcome = .ok true) : A k t u := by
  induction k generalizing n seen t u with
  | zero => exact hA.zero
  | succ k ih =>
    exact hA.succ_of_run (fun n _ _ _ hG hs h => ih n hG hs h) n hG
      (fun p hp => ⟨(hs p hp).1, hA.of_succ (hs p hp).2⟩) (fun p hp => .inl (hs p hp).2) h

end Deepens

/-! ## runs that end in `true` -/

theorem agree_of_isUnguarded {t u : Ty} (ht : t.isUnguarded = true) (hu : u.isUnguarded = true)
    (k : Nat) : c.Agree k t u := by
  cases k with
  | zero => exact trivial
  | succ k =>
    refine heads_headForm.mpr ⟨?_, fun s a b ha _ => ?_⟩
    · rw [Ty.label_eq_unguarded.mpr ht, Ty.label_eq_unguarded.mpr hu]
      exact fits_unguarded_left.mpr rfl
    · rw [Ty.part?_eq_none_of_isUnguarded ht] at ha
      exact absurd ha (by simp)

/-- agreement to a depth is borne out: pairs known by each other have the same trees -/
theorem deepens_agree : c.Deepens (fun t u => t.WellFormed ∧ u.WellFormed) c.Agree where
  zero := trivial
  of_succ := Agree.of_succ
  of_alphaEq hG ht hu h :=
    h.congr (Ty.tree_eq_of_alphaEq hG.1 ht) (Ty.tree_eq_of_alphaEq hG.2 hu)
  unguarded ht hu := agree_of_isUnguarded ht hu _
  left hG := ⟨hG.1.headForm, hG.2⟩
  of_left _ h := h.congr (Ty.tree_headForm _) rfl
  right hG := ⟨hG.1, hG.2.headForm⟩
  of_right _ h := h.congr rfl (Ty.tree_headForm _)
  premise := by
    rintro t u p ⟨ht, hu⟩ hp
    rcases leads_of_mem_premises hp with ⟨hl, hr⟩ | ⟨hl, hr⟩
    · exact ⟨ht.of_leads hl, hu.of_leads hr⟩
    · exact ⟨hu.of_leads hr, ht.of_leads hl⟩
  of_premises := by
    rintro k t u ⟨ht, hu⟩ htm hum h
    show c.Heads (c.Agree k) t.headForm u.headForm
    rw [Ty.headForm_of_not_isMu htm, Ty.headForm_of_not_isMu hum]
    exact (premises_iff ht hu htm).mp h

/-- what ends in `true` under assumptions that are right is right -/
theorem related_of_run {n : Nat} {seen : Assumptions} {t u : Ty} (ht : t.WellFormed)
    (hu : u.WellFormed)
    (hs : ∀ p ∈ seen, p.1.WellFormed ∧ p.2.WellFormed ∧ c.Related p.1 p.2)
    (h : (c.holdsWithin n seen t u).outcome = .ok true) : c.Related t u := by
  refine related_iff_agree.mpr fun k => deepens_agree.of_run k n ⟨ht, hu⟩ (fun p hp => ?_) h
  obtain ⟨h1, h2, hp⟩ := hs p hp
  exact ⟨⟨h1, h2⟩, related_iff_agree.mp hp k⟩

/-! ## runs that end in `false` -/

theorem isUnguarded_eq_of_related {t u : Ty} (h : c.Related t u) :
    t.isUnguarded = u.isUnguarded := by
  have hfits := (heads_headForm.mp h.heads).1
  rw [Bool.eq_iff_iff, ← Ty.label_eq_unguarded, ← Ty.label_eq_unguarded]
  constructor
  · intro ht
    rw [ht] at hfits
    exact fits_unguarded_left.mp hfits
  · intro hu
    rw [hu] at hfits
    exact fits_unguarded_right.mp hfits

/-- related types are not told apart, whatever is assumed -/
theorem run_of_related {n : Nat} {seen : Assumptions} {t u : Ty} (ht : t.WellFormed)
    (hu : u.WellFormed) (h : c.Related t u) :
    (c.holdsWithin n seen t u).outcome ≠ .ok false := by
  induction n generalizing seen t u with
  | zero => simp [holdsWithin_zero]
  | succ n ih =>
    have hg := isUnguarded_eq_of_related h
    cases c.ends n seen t u with
    | assumed _ ho => simp [ho]
    | unguarded _ hgt ho => simp [ho, ← hg, hgt]
    | turnLeft _ _ hgt ho =>
      rw [ho]
      exact ih ht.headForm hu (h.congr (Ty.tree_headForm _).symm rfl)
    | onlyRightUnguarded _ htm hgu _ =>
      rw [Ty.isUnguarded_of_not_isMu htm, hgu] at hg
      exact absurd hg Bool.false_ne_true
    | turnRight _ _ _ hgu ho =>
      rw [ho]
      exact ih ht hu.headForm (h.congr rfl (Ty.tree_headForm _).symm)
    | openHead _ _ _ _ ho => simp [ho]
    | heads _ htm hum _ ho =>
      rw [ho]
      have hheads := h.heads
      rw [Ty.headForm_of_not_isMu htm, Ty.headForm_of_not_isMu hum] at hheads
      have hmet := (premises_iff ht hu htm).mpr hheads
      rcases allHold_cases (c.holdsWithin n seen) (c.premises t u) with
        ⟨htrue, _⟩ | ⟨_, hnone⟩ | ⟨p, hp, hrun, _⟩
      · simp [htrue]
      · exact absurd (hmet none hnone) id
      · rw [← hrun]
        rcases leads_of_mem_premises hp with ⟨hl, hr⟩ | ⟨hl, hr⟩
        · exact ih (ht.of_leads hl) (hu.of_leads hr) (hmet _ hp)
        · exact ih (hu.of_leads hr) (ht.of_leads hl) (hmet _ hp)

/-! ## runs that fail -/

theorem mem_freeVars_of_headVar? {t u : Ty} {x : Name} (h : headVar? t u = some x) :
    x ∈ t.freeVars ∨ x ∈ u.freeVars := by
  cases t with
  | var y =>
    obtain rfl : y = x := Option.some.inj h
    exact .inl (Ty.mem_freeVars_var.mpr rfl)
  | _ =>
    cases u with
    | var y =>
      obtain rfl : y = x := Option.some.inj h
      exact .inr (Ty.mem_freeVars_var.mpr rfl)
    | _ => exact absurd h (by simp [headVar?])

/-- a comparison fails over a variable that is free in one of the types -/
theorem free_of_run {n : Nat} {seen : Assumptions} {t u : Ty} {e : TypeError}
    (h : (c.holdsWithin n seen t u).outcome = .error e) :
    ∃ x, e = .unboundTypeVariable x ∧ (x ∈ t.freeVars ∨ x ∈ u.freeVars) := by
  induction n generalizing seen t u with
  | zero => exact absurd h (by simp [holdsWithin_zero])
  | succ n ih =>
    cases c.ends n seen t u with
    | assumed _ ho | unguarded _ _ ho | onlyRightUnguarded _ _ _ ho =>
      exact absurd (ho.symm.trans h) (by simp)
    | turnLeft _ _ _ ho =>
      obtain ⟨x, he, hx⟩ := ih (ho.symm.trans h)
      exact ⟨x, he, hx.imp_left Ty.mem_freeVars_headForm⟩
    | turnRight _ _ _ _ ho =>
      obtain ⟨x, he, hx⟩ := ih (ho.symm.trans h)
      exact ⟨x, he, hx.imp_right Ty.mem_freeVars_headForm⟩
    | openHead _ _ _ hx ho =>
      exact ⟨_, (Outcome.error.inj (h.symm.trans ho)), mem_freeVars_of_headVar? hx⟩
    | heads _ _ _ _ ho =>
      rw [ho] at h
      rcases allHold_cases (c.holdsWithin n seen) (c.premises t u) with
        ⟨htrue, _⟩ | ⟨hfalse, _⟩ | ⟨p, hp, hrun, _⟩
      · exact absurd (h.symm.trans htrue) (by simp)
      · exact absurd (h.symm.trans hfalse) (by simp)
      · obtain ⟨x, he, hx⟩ := ih (hrun.trans h)
        refine ⟨x, he, ?_⟩
        rcases leads_of_mem_premises hp with ⟨hl, hr⟩ | ⟨hl, hr⟩
        · exact hx.imp (Ty.mem_freeVars_of_leads hl) (Ty.mem_freeVars_of_leads hr)
        · exact hx.symm.imp (Ty.mem_freeVars_of_leads hl) (Ty.mem_freeVars_of_leads hr)

theorem free_of_holds {t u : Ty} {e : TypeError} (h : (c.holds t u).outcome = .error e) :
    ∃ x, e = .unboundTypeVariable x ∧ (x ∈ t.freeVars ∨ x ∈ u.freeVars) := by
  obtain ⟨n, hn⟩ := c.exists_holds_eq t u
  rw [hn] at h
  exact free_of_run h

theorem run_of_closed {n : Nat} {seen : Assumptions} {t u : Ty} (ht : t.Closed) (hu : u.Closed)
    (e : TypeError) : (c.holdsWithin n seen t u).outcome ≠ .error e := by
  intro h
  obtain ⟨x, _, hx | hx⟩ := free_of_run h
  · exact ht.not_mem x hx
  · exact hu.not_mem x hx

end Equirec.Comparison
