import Equirec.Comparison
import Equirec.Proofs.Ty.Regular

/-!
# One step of a comparison

* `Assumptions.cover_iff`           the pairs that are assumed
* `Comparison.Met`                  a premise whose pair is in a relation
* `Comparison.met_func_iff`, `Comparison.met_object_equality_iff`
                                    what the premises of functions and of objects ask
* `Comparison.allHold_cases`        premises all hold, or one of them ends their run
* `Comparison.leads_of_mem_premises`
                                    premises are pairs of parts, one of each side
* `Comparison.turns`                the unfoldings that stand before the next premises
* `Comparison.Ends`                 the ways in which a comparison ends
* `Comparison.ends`                 within a budget that is not used up it ends in one of them
-/

namespace Equirec

theorem Assumptions.cover_iff {seen : Assumptions} {t u : Ty} :
    seen.cover t u = true ↔ ∃ p ∈ seen, p.1.alphaEq t = true ∧ p.2.alphaEq u = true := by
  show (seen.any fun p => p.1.alphaEq t && p.2.alphaEq u) = true ↔ _
  simp only [List.any_eq_true, Bool.and_eq_true]

namespace Comparison

/-! ## premises -/

/-- a premise that is a pair, and a pair in the relation -/
def Met (R : Ty → Ty → Prop) : Option (Ty × Ty) → Prop
  | some p => R p.1 p.2
  | none => False

theorem met_iff {R : Ty → Ty → Prop} {o : Option (Ty × Ty)} :
    Met R o ↔ ∃ p, o = some p ∧ R p.1 p.2 := by
  cases o with
  | none => exact iff_of_false id fun ⟨_, h, _⟩ => absurd h (by simp)
  | some p => exact ⟨fun h => ⟨p, rfl, h⟩, fun ⟨_, h, hR⟩ => Option.some.inj h ▸ hR⟩

/-- premises all hold, or one has no counterpart, or the run of one of them is the end -/
theorem allHold_cases (related : Ty → Ty → Run Bool) (ps : List (Option (Ty × Ty))) :
    ((allHold related ps).outcome = .ok true ∧
      ∀ o ∈ ps, Met (fun a b => (related a b).outcome = .ok true) o) ∨
    ((allHold related ps).outcome = .ok false ∧ none ∈ ps) ∨
    ∃ p, some p ∈ ps ∧ (related p.1 p.2).outcome = (allHold related ps).outcome ∧
      (allHold related ps).outcome ≠ .ok true := by
  induction ps with
  | nil => exact .inl ⟨rfl, fun o ho => absurd ho List.not_mem_nil⟩
  | cons o ps ih =>
    cases o with
    | none => exact .inr (.inl ⟨rfl, List.mem_cons_self ..⟩)
    | some p =>
      have hrun : (allHold related (some p :: ps)).outcome =
          (related p.1 p.2).outcome.bind fun b =>
            if b then (allHold related ps).outcome else .ok false := by
        show Run.outcome (related p.1 p.2 >>= _) = _
        rw [Run.outcome_bind]
        congr 1
        funext b
        cases b <;> rfl
      rw [hrun]
      cases hp : (related p.1 p.2).outcome with
      | ok b =>
        cases b with
        | true =>
          rw [Outcome.ok_bind, if_pos rfl]
          rcases ih with ⟨h, hall⟩ | ⟨h, hnone⟩ | ⟨q, hq, h⟩
          · refine .inl ⟨h, fun o ho => ?_⟩
            rcases List.mem_cons.mp ho with rfl | ho
            · exact hp
            · exact hall o ho
          · exact .inr (.inl ⟨h, List.mem_cons_of_mem _ hnone⟩)
          · exact .inr (.inr ⟨q, List.mem_cons_of_mem _ hq, h⟩)
        | false => exact .inr (.inr ⟨p, List.mem_cons_self .., hp, by simp⟩)
      | error e => exact .inr (.inr ⟨p, List.mem_cons_self .., hp, by simp⟩)
      | exhausted => exact .inr (.inr ⟨p, List.mem_cons_self .., hp, by simp⟩)

theorem paramPair_cases (c : Comparison) (t u : Ty) :
    c.paramPair t u = (t, u) ∨ c = subtyping ∧ c.paramPair t u = (u, t) := by
  cases c
  · exact .inl rfl
  · exact .inr ⟨rfl, rfl⟩

theorem mem_premises_func {c : Comparison} {ps qs : Row} {r s : Ty} (h : ps.length = qs.length)
    {o : Option (Ty × Ty)} :
    o ∈ c.premises (.func ps r) (.func qs s) ↔
      (∃ p ∈ ps.zip qs, some (c.paramPair p.1.2 p.2.2) = o) ∨ o = some (r, s) := by
  show o ∈ (if ps.length = qs.length then _ else [none]) ↔ _
  rw [if_pos h, List.mem_append, List.mem_map, List.mem_singleton]

theorem premises_func_of_ne {c : Comparison} {ps qs : Row} {r s : Ty}
    (h : ps.length ≠ qs.length) : c.premises (.func ps r) (.func qs s) = [none] :=
  if_neg h

theorem mem_premises_object_equality {ps qs : Row} (h : ps.length = qs.length)
    {o : Option (Ty × Ty)} :
    o ∈ equality.premises (.object ps) (.object qs) ↔
      ∃ p ∈ ps, (qs.lookup p.1).map (fun u => (p.2, u)) = o := by
  show o ∈ (if ps.length = qs.length then _ else [none]) ↔ _
  rw [if_pos h, List.mem_map]

theorem premises_object_equality_of_ne {ps qs : Row} (h : ps.length ≠ qs.length) :
    equality.premises (.object ps) (.object qs) = [none] :=
  if_neg h

theorem met_func_iff {c : Comparison} {R : Ty → Ty → Prop} {ps qs : Row} {r s : Ty} :
    (∀ o ∈ c.premises (.func ps r) (.func qs s), Met R o) ↔
      ps.length = qs.length ∧
        (∀ p ∈ ps.zip qs, R (c.paramPair p.1.2 p.2.2).1 (c.paramPair p.1.2 p.2.2).2) ∧ R r s := by
  by_cases hlen : ps.length = qs.length
  · constructor
    · intro h
      exact ⟨hlen, fun p hp => h _ ((mem_premises_func hlen).mpr (.inl ⟨p, hp, rfl⟩)),
        h _ ((mem_premises_func hlen).mpr (.inr rfl))⟩
    · rintro ⟨_, hps, hr⟩ o ho
      rcases (mem_premises_func hlen).mp ho with ⟨p, hp, rfl⟩ | rfl
      · exact hps p hp
      · exact hr
  · rw [premises_func_of_ne hlen]
    exact iff_of_false (fun h => h none (List.mem_singleton_self _)) fun h => hlen h.1

/-- for equality each property on the left needs one of its name on the right, and nothing but the
count speaks of those on the right -/
theorem met_object_equality_iff {R : Ty → Ty → Prop} {ps qs : Row} :
    (∀ o ∈ equality.premises (.object ps) (.object qs), Met R o) ↔
      ps.length = qs.length ∧ ∀ p ∈ ps, ∃ u, qs.lookup p.1 = some u ∧ R p.2 u := by
  by_cases hlen : ps.length = qs.length
  · constructor
    · refine fun h => ⟨hlen, fun p hp => ?_⟩
      obtain ⟨q, hq, hR⟩ := met_iff.mp (h _ ((mem_premises_object_equality hlen).mpr ⟨p, hp, rfl⟩))
      obtain ⟨u, hu, rfl⟩ := Option.map_eq_some_iff.mp hq
      exact ⟨u, hu, hR⟩
    · rintro ⟨_, h⟩ o ho
      obtain ⟨p, hp, rfl⟩ := (mem_premises_object_equality hlen).mp ho
      obtain ⟨u, hu, hR⟩ := h p hp
      rw [hu]
      exact hR
  · rw [premises_object_equality_of_ne hlen]
    exact iff_of_false (fun h => h none (List.mem_singleton_self _)) fun h => hlen h.1

theorem mem_premises_object_subtyping {ps qs : Row} {o : Option (Ty × Ty)} :
    o ∈ subtyping.premises (.object ps) (.object qs) ↔
      ∃ q ∈ qs, (ps.lookup q.1).map (fun t => (t, q.2)) = o :=
  List.mem_map

/-- a premise takes a part of each side, in subtyping possibly the other way around -/
theorem leads_or_turned_of_mem_premises {c : Comparison} {t u a b : Ty}
    (h : some (a, b) ∈ c.premises t u) :
    (t.Leads a ∧ u.Leads b) ∨ c = subtyping ∧ t.Leads b ∧ u.Leads a := by
  cases t with
  | func ps r =>
    cases u with
    | func qs s =>
      by_cases hlen : ps.length = qs.length
      · rcases (mem_premises_func hlen).mp h with ⟨p, hp, e⟩ | e
        · obtain ⟨hl, hr⟩ := List.of_mem_zip hp
          rcases c.paramPair_cases p.1.2 p.2.2 with hc | ⟨hsub, hc⟩
          · cases e.symm.trans (congrArg some hc)
            exact .inl ⟨.param hl, .param hr⟩
          · cases e.symm.trans (congrArg some hc)
            exact .inr ⟨hsub, .param hl, .param hr⟩
        · cases e
          exact .inl ⟨.result, .result⟩
      · rw [premises_func_of_ne hlen] at h
        exact absurd h (by simp)
    | _ => exact absurd h (by cases c <;> simp [premises])
  | object ps =>
    cases u with
    | object qs =>
      cases c with
      | equality =>
        by_cases hlen : ps.length = qs.length
        · obtain ⟨p, hp, e⟩ := (mem_premises_object_equality hlen).mp h
          obtain ⟨v, hv, e⟩ := Option.map_eq_some_iff.mp e
          cases e
          exact .inl ⟨.prop hp, .prop (Row.mem_of_lookup hv)⟩
        · rw [premises_object_equality_of_ne hlen] at h
          exact absurd h (by simp)
      | subtyping =>
        obtain ⟨q, hq, e⟩ := mem_premises_object_subtyping.mp h
        obtain ⟨v, hv, e⟩ := Option.map_eq_some_iff.mp e
        cases e
        exact .inl ⟨.prop (Row.mem_of_lookup hv), .prop hq⟩
    | _ => exact absurd h (by cases c <;> simp [premises])
  | _ => cases u <;> exact absurd h (by cases c <;> simp [premises])

theorem leads_of_mem_premises {c : Comparison} {t u a b : Ty}
    (h : some (a, b) ∈ c.premises t u) :
    (t.Leads a ∧ u.Leads b) ∨ (t.Leads b ∧ u.Leads a) :=
  (leads_or_turned_of_mem_premises h).imp_right And.right

theorem leads_of_mem_premises_equality {t u a b : Ty}
    (h : some (a, b) ∈ equality.premises t u) : t.Leads a ∧ u.Leads b :=
  (leads_or_turned_of_mem_premises h).resolve_right fun h => absurd h.1 (by simp)

/-! ## turns -/

/-- the sides of a pair that are still to be unfolded -/
def turns (t u : Ty) : Nat := t.isMu.toNat + u.isMu.toNat

theorem turns_le (t u : Ty) : turns t u ≤ 2 :=
  Nat.add_le_add (Bool.toNat_le _) (Bool.toNat_le _)

theorem turns_headForm_left {t u : Ty} (ht : t.isMu = true) (hg : t.isUnguarded = false) :
    turns t.headForm u < turns t u := by
  rw [turns, turns, ht, show t.headForm.isMu = false from hg]
  exact Nat.add_lt_add_right Nat.zero_lt_one _

theorem turns_headForm_right {t u : Ty} (hu : u.isMu = true) (hg : u.isUnguarded = false) :
    turns t u.headForm < turns t u := by
  rw [turns, turns, hu, show u.headForm.isMu = false from hg]
  exact Nat.add_lt_add_left Nat.zero_lt_one _

/-! ## steps -/

/-- how a comparison ends, `next` being the comparisons with one nested step less -/
inductive Ends (c : Comparison) (next : Assumptions → Ty → Ty → Run Bool) (seen : Assumptions)
    (t u : Ty) (o : Outcome Bool) : Prop
  | assumed (hc : seen.cover t u = true) (ho : o = .ok true)
  | unguarded (hc : seen.cover t u = false) (ht : t.isUnguarded = true)
      (ho : o = .ok u.isUnguarded)
  | turnLeft (hc : seen.cover t u = false) (ht : t.isMu = true) (hg : t.isUnguarded = false)
      (ho : o = (next ((t, u) :: seen) t.headForm u).outcome)
  | onlyRightUnguarded (hc : seen.cover t u = false) (ht : t.isMu = false)
      (hu : u.isUnguarded = true) (ho : o = .ok false)
  | turnRight (hc : seen.cover t u = false) (ht : t.isMu = false) (hu : u.isMu = true)
      (hg : u.isUnguarded = false) (ho : o = (next ((t, u) :: seen) t u.headForm).outcome)
  | openHead (hc : seen.cover t u = false) (ht : t.isMu = false) (hu : u.isMu = false) {x : Name}
      (hx : headVar? t u = some x) (ho : o = .error (.unboundTypeVariable x))
  | heads (hc : seen.cover t u = false) (ht : t.isMu = false) (hu : u.isMu = false)
      (hx : headVar? t u = none) (ho : o = (allHold (next seen) (c.premises t u)).outcome)

theorem ends_step (c : Comparison) (next : Assumptions → Ty → Ty → Run Bool) {seen : Assumptions}
    {t u : Ty} (hc : seen.cover t u = false) :
    c.Ends next seen t u (c.step next seen t u).outcome := by
  unfold step
  cases ht : t.isMu with
  | true =>
    cases hg : t.isUnguarded with
    | true =>
      refine .unguarded hc hg ?_
      rw [Ty.isUnguarded] at hg
      simp [Ty.outcome_normalize, Ty.outcome_askUnguarded, hg]
    | false =>
      refine .turnLeft hc ht hg ?_
      rw [Ty.isUnguarded] at hg
      simp [Ty.outcome_normalize, hg]
  | false =>
    cases hu : u.isMu with
    | true =>
      cases hg : u.isUnguarded with
      | true =>
        refine .onlyRightUnguarded hc ht hg ?_
        rw [Ty.isUnguarded] at hg
        simp [Ty.outcome_normalize, hg]
      | false =>
        refine .turnRight hc ht hu hg ?_
        rw [Ty.isUnguarded] at hg
        simp [Ty.outcome_normalize, hg]
    | false =>
      cases hx : headVar? t u with
      | some x => exact .openHead hc ht hu hx rfl
      | none => exact .heads hc ht hu hx rfl

theorem ends (c : Comparison) (n : Nat) (seen : Assumptions) (t u : Ty) :
    c.Ends (c.holdsWithin n) seen t u (c.holdsWithin (n + 1) seen t u).outcome := by
  rw [holdsWithin_succ]
  cases hc : seen.cover t u with
  | true => exact .assumed hc rfl
  | false => exact ends_step c (c.holdsWithin n) hc

end Comparison

end Equirec
