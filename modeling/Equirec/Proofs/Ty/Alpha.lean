import Equirec.Ty.Alpha
import Equirec.Proofs.Ty.Inst
import Equirec.Proofs.Ty.Head

/-!
# Comparison up to the names of binders

* `Ty.varsMatch_cons_iff`       a pair of binders more around two variables
* `Ty.alphaUnder_inst`          types that agree stay so when types that agree are put in
* `Ty.alphaEq_unfold`           closed types that agree have unfoldings that agree
* `Ty.alphaEq_headForm`         they have head forms that agree, or none of them has one
* `Ty.Recognizable`             every object of the type agrees with itself, and so do all its
                                parts; types with distinct names are such types
-/

namespace Equirec.Ty

/-! ## variables -/

theorem varsMatch_nil (v w : Name) : varsMatch [] v w = true ↔ v = w := by
  show (v == w) = true ↔ v = w
  exact beq_iff_eq

theorem varsMatch_cons_iff {x y v w : Name} {bound : List (Name × Name)} :
    varsMatch ((x, y) :: bound) v w = true ↔
      (v = x ∧ w = y) ∨ (v ≠ x ∧ w ≠ y ∧ varsMatch bound v w = true) := by
  rw [varsMatch]
  by_cases hx : v = x
  · subst hx
    rw [List.find?_cons_of_pos (by simp)]
    simp only [BEq.rfl, Bool.true_and, beq_iff_eq, ne_eq, not_true_eq_false, false_and, or_false,
      true_and]
    exact eq_comm
  · by_cases hy : w = y
    · rw [List.find?_cons_of_pos (by simp [hy])]
      simp [hx, hy, Ne.symm hx]
    · rw [List.find?_cons_of_neg (by simp [Ne.symm hx, Ne.symm hy]), varsMatch]
      simp [hx, hy]

/-- below binders that have the same names on both sides a variable agrees with itself alone -/
theorem varsMatch_diagonal (names : List Name) (v w : Name) :
    varsMatch (names.map fun x => (x, x)) v w = true ↔ v = w := by
  induction names with
  | nil => exact varsMatch_nil v w
  | cons x names ih =>
    rw [List.map_cons, varsMatch_cons_iff, ih]
    constructor
    · rintro (⟨rfl, rfl⟩ | ⟨_, _, rfl⟩) <;> rfl
    · rintro rfl
      by_cases e : v = x
      · exact .inl ⟨e, e⟩
      · exact .inr ⟨e, e, rfl⟩

/-! ## rows -/

theorem alphaUnder_mu {bound : List (Name × Name)} {x y : Name} {b c : Ty} :
    alphaUnder bound (mu x b) (mu y c) = alphaUnder ((x, y) :: bound) b c :=
  rfl

theorem alphaParams_iff {bound : List (Name × Name)} {ps qs : Row} :
    alphaParams bound ps qs = true ↔
      ps.length = qs.length ∧ ∀ p ∈ ps.zip qs, alphaUnder bound p.1.2 p.2.2 = true := by
  induction ps generalizing qs with
  | nil =>
    cases qs with
    | nil => exact iff_of_true rfl ⟨rfl, List.forall_mem_nil _⟩
    | cons q qs => exact iff_of_false Bool.false_ne_true fun h => absurd h.1 (by simp)
  | cons p ps ih =>
    cases qs with
    | nil => exact iff_of_false Bool.false_ne_true fun h => absurd h.1 (by simp)
    | cons q qs =>
      show (alphaUnder bound p.2 q.2 && alphaParams bound ps qs) = true ↔ _
      rw [Bool.and_eq_true, ih, List.zip_cons_cons, List.forall_mem_cons,
        List.length_cons, List.length_cons, Nat.add_right_cancel_iff, and_left_comm]

theorem alphaUnder_func_iff {bound : List (Name × Name)} {ps qs : Row} {r s : Ty} :
    alphaUnder bound (func ps r) (func qs s) = true ↔
      (ps.length = qs.length ∧ ∀ p ∈ ps.zip qs, alphaUnder bound p.1.2 p.2.2 = true) ∧
        alphaUnder bound r s = true := by
  show (alphaParams bound ps qs && alphaUnder bound r s) = true ↔ _
  rw [Bool.and_eq_true, alphaParams_iff]

theorem alphaProps_iff {bound : List (Name × Name)} {ps qs : Row} :
    alphaProps bound ps qs = true ↔
      ∀ p ∈ ps, ∃ u, qs.lookup p.1 = some u ∧ alphaUnder bound p.2 u = true := by
  induction ps with
  | nil => exact iff_of_true rfl (List.forall_mem_nil _)
  | cons p ps ih =>
    rw [alphaProps, List.forall_mem_cons, ← ih]
    cases h : qs.lookup p.1 with
    | none => simp
    | some u => simp

theorem alphaUnder_object_iff {bound : List (Name × Name)} {ps qs : Row} :
    alphaUnder bound (object ps) (object qs) = true ↔
      ps.length = qs.length ∧
        ∀ p ∈ ps, ∃ u, qs.lookup p.1 = some u ∧ alphaUnder bound p.2 u = true := by
  show (ps.length == qs.length && alphaProps bound ps qs) = true ↔ _
  rw [Bool.and_eq_true, beq_iff_eq, alphaProps_iff]

/-! ## instances -/

/-- two types agree after types have been put in for their variables if, where their variables
agree, both are left as they are, or what is put in for them agrees whatever binders are around -/
theorem alphaUnder_inst {bound bound' : List (Name × Name)} {σ τ : Assignment} {t u : Ty}
    (h : alphaUnder bound t u = true)
    (hστ : ∀ v ∈ t.freeVars, ∀ w ∈ u.freeVars, varsMatch bound v w = true →
      (σ v = none ∧ τ w = none ∧ varsMatch bound' v w = true) ∨
      ∃ r s, σ v = some r ∧ τ w = some s ∧ ∀ around, alphaUnder around r s = true) :
    alphaUnder bound' (t.inst σ) (u.inst τ) = true := by
  induction t generalizing u bound bound' σ τ with
  | boolean =>
    cases u with
    | boolean => rfl
    | _ => exact absurd h Bool.false_ne_true
  | number =>
    cases u with
    | number => rfl
    | _ => exact absurd h Bool.false_ne_true
  | func ps r hps hr =>
    cases u with
    | func qs s =>
      obtain ⟨⟨hl, hp⟩, hres⟩ := alphaUnder_func_iff.mp h
      have hres' := hr hres fun v hv w hw =>
        hστ v (mem_freeVars_func.mpr (.inr hv)) w (mem_freeVars_func.mpr (.inr hw))
      refine alphaUnder_func_iff.mpr
        ⟨⟨by rw [length_instRow, length_instRow, hl], fun p hmem => ?_⟩, hres'⟩
      rw [instRow_eq_map, instRow_eq_map, List.zip_map, List.mem_map] at hmem
      obtain ⟨⟨p, q⟩, hpq, rfl⟩ := hmem
      have hpm := (List.of_mem_zip hpq).1
      have hqm := (List.of_mem_zip hpq).2
      exact hps p hpm (hp _ hpq) fun v hv w hw => hστ v (mem_freeVars_func.mpr (.inl ⟨p, hpm, hv⟩))
        w (mem_freeVars_func.mpr (.inl ⟨q, hqm, hw⟩))
    | _ => exact absurd h Bool.false_ne_true
  | object ps hps =>
    cases u with
    | object qs =>
      obtain ⟨hl, hp⟩ := alphaUnder_object_iff.mp h
      refine alphaUnder_object_iff.mpr
        ⟨by rw [length_instRow, length_instRow, hl], fun p hmem => ?_⟩
      obtain ⟨p, hpm, rfl⟩ := mem_instRow.mp hmem
      obtain ⟨s, hs, ha⟩ := hp p hpm
      refine ⟨s.inst τ, by rw [lookup_instRow, hs, Option.map_some], ?_⟩
      exact hps p hpm ha fun v hv w hw => hστ v (mem_freeVars_object.mpr ⟨p, hpm, hv⟩) w
        (mem_freeVars_object.mpr ⟨_, Row.mem_of_lookup hs, hw⟩)
    | _ => exact absurd h Bool.false_ne_true
  | var v =>
    cases u with
    | var w =>
      rcases hστ v (mem_freeVars_var.mpr rfl) w (mem_freeVars_var.mpr rfl) h with
        ⟨hv, hw, hm⟩ | ⟨r, s, hv, hw, ha⟩
      · rw [inst_var_of_none hv, inst_var_of_none hw]
        exact hm
      · rw [inst_var_of_some hv, inst_var_of_some hw]
        exact ha bound'
    | _ => exact absurd h Bool.false_ne_true
  | mu x b hb =>
    cases u with
    | mu y c =>
      rw [alphaUnder_mu] at h
      show alphaUnder ((x, y) :: bound') (b.inst (σ.hide x)) (c.inst (τ.hide y)) = true
      refine hb h fun v hv w hw hm => ?_
      rcases varsMatch_cons_iff.mp hm with ⟨rfl, rfl⟩ | ⟨hx, hy, hm⟩
      · exact .inl ⟨σ.hide_self v, τ.hide_self w, varsMatch_cons_iff.mpr (.inl ⟨rfl, rfl⟩)⟩
      · rw [σ.hide_of_ne hx, τ.hide_of_ne hy]
        rcases hστ v (mem_freeVars_mu.mpr ⟨hv, hx⟩) w (mem_freeVars_mu.mpr ⟨hw, hy⟩) hm with
          ⟨h1, h2, h3⟩ | h
        · exact .inl ⟨h1, h2, varsMatch_cons_iff.mpr (.inr ⟨hx, hy, h3⟩)⟩
        · exact .inr h
    | _ => exact absurd h Bool.false_ne_true

/-- closed types agree or not, whatever binders are around -/
theorem alphaUnder_of_closed {bound : List (Name × Name)} {t u : Ty} (ht : t.Closed)
    (h : alphaUnder bound t u = true) (around : List (Name × Name)) :
    alphaUnder around t u = true := by
  have : alphaUnder around (t.inst .none) (u.inst .none) = true :=
    alphaUnder_inst h fun v hv => absurd hv (ht.not_mem v)
  rwa [inst_none, inst_none] at this

/-! ## unfolding -/

theorem alphaEq_isMu {t u : Ty} (h : t.alphaEq u = true) : t.isMu = u.isMu := by
  cases t <;> cases u <;> first | rfl | exact absurd h Bool.false_ne_true

theorem alphaEq_unfold {t u : Ty} (ht : t.Closed) (h : t.alphaEq u = true) :
    t.unfold.alphaEq u.unfold = true := by
  cases t with
  | mu x b =>
    cases u with
    | mu y c =>
      rw [unfold_mu, unfold_mu, subst_eq_inst, subst_eq_inst]
      have hbody : alphaUnder [(x, y)] b c = true := h
      refine alphaUnder_inst hbody fun v hv w hw hm => ?_
      rcases varsMatch_cons_iff.mp hm with ⟨rfl, rfl⟩ | ⟨hx, _, _⟩
      · exact .inr ⟨_, _, Assignment.set_self .., Assignment.set_self ..,
          alphaUnder_of_closed ht h⟩
      · exact absurd (ht.mem_body hv) hx
    | _ => exact absurd h Bool.false_ne_true
  | _ =>
    cases u with
    | mu y c => exact absurd h Bool.false_ne_true
    | _ => exact h

theorem alphaUnder_binders {bound : List (Name × Name)} {t u : Ty}
    (h : alphaUnder bound t u = true) : t.binders = u.binders := by
  induction t generalizing u bound with
  | mu x b ih =>
    cases u with
    | mu y c =>
      rw [alphaUnder_mu] at h
      exact congrArg (· + 1) (ih h)
    | _ => exact absurd h Bool.false_ne_true
  | _ =>
    cases u with
    | mu y c => exact absurd h Bool.false_ne_true
    | _ => rfl

theorem varsMatch_mem {bound : List (Name × Name)} {v w : Name}
    (h : varsMatch bound v w = true) : v ∈ bound.map Prod.fst ↔ w ∈ bound.map Prod.snd := by
  induction bound with
  | nil => exact iff_of_false List.not_mem_nil List.not_mem_nil
  | cons b bound ih =>
    rw [List.map_cons, List.map_cons, List.mem_cons, List.mem_cons]
    rcases varsMatch_cons_iff.mp h with ⟨h1, h2⟩ | ⟨h1, h2, hm⟩
    · exact iff_of_true (.inl h1) (.inl h2)
    · rw [ih hm]
      exact or_congr (iff_of_false h1 h2) Iff.rfl

theorem alphaUnder_spins {bound : List (Name × Name)} {t u : Ty}
    (h : alphaUnder bound t u = true) :
    spins (bound.map Prod.fst) t = spins (bound.map Prod.snd) u := by
  induction t generalizing u bound with
  | var v =>
    cases u with
    | var w =>
      rw [spins_var, spins_var, Bool.eq_iff_iff, List.contains_iff_mem, List.contains_iff_mem]
      exact varsMatch_mem h
    | _ => exact absurd h Bool.false_ne_true
  | mu x b ih =>
    cases u with
    | mu y c =>
      rw [alphaUnder_mu] at h
      exact ih h
    | _ => exact absurd h Bool.false_ne_true
  | _ =>
    cases u with
    | mu y c => exact absurd h Bool.false_ne_true
    | var w => exact absurd h Bool.false_ne_true
    | _ => rfl

theorem alphaEq_isUnguarded {t u : Ty} (h : t.alphaEq u = true) :
    t.isUnguarded = u.isUnguarded := by
  have hs : spins [] t = spins [] u := alphaUnder_spins h
  rw [isUnguarded_eq_spins, isUnguarded_eq_spins, hs]

theorem alphaEq_iterate_unfold {t u : Ty} (ht : t.Closed) (h : t.alphaEq u = true) (n : Nat) :
    (unfold^[n] t).alphaEq (unfold^[n] u) = true := by
  induction n generalizing t u with
  | zero => exact h
  | succ n ih =>
    rw [Function.iterate_succ_apply, Function.iterate_succ_apply]
    exact ih ht.unfold (alphaEq_unfold ht h)

theorem alphaEq_headForm {t u : Ty} (ht : t.Closed) (h : t.alphaEq u = true)
    (hg : t.isUnguarded = false) : t.headForm.alphaEq u.headForm = true := by
  have hu : u.isUnguarded = false := by rw [← alphaEq_isUnguarded h, hg]
  rw [isUnguarded_eq_spins] at hg hu
  rw [headForm_of_not_spins hg, headForm_of_not_spins hu, ← alphaUnder_binders h]
  exact alphaEq_iterate_unfold ht h _

/-! ## a type and itself -/

/-- every object of the type agrees with itself.  A property is looked up by its name, so this may
fail where a name is repeated, and then the type is not known again when it is met again. -/
def Recognizable (t : Ty) : Prop := t.AllObjects fun ps => (object ps).alphaEq (object ps) = true

instance (t : Ty) : Decidable t.Recognizable := inferInstanceAs (Decidable (t.AllObjects _))

theorem alphaUnder_self {t : Ty} (ht : t.Recognizable) (names : List Name) :
    alphaUnder (names.map fun x => (x, x)) t t = true := by
  induction t generalizing names with
  | boolean => rfl
  | number => rfl
  | func ps r hps hr =>
    obtain ⟨h, h'⟩ := allObjects_func.mp ht
    refine alphaUnder_func_iff.mpr ⟨⟨rfl, fun p hp => ?_⟩, hr h' names⟩
    obtain ⟨i, hi, rfl⟩ := List.mem_iff_getElem.mp hp
    rw [List.getElem_zip]
    exact hps _ (List.getElem_mem _) (h _ (List.getElem_mem _)) names
  | object ps hps =>
    have h : alphaUnder (names.map fun x => (x, x)) ((object ps).inst .none)
        ((object ps).inst .none) = true :=
      alphaUnder_inst (allObjects_object.mp ht).1 fun v _ w _ hm =>
        .inl ⟨rfl, rfl, (varsMatch_diagonal names v w).mpr ((varsMatch_nil v w).mp hm)⟩
    rwa [inst_none] at h
  | var x => exact (varsMatch_diagonal names x x).mpr rfl
  | mu x b hb => exact hb (allObjects_mu.mp ht) (x :: names)

theorem Recognizable.alphaEq_self {t : Ty} (ht : t.Recognizable) : t.alphaEq t = true :=
  alphaUnder_self ht []

theorem Distinct.recognizable {t : Ty} (ht : t.Distinct) : t.Recognizable := by
  induction t with
  | boolean => exact trivial
  | number => exact trivial
  | func ps r hps hr =>
    obtain ⟨h, h'⟩ := allObjects_func.mp ht
    exact allObjects_func.mpr ⟨fun p hp => hps p hp (h p hp), hr h'⟩
  | object ps hps =>
    obtain ⟨hn, h⟩ := allObjects_object.mp ht
    have hself : (object ps).alphaEq (object ps) = true := alphaUnder_object_iff.mpr
      ⟨rfl, fun p hp => ⟨p.2, Row.lookup_of_mem hn hp, (hps p hp (h p hp)).alphaEq_self⟩⟩
    exact allObjects_object.mpr ⟨hself, fun p hp => hps p hp (h p hp)⟩
  | var x => exact trivial
  | mu x b hb => exact allObjects_mu.mpr (hb (allObjects_mu.mp ht))

end Equirec.Ty
