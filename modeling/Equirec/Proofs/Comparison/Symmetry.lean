import Equirec.Proofs.Comparison.Order

/-!
# The two directions of equality

Objects are compared by their number of properties and by a look-up of each property of the left
one in the right one.  With distinct names on the left this leaves no property on the right out;
with a name twice on the left it may.

* `Row.counterparts`          as many members on the right, and those of the left found there
* `Comparison.counterparts_of_met`
                              then the parts on the right are all in premises
* `Ty.DistinctTo`             the objects down to a depth name each property once
* `Ty.distinct_of_distinctTo` a closed type names each property once if it does to every depth
* `Ty.distinct_of_equal`      so does what a well-formed type is found equal to
* `Ty.equal_both_ways`        of well-formed types both directions give the same answer
* `Ty.equal_one_way`          two types that `Ty.validate` accepts, with different answers
-/

namespace Equirec

/-! ## rows -/

namespace Row

theorem exists_mem_zip {ps qs : Row} (h : ps.length = qs.length) {q : Name × Ty} (hq : q ∈ qs) :
    ∃ p, (p, q) ∈ ps.zip qs := by
  obtain ⟨i, hi⟩ := List.mem_iff_getElem?.mp hq
  have hlt : i < ps.length := h ▸ (List.getElem?_eq_some_iff.mp hi).1
  exact ⟨ps[i], List.mem_of_getElem?
    (List.getElem?_zip_eq_some.mpr ⟨List.getElem?_eq_getElem hlt, hi⟩)⟩

/-- if the members of a row have distinct names, and as many members of another row are found under
them, then the names of the other row are distinct, and each of its members is found -/
theorem counterparts {ps qs : Row} {R : Ty → Ty → Prop} (hps : (names ps).Nodup)
    (hlen : ps.length = qs.length) (h : ∀ p ∈ ps, ∃ u, qs.lookup p.1 = some u ∧ R p.2 u) :
    (names qs).Nodup ∧ ∀ q ∈ qs, ∃ p ∈ ps, R p.2 q.2 := by
  have hsub : names ps ⊆ names qs := by
    intro x hx
    obtain ⟨p, hp, rfl⟩ := List.mem_map.mp hx
    obtain ⟨u, hu, _⟩ := h p hp
    exact lookup_isSome_iff.mp (Option.isSome_of_eq_some hu)
  have hperm : (names ps).Perm (names qs) :=
    (List.subperm_of_subset hps hsub).perm_of_length_le (by simp [names, hlen])
  have hqs : (names qs).Nodup := hperm.nodup hps
  refine ⟨hqs, fun q hq => ?_⟩
  obtain ⟨p, hp, hx⟩ := List.mem_map.mp (hperm.mem_iff.mpr (List.mem_map.mpr ⟨q, hq, rfl⟩))
  obtain ⟨u, hu, hR⟩ := h p hp
  rw [hx, lookup_of_mem hqs hq] at hu
  exact ⟨p, hp, Option.some.inj hu ▸ hR⟩

end Row

/-! ## parts on the right -/

namespace Comparison

/-- where the premises of heads are met and no name is twice on the left, no name is twice on the
right, and each part on the right is in a premise -/
theorem counterparts_of_met {R : Ty → Ty → Prop} {t u : Ty} (hu : u.isMu = false)
    (hd : ∀ ps, t = .object ps → (Row.names ps).Nodup)
    (h : ∀ o ∈ equality.premises t u, Met R o) :
    (∀ qs, u = .object qs → (Row.names qs).Nodup) ∧
      ∀ b, u.Leads b → ∃ a, t.Leads a ∧ R a b := by
  cases u with
  | func qs s =>
    cases t with
    | func ps r =>
      obtain ⟨hlen, hps, hr⟩ := met_func_iff.mp h
      refine ⟨fun _ e => absurd e (by simp), fun b hb => ?_⟩
      cases hb with
      | param hq =>
        obtain ⟨p, hp⟩ := Row.exists_mem_zip hlen hq
        exact ⟨p.2, .param (List.of_mem_zip hp).1, hps _ hp⟩
      | result => exact ⟨r, .result, hr⟩
    | _ => exact absurd (h none (List.mem_singleton_self _)) id
  | object qs =>
    cases t with
    | object ps =>
      obtain ⟨hlen, hps⟩ := met_object_equality_iff.mp h
      obtain ⟨hqs, hfound⟩ := Row.counterparts (hd ps rfl) hlen hps
      refine ⟨fun _ e => Ty.object.inj e ▸ hqs, fun b hb => ?_⟩
      cases hb with
      | prop hq =>
        obtain ⟨p, hp, hR⟩ := hfound _ hq
        exact ⟨p.2, .prop hp, hR⟩
    | _ => exact absurd (h none (List.mem_singleton_self _)) id
  | mu y c => exact absurd hu (by simp [Ty.isMu])
  | _ =>
    refine ⟨fun _ e => absurd e (by simp), fun b hb => ?_⟩
    cases hb

/-- heads that agree up to the names of binders ask of their parts that they do -/
theorem met_of_alphaEq {t u : Ty} (ht : t.Closed) (hm : t.isMu = false) (h : t.alphaEq u = true) :
    ∀ o ∈ equality.premises t u, Met (fun a b => a.alphaEq b = true) o := by
  cases t with
  | boolean | number =>
    cases u <;> first | exact List.forall_mem_nil _ | exact absurd h Bool.false_ne_true
  | func ps r =>
    cases u with
    | func qs s =>
      obtain ⟨⟨hlen, hps⟩, hr⟩ := Ty.alphaUnder_func_iff.mp h
      exact met_func_iff.mpr ⟨hlen, hps, hr⟩
    | _ => exact absurd h Bool.false_ne_true
  | object ps =>
    cases u with
    | object qs => exact met_object_equality_iff.mpr (Ty.alphaUnder_object_iff.mp h)
    | _ => exact absurd h Bool.false_ne_true
  | var x => exact absurd ht (Ty.not_closed_var x)
  | mu x b => exact absurd hm (by simp [Ty.isMu])

end Comparison

/-! ## distinct names to a depth -/

namespace Ty

/-- the objects among the nodes at depths below `k` name each property once -/
def DistinctTo : Nat → Ty → Prop
  | 0, _ => True
  | k + 1, t => (∀ ps, t.headForm = object ps → (Row.names ps).Nodup) ∧
      ∀ u, t.headForm.isMu = false → t.headForm.Leads u → u.DistinctTo k

theorem DistinctTo.of_succ {k : Nat} {t : Ty} (h : t.DistinctTo (k + 1)) : t.DistinctTo k := by
  induction k generalizing t with
  | zero => exact trivial
  | succ k ih => exact ⟨h.1, fun u hm hl => ih (h.2 u hm hl)⟩

theorem distinctTo_of_isUnguarded {t : Ty} (h : t.isUnguarded = true) (k : Nat) :
    t.DistinctTo k := by
  have h' : t.headForm.isMu = true := h
  cases k with
  | zero => exact trivial
  | succ k =>
    refine ⟨fun ps hps => ?_, fun u hm _ => absurd (h'.symm.trans hm) (by simp)⟩
    rw [hps] at h'
    exact absurd h' (by simp [isMu])

theorem distinctTo_congr {k : Nat} {t u : Ty} (h : t.headForm = u.headForm) :
    t.DistinctTo k ↔ u.DistinctTo k := by
  cases k with
  | zero => exact Iff.rfl
  | succ k => rw [DistinctTo, DistinctTo, h]

theorem distinctTo_unfold {k : Nat} {t : Ty} : t.unfold.DistinctTo k ↔ t.DistinctTo k := by
  cases hs : spins [] t with
  | true =>
    refine iff_of_true (distinctTo_of_isUnguarded ?_ k) (distinctTo_of_isUnguarded ?_ k)
    · rw [isUnguarded_eq_spins, spins_unfold hs]
    · rw [isUnguarded_eq_spins, hs]
  | false => exact distinctTo_congr (headForm_unfold_of_not_spins hs)

theorem DistinctTo.of_alphaEq {k : Nat} {t u : Ty} (ht : t.Closed) (h : t.alphaEq u = true)
    (hd : t.DistinctTo k) : u.DistinctTo k := by
  induction k generalizing t u with
  | zero => exact trivial
  | succ k ih =>
    cases hg : t.isUnguarded with
    | true => exact distinctTo_of_isUnguarded (by rw [← alphaEq_isUnguarded h, hg]) _
    | false =>
      have hhead : t.headForm.alphaEq u.headForm = true := alphaEq_headForm ht h hg
      obtain ⟨hnames, hparts⟩ := Comparison.counterparts_of_met (alphaEq_isMu hhead ▸ hg) hd.1
        (Comparison.met_of_alphaEq ht.headForm hg hhead)
      refine ⟨hnames, fun b _ hb => ?_⟩
      obtain ⟨a, ha, hab⟩ := hparts b hb
      exact ih (Closed.of_leads ht.headForm ha) hab (hd.2 a hg ha)

/-! ## distinct names to every depth -/

/-- what is written in a type comes up in its unfoldings, with types put in for its variables -/
theorem distinct_of_inst {σ : Assignment} {t : Ty} (hσ : Fills [] σ t)
    (h : ∀ k, (t.inst σ).DistinctTo k) : t.Distinct := by
  induction t generalizing σ with
  | func ps r hps hr =>
    have hpart : ∀ u, (func (instRow σ ps) (r.inst σ)).Leads u → ∀ k, u.DistinctTo k :=
      fun u hu k => (h (k + 1)).2 u rfl hu
    refine allObjects_func.mpr ⟨fun p hp => hps p hp (hσ.part (.param hp)) ?_,
      hr (hσ.part .result) (hpart _ .result)⟩
    exact hpart _ (.param (mem_instRow.mpr ⟨p, hp, rfl⟩))
  | object ps hps =>
    have hpart : ∀ u, (object (instRow σ ps)).Leads u → ∀ k, u.DistinctTo k :=
      fun u hu k => (h (k + 1)).2 u rfl hu
    have hnames : Row.names (instRow σ ps) = Row.names ps := by
      rw [instRow_eq_map, Row.names, List.map_map]
      rfl
    refine allObjects_object.mpr ⟨hnames ▸ (h 1).1 _ rfl, fun p hp => ?_⟩
    exact hps p hp (hσ.part (.prop hp)) (hpart _ (.prop (mem_instRow.mpr ⟨p, hp, rfl⟩)))
  | mu x b hb =>
    refine allObjects_mu.mpr (hb hσ.body fun k => ?_)
    have hturn := distinctTo_unfold.mpr (h k)
    rwa [← subst_inst hσ.within b List.not_mem_nil]
  | _ => exact trivial

/-- a closed type names each property once if it does so to every depth -/
theorem distinct_of_distinctTo {t : Ty} (ht : t.Closed) (h : ∀ k, t.DistinctTo k) :
    t.Distinct :=
  distinct_of_inst (Fills.none fun y hy => absurd hy (ht.not_mem y)) fun k => by
    rw [inst_none]
    exact h k

end Ty

/-! ## runs of equality -/

namespace Comparison

theorem deepens_distinctTo :
    equality.Deepens (fun t u => t.WellFormed ∧ u.Closed) fun k _ u => u.DistinctTo k where
  zero := trivial
  of_succ := Ty.DistinctTo.of_succ
  of_alphaEq hG _ hu h := h.of_alphaEq hG.2 hu
  unguarded _ hu := Ty.distinctTo_of_isUnguarded hu _
  left hG := ⟨hG.1.headForm, hG.2⟩
  of_left _ h := h
  right hG := ⟨hG.1, Ty.Closed.headForm hG.2⟩
  of_right hg h := (Ty.distinctTo_congr (Ty.headForm_of_not_isMu hg)).mp h
  premise := by
    rintro t u p ⟨ht, hu⟩ hp
    obtain ⟨hl, hr⟩ := leads_of_mem_premises_equality hp
    exact ⟨ht.of_leads hl, Ty.Closed.of_leads hu hr⟩
  of_premises := by
    rintro k t u ⟨ht, _⟩ htm hum h
    obtain ⟨hnames, hparts⟩ :=
      counterparts_of_met hum (fun ps e => (Ty.wellFormed_object.mp (e ▸ ht)).1) h
    rw [Ty.DistinctTo, Ty.headForm_of_not_isMu hum]
    refine ⟨hnames, fun b _ hb => ?_⟩
    obtain ⟨_, _, hk⟩ := hparts b hb
    exact hk

end Comparison

namespace Ty

/-- a type that a well-formed type is found equal to names no property twice either -/
theorem distinct_of_equal {t u : Ty} (ht : t.WellFormed) (hu : u.Closed)
    (h : (t.equal u).outcome = .ok true) : u.Distinct := by
  obtain ⟨n, hn⟩ := Comparison.equality.exists_holds_eq t u
  rw [equal, hn] at h
  exact distinct_of_distinctTo hu fun k =>
    Comparison.deepens_distinctTo.of_run k n ⟨ht, hu⟩ (fun _ hp => absurd hp List.not_mem_nil) h

/-- a well-formed type is compared with another one to the same answer in both directions if the
other one names each property once too; and even if that is not known, `true` is right: then it does
so, and is equal the other way around -/
theorem equal_both_ways {t u : Ty} (ht : t.WellFormed) (hu : u.validate = .ok ()) :
    (u.Distinct →
      ∃ answer, (t.equal u).outcome = .ok answer ∧ (u.equal t).outcome = .ok answer) ∧
    ((t.equal u).outcome = .ok true → u.Distinct ∧ (u.equal t).outcome = .ok true) := by
  constructor
  · intro hdistinct
    obtain ⟨answer, hrun, h⟩ := Comparison.holds_decides (c := .equality) ht ⟨hu, hdistinct⟩
    obtain ⟨answer', hrun', h'⟩ := Comparison.holds_decides (c := .equality) ⟨hu, hdistinct⟩ ht
    have hsame : answer = answer' := by
      rw [Bool.eq_iff_iff, h, h']
      exact eq_comm
    exact ⟨answer, hrun, hsame ▸ hrun'⟩
  · intro h
    have hdistinct : u.Distinct := distinct_of_equal ht (validate_eq_ok_iff.mp hu) h
    exact ⟨hdistinct, (equal_iff ⟨hu, hdistinct⟩ ht).mpr ((equal_iff ht ⟨hu, hdistinct⟩).mp h).symm⟩

/-- a stream and its unfolding with the properties the other way around -/
theorem equal_both_ways_streams :
    let t := mu "a" (object [("head", number), ("tail", var "a")])
    let u := object [("tail", mu "b" (object [("head", number), ("tail", var "b")])),
      ("head", number)]
    (∃ answer, (t.equal u).outcome = .ok answer ∧ (u.equal t).outcome = .ok answer) ∧
      u.Distinct ∧ (u.equal t).outcome = .ok true := by
  intro t u
  have h := equal_both_ways (t := t) (u := u) (by decide) (by decide)
  exact ⟨h.1 (by decide), h.2 (by decide)⟩

/-- with a name twice on the left the answers differ: the second property of the name is compared
with the first one, and the property that is only on the right with none -/
theorem equal_one_way :
    let t := object [("x", number), ("x", number)]
    let u := object [("x", number), ("y", boolean)]
    t.validate = .ok () ∧ u.validate = .ok () ∧
      (t.equal u).outcome = .ok true ∧ (u.equal t).outcome = .ok false := by
  decide

end Ty

end Equirec
