import Equirec.Proofs.Tree
import Equirec.Proofs.Comparison.Step

/-!
# What the comparisons mean

Equality means that the trees of two types are equal, subtyping that they are related by
`Tree.Sub`.  Both are limits: two types are related if they agree to every depth.

* `Comparison.Related`           the meaning of a comparison
* `Comparison.Fits`              what it asks of two nodes
* `Comparison.Turned`            which side comes first at a place below them
* `Comparison.Heads`             what it asks of two heads and their parts
* `Comparison.Agree`             what it asks of the nodes down to a depth
* `Comparison.Related.heads`     related types have related parts
* `Comparison.related_of_heads`  being related is the largest relation with this property
* `Comparison.related_iff_agree` types are related if they agree to every depth
* `Comparison.premises_iff`      the premises of two heads ask as much
-/

namespace Equirec.Comparison

/-- the trees of the two types are as the comparison has to decide -/
def Related : Comparison → Ty → Ty → Prop
  | equality, t, u => t.tree = u.tree
  | subtyping, t, u => Tree.Sub t.tree u.tree

/-- what the comparison asks of the constructors of two nodes -/
def Fits : Comparison → Label → Label → Prop
  | equality, a, b => a = b
  | subtyping, .object names, .object wanted => wanted ⊆ names
  | subtyping, .free _, _ => False
  | subtyping, a, b => a = b

/-- a relation with its sides in the order of the comparison at a place -/
def Turned : Comparison → Place → (Ty → Ty → Prop) → Ty → Ty → Prop
  | subtyping, .param _, R, a, b => R b a
  | _, _, R, a, b => R a b

/-- what the comparison asks of two heads, `R` being what it asks of their parts -/
def Heads (c : Comparison) (R : Ty → Ty → Prop) (t u : Ty) : Prop :=
  c.Fits t.shape u.shape ∧
    ∀ s a b, t.member? s = some a → u.member? s = some b → c.Turned s R a b

/-- what the comparison asks of the nodes at depths below `k` -/
def Agree (c : Comparison) : Nat → Ty → Ty → Prop
  | 0, _, _ => True
  | k + 1, t, u => c.Heads (c.Agree k) t.headForm u.headForm

theorem heads_headForm {c : Comparison} {R : Ty → Ty → Prop} {t u : Ty} :
    c.Heads R t.headForm u.headForm ↔
      c.Fits t.label u.label ∧
        ∀ s a b, t.part? s = some a → u.part? s = some b → c.Turned s R a b := Iff.rfl

/-! ## nodes -/

theorem fits_unguarded_left {c : Comparison} {b : Label} :
    c.Fits .unguarded b ↔ b = .unguarded := by
  cases c <;> exact eq_comm

theorem fits_unguarded_right {c : Comparison} {a : Label} :
    c.Fits a .unguarded ↔ a = .unguarded := by
  cases c with
  | equality => exact Iff.rfl
  | subtyping => cases a <;> simp [Fits]

/-- objects may have properties to spare, other constructors are the same on both sides -/
theorem fits_subtyping {a b : Label} (h : subtyping.Fits a b) :
    (∃ names wanted, a = .object names ∧ b = .object wanted ∧ wanted ⊆ names) ∨
    a = b ∧ ((∃ n, b = .func n) ∨ b = .boolean ∨ b = .number ∨ b = .unguarded) := by
  cases a with
  | object names =>
    cases b with
    | object wanted => exact .inl ⟨names, wanted, rfl, rfl, h⟩
    | _ => exact absurd h (by simp [Fits])
  | free x => exact absurd h id
  | _ =>
    obtain rfl : _ = b := h
    simp

theorem Fits.has {c : Comparison} {a b : Label} {s : Place} (h : c.Fits a b) (hs : b.Has s) :
    a.Has s := by
  cases c with
  | equality => exact (show a = b from h) ▸ hs
  | subtyping =>
    rcases fits_subtyping h with ⟨names, wanted, rfl, rfl, hsub⟩ | ⟨rfl, _⟩
    · cases s with
      | prop x => exact hsub hs
      | _ => exact hs
    · exact hs

theorem Turned.mono {c : Comparison} {s : Place} {R R' : Ty → Ty → Prop}
    (hR : ∀ a b, R a b → R' a b) {a b : Ty} (h : c.Turned s R a b) : c.Turned s R' a b := by
  cases c <;> cases s <;> exact hR _ _ h

/-- a relation that depends on trees only still does with its sides turned -/
theorem Turned.congr {c : Comparison} {s : Place} {R : Ty → Ty → Prop}
    (hR : ∀ a b a' b', a.tree = a'.tree → b.tree = b'.tree → R a b → R a' b') {a b a' b' : Ty}
    (ha : a.tree = a'.tree) (hb : b.tree = b'.tree) (h : c.Turned s R a b) :
    c.Turned s R a' b' := by
  cases c <;> cases s <;> first | exact hR _ _ _ _ ha hb h | exact hR _ _ _ _ hb ha h

/-! ## agreement to a depth -/

theorem Agree.of_succ {c : Comparison} {k : Nat} {t u : Ty} (h : c.Agree (k + 1) t u) :
    c.Agree k t u := by
  induction k generalizing t u with
  | zero => exact trivial
  | succ k ih => exact ⟨h.1, fun s a b ha hb => (h.2 s a b ha hb).mono fun _ _ => ih⟩

theorem Agree.congr {c : Comparison} {k : Nat} {t u t' u' : Ty} (ht : t.tree = t'.tree)
    (hu : u.tree = u'.tree) (h : c.Agree k t u) : c.Agree k t' u' := by
  induction k generalizing t u t' u' with
  | zero => exact trivial
  | succ k ih =>
    have hlt := Ty.label_eq_of_tree_eq ht
    have hlu := Ty.label_eq_of_tree_eq hu
    obtain ⟨hfits, hparts⟩ := heads_headForm.mp h
    refine heads_headForm.mpr ⟨hlt ▸ hlu ▸ hfits, fun s a' b' ha' hb' => ?_⟩
    obtain ⟨a, ha⟩ := Ty.exists_part?_of_has (hlt ▸ Ty.has_of_part? ha')
    obtain ⟨b, hb⟩ := Ty.exists_part?_of_has (hlu ▸ Ty.has_of_part? hb')
    exact (hparts s a b ha hb).congr (fun _ _ _ _ => ih) (Ty.part_tree_eq ht ha ha')
      (Ty.part_tree_eq hu hb hb')

theorem Related.congr {c : Comparison} {t u t' u' : Ty} (ht : t.tree = t'.tree)
    (hu : u.tree = u'.tree) (h : c.Related t u) : c.Related t' u' := by
  cases c with
  | equality => exact ht.symm.trans (h.trans hu)
  | subtyping =>
    rw [Related] at h ⊢
    rwa [← ht, ← hu]

/-! ## the largest relation -/

theorem turned_equality {s : Place} {R : Ty → Ty → Prop} {a b : Ty} :
    equality.Turned s R a b ↔ R a b := by
  cases s <;> exact Iff.rfl

theorem Related.heads {c : Comparison} {t u : Ty} (h : c.Related t u) :
    c.Heads c.Related t.headForm u.headForm := by
  rw [heads_headForm]
  cases c with
  | equality =>
    exact ⟨Ty.label_eq_of_tree_eq h, fun s a b ha hb =>
      turned_equality.mpr (Ty.part_tree_eq h ha hb)⟩
  | subtyping =>
    cases Tree.Sub.node h with
    | boolean ht hu | number ht hu | unguarded ht hu =>
      rw [Ty.root_tree, Option.some.injEq] at ht hu
      rw [ht, hu]
      refine ⟨rfl, fun s a b ha _ => absurd (Ty.has_of_part? ha) ?_⟩
      rw [ht]
      exact id
    | func ht hu params result =>
      rw [Ty.root_tree, Option.some.injEq] at ht hu
      rw [ht, hu]
      refine ⟨rfl, fun s a b ha hb => ?_⟩
      have hs := Ty.has_of_part? ha
      rw [ht] at hs
      cases s with
      | param i =>
        have := params i hs
        rwa [Ty.child_tree_of_some ha, Ty.child_tree_of_some hb] at this
      | result =>
        rwa [Ty.child_tree_of_some ha, Ty.child_tree_of_some hb] at result
      | prop x => exact absurd hs id
    | object ht hu sub props =>
      rw [Ty.root_tree, Option.some.injEq] at ht hu
      rw [ht, hu]
      refine ⟨sub, fun s a b ha hb => ?_⟩
      have hs := Ty.has_of_part? hb
      rw [hu] at hs
      cases s with
      | prop x =>
        have := props x hs
        rwa [Ty.child_tree_of_some ha, Ty.child_tree_of_some hb] at this
      | _ => exact absurd hs id

/-- a relation that asks as much of its heads holds of related types only -/
theorem related_of_heads {c : Comparison} {R : Ty → Ty → Prop}
    (hR : ∀ t u, R t u → c.Heads R t.headForm u.headForm) {t u : Ty} (h : R t u) :
    c.Related t u := by
  cases c with
  | equality =>
    show t.tree = u.tree
    refine Tree.eq_of_bisimilar
      (fun T U => T = U ∨ ∃ t u, t.tree = T ∧ u.tree = U ∧ R t u) ?_ (.inr ⟨t, u, rfl, rfl, h⟩)
    rintro T U (rfl | ⟨t, u, rfl, rfl, h⟩)
    · exact ⟨rfl, fun s => .inl rfl⟩
    obtain ⟨hfits, hparts⟩ := heads_headForm.mp (hR t u h)
    have hl : t.label = u.label := hfits
    refine ⟨congrArg some hl, fun s => ?_⟩
    rcases Ty.part?_cases hl s with ⟨a, b, ha, hb⟩ | ⟨ha, hb⟩
    · exact .inr ⟨a, b, (Ty.child_tree_of_some ha).symm, (Ty.child_tree_of_some hb).symm,
        turned_equality.mp (hparts s a b ha hb)⟩
    · exact .inl ((Ty.child_tree_of_none ha).trans (Ty.child_tree_of_none hb).symm)
  | subtyping =>
    refine ⟨fun T U => ∃ t u, t.tree = T ∧ u.tree = U ∧ R t u, ?_, t, u, rfl, rfl, h⟩
    rintro T U ⟨t, u, rfl, rfl, h⟩
    obtain ⟨hfits, hparts⟩ := heads_headForm.mp (hR t u h)
    -- the places of the right side are places of the left side
    have hpart : ∀ s, u.label.Has s → ∃ a b, t.part? s = some a ∧ u.part? s = some b ∧
        subtyping.Turned s R a b := by
      intro s hs
      obtain ⟨a, ha⟩ := Ty.exists_part?_of_has (hfits.has hs)
      obtain ⟨b, hb⟩ := Ty.exists_part?_of_has hs
      exact ⟨a, b, ha, hb, hparts s a b ha hb⟩
    rcases fits_subtyping hfits with ⟨names, wanted, ht, hu, hsub⟩ | ⟨ht, ⟨n, hu⟩ | hu | hu | hu⟩
    · refine .object (congrArg some ht) (congrArg some hu) hsub fun x hx => ?_
      obtain ⟨a, b, ha, hb, hab⟩ := hpart (.prop x) (hu ▸ hx)
      exact ⟨a, b, (Ty.child_tree_of_some ha).symm, (Ty.child_tree_of_some hb).symm, hab⟩
    · rw [hu] at ht
      refine .func (congrArg some ht) (congrArg some hu) (fun i hi => ?_) ?_
      · obtain ⟨a, b, ha, hb, hab⟩ := hpart (.param i) (hu ▸ hi)
        exact ⟨b, a, (Ty.child_tree_of_some hb).symm, (Ty.child_tree_of_some ha).symm, hab⟩
      · obtain ⟨a, b, ha, hb, hab⟩ := hpart .result (hu ▸ trivial)
        exact ⟨a, b, (Ty.child_tree_of_some ha).symm, (Ty.child_tree_of_some hb).symm, hab⟩
    · exact .boolean (congrArg some (ht.trans hu)) (congrArg some hu)
    · exact .number (congrArg some (ht.trans hu)) (congrArg some hu)
    · exact .unguarded (congrArg some (ht.trans hu)) (congrArg some hu)

theorem related_iff_agree {c : Comparison} {t u : Ty} : c.Related t u ↔ ∀ k, c.Agree k t u := by
  constructor
  · intro h k
    induction k generalizing t u with
    | zero => exact trivial
    | succ k ih =>
      obtain ⟨hfits, hparts⟩ := h.heads
      exact ⟨hfits, fun s a b ha hb => (hparts s a b ha hb).mono fun _ _ => ih⟩
  · refine related_of_heads (R := fun t u => ∀ k, c.Agree k t u) fun t u h => ?_
    refine ⟨(h 1).1, fun s a b ha hb => ?_⟩
    have hk : ∀ k, c.Turned s (c.Agree k) a b := fun k => (h (k + 1)).2 s a b ha hb
    cases c <;> cases s <;> exact hk

/-! ## premises -/

section
variable {c : Comparison} {R : Ty → Ty → Prop}

theorem paramPair_iff {i : Nat} {a b : Ty} :
    R (c.paramPair a b).1 (c.paramPair a b).2 ↔ c.Turned (.param i) R a b := by
  cases c <;> exact Iff.rfl

theorem turned_of_not_param {s : Place} (hs : ∀ i, s ≠ .param i) {a b : Ty} :
    c.Turned s R a b ↔ R a b := by
  cases c <;> cases s <;> first | exact Iff.rfl | exact absurd rfl (hs _)

theorem premises_func_iff {ps qs : Row} {r s : Ty} :
    (∀ o ∈ c.premises (.func ps r) (.func qs s), Met R o) ↔
      c.Heads R (.func ps r) (.func qs s) := by
  have hfits : c.Fits (Ty.func ps r).shape (Ty.func qs s).shape ↔ ps.length = qs.length := by
    cases c <;> simp [Fits, Ty.shape]
  rw [Heads, hfits, met_func_iff]
  refine and_congr_right fun hlen => ⟨?_, fun h => ⟨?_, ?_⟩⟩
  · rintro ⟨hps, hr⟩ p a b ha hb
    cases p with
    | param i =>
      obtain ⟨v, hv, rfl⟩ := Option.map_eq_some_iff.mp ha
      obtain ⟨w, hw, rfl⟩ := Option.map_eq_some_iff.mp hb
      have hmem : (v, w) ∈ ps.zip qs :=
        List.mem_of_getElem? (List.getElem?_zip_eq_some.mpr ⟨hv, hw⟩)
      exact paramPair_iff.mp (hps _ hmem)
    | result =>
      cases ha
      cases hb
      exact (turned_of_not_param (by simp)).mpr hr
    | prop x => exact absurd ha (by simp [Ty.member?])
  · rintro ⟨v, w⟩ hp
    obtain ⟨i, hi⟩ := List.mem_iff_getElem?.mp hp
    obtain ⟨hv, hw⟩ := List.getElem?_zip_eq_some.mp hi
    exact paramPair_iff.mpr (h (.param i) v.2 w.2 (by rw [Ty.member?, hv]; rfl)
      (by rw [Ty.member?, hw]; rfl))
  · exact (turned_of_not_param (by simp)).mp (h .result r s rfl rfl)

theorem premises_object_equality_iff {ps qs : Row} (hps : (Row.names ps).Nodup)
    (hqs : (Row.names qs).Nodup) :
    (∀ o ∈ equality.premises (.object ps) (.object qs), Met R o) ↔
      (Row.names ps).toFinset = (Row.names qs).toFinset ∧
        ∀ x a b, ps.lookup x = some a → qs.lookup x = some b → R a b := by
  rw [Row.toFinset_names_eq_iff hps hqs, met_object_equality_iff]
  constructor
  · rintro ⟨hlen, hmet⟩
    refine ⟨⟨hlen, fun p hp => ?_⟩, fun x a b ha hb => ?_⟩
    · obtain ⟨b, hb, _⟩ := hmet p hp
      exact Row.lookup_isSome_iff.mp (Option.isSome_iff_exists.mpr ⟨b, hb⟩)
    · obtain ⟨b', hb', hR⟩ := hmet (x, a) (Row.mem_of_lookup ha)
      rw [Option.some.inj (hb.symm.trans hb')]
      exact hR
  · rintro ⟨⟨hlen, hnames⟩, h⟩
    refine ⟨hlen, fun p hp => ?_⟩
    obtain ⟨b, hb⟩ := Option.isSome_iff_exists.mp (Row.lookup_isSome_iff.mpr (hnames p hp))
    exact ⟨b, hb, h p.1 p.2 b (Row.lookup_of_mem hps hp) hb⟩

theorem premises_object_subtyping_iff {ps qs : Row} (hqs : (Row.names qs).Nodup) :
    (∀ o ∈ subtyping.premises (.object ps) (.object qs), Met R o) ↔
      (Row.names qs).toFinset ⊆ (Row.names ps).toFinset ∧
        ∀ x a b, ps.lookup x = some a → qs.lookup x = some b → R a b := by
  constructor
  · intro h
    have hmet : ∀ q ∈ qs, ∃ a, ps.lookup q.1 = some a ∧ R a q.2 := by
      intro q hq
      obtain ⟨p, hp, hR⟩ := met_iff.mp (h _ (mem_premises_object_subtyping.mpr ⟨q, hq, rfl⟩))
      obtain ⟨a, ha, rfl⟩ := Option.map_eq_some_iff.mp hp
      exact ⟨a, ha, hR⟩
    refine ⟨fun x hx => ?_, fun x a b ha hb => ?_⟩
    · obtain ⟨q, hq, rfl⟩ := List.mem_map.mp (List.mem_toFinset.mp hx)
      obtain ⟨a, ha, _⟩ := hmet q hq
      exact List.mem_toFinset.mpr
        (Row.lookup_isSome_iff.mp (Option.isSome_iff_exists.mpr ⟨a, ha⟩))
    · obtain ⟨a', ha', hR⟩ := hmet (x, b) (Row.mem_of_lookup hb)
      rw [Option.some.inj (ha.symm.trans ha')]
      exact hR
  · rintro ⟨hnames, h⟩ o ho
    obtain ⟨q, hq, rfl⟩ := mem_premises_object_subtyping.mp ho
    have hmem : q.1 ∈ (Row.names ps).toFinset :=
      hnames (List.mem_toFinset.mpr (List.mem_map.mpr ⟨q, hq, rfl⟩))
    obtain ⟨a, ha⟩ :=
      Option.isSome_iff_exists.mp (Row.lookup_isSome_iff.mpr (List.mem_toFinset.mp hmem))
    rw [ha]
    exact h q.1 a q.2 ha (Row.lookup_of_mem hqs hq)

theorem premises_object_iff {ps qs : Row} (hps : (Row.names ps).Nodup)
    (hqs : (Row.names qs).Nodup) :
    (∀ o ∈ c.premises (.object ps) (.object qs), Met R o) ↔
      c.Heads R (.object ps) (.object qs) := by
  have hfits : (∀ o ∈ c.premises (.object ps) (.object qs), Met R o) ↔
      c.Fits (Ty.object ps).shape (Ty.object qs).shape ∧
        ∀ x a b, ps.lookup x = some a → qs.lookup x = some b → R a b := by
    cases c with
    | equality => simpa [Fits, Ty.shape] using premises_object_equality_iff hps hqs
    | subtyping => exact premises_object_subtyping_iff hqs
  rw [hfits, Heads]
  refine and_congr_right fun _ => ⟨fun h p a b ha hb => ?_, fun h x a b ha hb => ?_⟩
  · cases p with
    | prop x => exact (turned_of_not_param (by simp)).mpr (h x a b ha hb)
    | _ => exact absurd ha (by simp [Ty.member?])
  · exact (turned_of_not_param (by simp)).mp (h (.prop x) a b ha hb)

/-- heads with different constructors have a premise that nothing meets -/
theorem premises_ne_iff {t u : Ty} (hp : c.premises t u = [none])
    (hf : ¬ c.Fits t.shape u.shape) :
    (∀ o ∈ c.premises t u, Met R o) ↔ c.Heads R t u := by
  refine iff_of_false (fun h => ?_) fun h => hf h.1
  rw [hp] at h
  exact h none (List.mem_singleton_self _)

/-- leaves with the same constructor have no premises -/
theorem premises_leaf_iff {t u : Ty} (hp : c.premises t u = []) (hf : c.Fits t.shape u.shape)
    (hm : ∀ p, t.member? p = none) :
    (∀ o ∈ c.premises t u, Met R o) ↔ c.Heads R t u := by
  rw [hp]
  refine iff_of_true (fun o ho => absurd ho List.not_mem_nil) ⟨hf, fun p a b ha _ => ?_⟩
  exact absurd ((hm p).symm.trans ha) (by simp)

/-- the premises of two heads ask that the constructors fit and the parts are in the relation -/
theorem premises_iff {t u : Ty} (ht : t.WellFormed) (hu : u.WellFormed) (hm : t.isMu = false) :
    (∀ o ∈ c.premises t u, Met R o) ↔ c.Heads R t u := by
  cases t with
  | boolean =>
    cases u with
    | boolean => exact premises_leaf_iff (by cases c <;> rfl) (by cases c <;> rfl) fun _ => rfl
    | _ =>
      exact premises_ne_iff (by cases c <;> rfl) (by cases c <;> simp [Fits, Ty.shape])
  | number =>
    cases u with
    | number => exact premises_leaf_iff (by cases c <;> rfl) (by cases c <;> rfl) fun _ => rfl
    | _ =>
      exact premises_ne_iff (by cases c <;> rfl) (by cases c <;> simp [Fits, Ty.shape])
  | func ps r =>
    cases u with
    | func qs s => exact premises_func_iff
    | _ =>
      exact premises_ne_iff (by cases c <;> rfl) (by cases c <;> simp [Fits, Ty.shape])
  | object ps =>
    cases u with
    | object qs =>
      exact premises_object_iff (Ty.wellFormed_object.mp ht).1 (Ty.wellFormed_object.mp hu).1
    | _ =>
      exact premises_ne_iff (by cases c <;> rfl) (by cases c <;> simp [Fits, Ty.shape])
  | var x => exact absurd ht.closed (Ty.not_closed_var x)
  | mu x b => exact absurd hm (by simp [Ty.isMu])

end

end Equirec.Comparison
