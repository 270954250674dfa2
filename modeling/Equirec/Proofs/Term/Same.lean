import Equirec.Proofs.Comparison.Order
import Equirec.Proofs.Term.Alike

/-!
# The check depends on types up to equality

* `Ty.Same`             well-formed types that equality accepts
* `Ty.congruence_same`  no way in which the check looks at a type tells them apart
* `Term.check_same`     terms whose annotations are the same up to equality have the same types up
                        to equality, or the same sort of fault
-/

namespace Equirec

namespace Ty

/-- well-formed types that equality accepts -/
def Same (t u : Ty) : Prop := t.WellFormed ∧ u.WellFormed ∧ (t.equal u).outcome = .ok true

instance (t u : Ty) : Decidable (t.Same u) := inferInstanceAs (Decidable (_ ∧ _ ∧ _))

theorem same_iff {t u : Ty} : t.Same u ↔ t.WellFormed ∧ u.WellFormed ∧ t.tree = u.tree :=
  and_congr_right fun ht => and_congr_right fun hu => equal_iff ht hu

/-! ## heads and parts -/

theorem AlikeHeads.of_members {R : Ty → Ty → Prop} {t u : Ty} (hs : t.shape = u.shape)
    (hm : ∀ s a b, t.member? s = some a → u.member? s = some b → R a b) : t.AlikeHeads R u := by
  cases t with
  | boolean =>
    cases u with
    | boolean => exact .boolean
    | _ => exact absurd hs (by simp [shape])
  | number =>
    cases u with
    | number => exact .number
    | _ => exact absurd hs (by simp [shape])
  | var x =>
    cases u with
    | var y => exact .var
    | _ => exact absurd hs (by simp [shape])
  | mu x b =>
    cases u with
    | mu y c => exact .mu
    | _ => exact absurd hs (by simp [shape])
  | func ps r =>
    cases u with
    | func qs s =>
      have hlen : ps.length = qs.length := Label.func.inj hs
      refine .func (List.forall₂_iff_get.mpr ⟨hlen, fun i hp hq => ?_⟩) (hm .result r s rfl rfl)
      refine hm (.param i) _ _ ?_ ?_
      · rw [member?, List.getElem?_eq_getElem hp]
        rfl
      · rw [member?, List.getElem?_eq_getElem hq]
        rfl
    | _ => exact absurd hs (by simp [shape])
  | object ps =>
    cases u with
    | object qs =>
      refine .object fun x => ?_
      rcases member?_cases hs (.prop x) with ⟨a, b, ha, hb⟩ | ⟨ha, hb⟩
      · rw [show ps.lookup x = some a from ha, show qs.lookup x = some b from hb]
        exact .some (hm _ a b ha hb)
      · rw [show ps.lookup x = none from ha, show qs.lookup x = none from hb]
        exact .none
    | _ => exact absurd hs (by simp [shape])

theorem Same.heads {t u : Ty} (h : t.Same u) : t.headForm.AlikeHeads Same u.headForm := by
  obtain ⟨ht, hu, htree⟩ := same_iff.mp h
  refine .of_members (label_eq_of_tree_eq htree) fun s a b ha hb => ?_
  exact same_iff.mpr ⟨ht.part ha, hu.part hb, part_tree_eq htree ha hb⟩

theorem Same.headForm {t u : Ty} (h : t.Same u) : t.headForm.Same u.headForm := by
  obtain ⟨ht, hu, htree⟩ := same_iff.mp h
  refine same_iff.mpr ⟨ht.headForm, hu.headForm, ?_⟩
  rw [tree_headForm, tree_headForm, htree]

theorem Same.symm {t u : Ty} (h : t.Same u) : u.Same t := by
  obtain ⟨ht, hu, htree⟩ := same_iff.mp h
  exact same_iff.mpr ⟨hu, ht, htree.symm⟩

/-! ## function and object types -/

theorem wellFormed_of_same_left {ps qs : Row}
    (h : List.Forall₂ (fun p q => p.2.Same q.2) ps qs) : ∀ p ∈ ps, p.2.WellFormed :=
  (List.forall₂_and_left _ _).mp h |>.1

theorem wellFormed_of_same_right {ps qs : Row}
    (h : List.Forall₂ (fun p q => p.2.Same q.2) ps qs) : ∀ q ∈ qs, q.2.WellFormed :=
  wellFormed_of_same_left (List.Forall₂.imp (fun _ _ h => Same.symm h) h.flip)

theorem same_func {ps qs : Row} {r s : Ty} (hps : List.Forall₂ (fun p q => p.2.Same q.2) ps qs)
    (hr : r.Same s) : (func ps r).Same (func qs s) := by
  obtain ⟨hwr, hws, hrs⟩ := same_iff.mp hr
  refine same_iff.mpr ⟨wellFormed_func.mpr ⟨wellFormed_of_same_left hps, hwr⟩,
    wellFormed_func.mpr ⟨wellFormed_of_same_right hps, hws⟩, ?_⟩
  refine tree_eq_of_parts (congrArg Label.func hps.length_eq) fun place a b ha hb => ?_
  change (func ps r).member? place = some a at ha
  change (func qs s).member? place = some b at hb
  cases place with
  | param i =>
    obtain ⟨p, hp, rfl⟩ := Option.map_eq_some_iff.mp ha
    obtain ⟨q, hq, rfl⟩ := Option.map_eq_some_iff.mp hb
    obtain ⟨hi, rfl⟩ := List.getElem?_eq_some_iff.mp hp
    obtain ⟨hj, rfl⟩ := List.getElem?_eq_some_iff.mp hq
    exact (same_iff.mp ((List.forall₂_iff_get.mp hps).2 i hi hj)).2.2
  | result =>
    cases ha
    cases hb
    exact hrs
  | prop x => exact absurd ha (by simp [member?])

theorem same_object {ps qs : Row} (hn : (Row.names ps).Nodup) (hps : ps.Alike Same qs) :
    (object ps).Same (object qs) := by
  have hnames := hps.names_eq
  refine same_iff.mpr ⟨wellFormed_object.mpr ⟨hn, wellFormed_of_same_left hps.types⟩,
    wellFormed_object.mpr ⟨hnames ▸ hn, wellFormed_of_same_right hps.types⟩, ?_⟩
  have hlabel : (object ps).label = (object qs).label :=
    congrArg (fun names : List Name => Label.object names.toFinset) hnames
  refine tree_eq_of_parts hlabel fun s a b ha hb => ?_
  change (object ps).member? s = some a at ha
  change (object qs).member? s = some b at hb
  cases s with
  | prop x =>
    have hx := hps.rel_lookup x
    rw [show ps.lookup x = some a from ha, show qs.lookup x = some b from hb] at hx
    cases hx with
    | some hab => exact (same_iff.mp hab).2.2
  | _ => exact absurd ha (by simp [member?])

theorem Same.matches_holds (c : Comparison) {t u t' u' : Ty} (ht : t.Same t') (hu : u.Same u') :
    (c.holds t u).Matches (fun b b' => b = b') (TypeError.Alike Same) False (c.holds t' u') := by
  obtain ⟨hwt, hwt', htree⟩ := same_iff.mp ht
  obtain ⟨hwu, hwu', hutree⟩ := same_iff.mp hu
  obtain ⟨b, hb, h⟩ := Comparison.holds_decides (c := c) hwt hwu
  obtain ⟨b', hb', h'⟩ := Comparison.holds_decides (c := c) hwt' hwu'
  rw [Run.Matches, hb, hb']
  refine .ok (Bool.eq_iff_iff.mpr ?_)
  rw [h, h']
  exact ⟨fun h => h.congr htree hutree, fun h => h.congr htree.symm hutree.symm⟩

theorem congruence_same : Congruence Same List.Nodup False where
  boolean := by decide
  number := by decide
  func := same_func
  object := same_object
  headForm := Same.headForm
  heads := Same.heads
  holds := Same.matches_holds

end Ty

namespace Term

/-- where terms differ in their annotations only, and these and the types of their contexts are the
same up to equality, the terms have types that are the same up to equality, or both have a fault of
the same sort, with types in it that are the same up to equality -/
theorem check_same {m m' : Term} {Γ Γ' : Context} (hm : m.Alike Ty.Same m')
    (hn : ∀ names ∈ m.literals, names.Nodup)
    (hΓ : ∀ x, Option.Rel Ty.Same (Γ.get? x) (Γ'.get? x)) :
    (∃ T T', (m.check Γ).outcome = .ok T ∧ (m'.check Γ').outcome = .ok T' ∧ T.Same T') ∨
      ∃ e e', (m.check Γ).outcome = .error e ∧ (m'.check Γ').outcome = .error e' ∧
        e.Alike Ty.Same e' := by
  have h := check_matches Ty.congruence_same hm ⟨fun _ _ => trivial, hn⟩ fun x _ => hΓ x
  rw [CheckedAlike, Run.Matches] at h
  generalize (m.check Γ).outcome = o at h ⊢
  generalize (m'.check Γ').outcome = o' at h ⊢
  cases h with
  | ok h => exact .inl ⟨_, _, rfl, rfl, h⟩
  | error h => exact .inr ⟨_, _, rfl, rfl, h⟩
  | exhausted h => exact h.elim

/-- a parameter and an argument of the same stream; in the other term and the other context with
another binder, two turns at a time, and with the properties the other way around -/
theorem check_same_streams :
    let t := Ty.mu "a" (.object [("head", .number), ("tail", .var "a")])
    let u := Ty.mu "b" (.object [("tail", .object [("tail", .var "b"), ("head", .number)]),
      ("head", .number)])
    let m := fun s : Ty => call (func [("s", s)] (get (get (var "s") "tail") "tail")) [var "x"]
    let run := fun s s' : Ty => (m s).check (Context.ofRow [("x", s')])
    (run t u).outcome = .ok t ∧ ∃ T, (run u t).outcome = .ok T ∧ t.Same T := by
  intro t u m run
  have htu : t.Same u := by decide
  have hm : (m t).Alike Ty.Same (m u) :=
    .call (.func (.cons ⟨rfl, htu⟩ .nil) (.get (.get .var))) (.cons .var .nil)
  have hΓ : ∀ x, Option.Rel Ty.Same ((Context.ofRow [("x", u)]).get? x)
      ((Context.ofRow [("x", t)]).get? x) := fun x =>
    Context.rel_bind htu.symm fun _ => .none
  have hrun : (run t u).outcome = .ok t := by decide
  rcases check_same hm (by decide) hΓ with ⟨T, T', hT, hT', h⟩ | ⟨e, _, he, _⟩
  · cases hT.symm.trans hrun
    exact ⟨hrun, T', hT', h⟩
  · exact absurd (he.symm.trans hrun) (by simp)

end Term

end Equirec
