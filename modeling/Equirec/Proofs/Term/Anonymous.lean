import Equirec.Proofs.Comparison.Anonymous
import Equirec.Proofs.Comparison.Reserve
import Equirec.Proofs.Term.Alike
import Equirec.Proofs.Term.Lasting

/-!
# The check does not see the names of parameters

* `Ty.congruence_upToParams`    no way in which the check looks at a type tells parameters of other
                                names apart
* `Term.exists_repeated_of_exhausted`
                                a check without an answer has met an object with a name twice
* `Term.parameters_unseen`      comparisons, the tests of types and checks with other names of
                                parameters in their types
-/

namespace Equirec

namespace Ty

/-! ## a congruence -/

theorem UpToParams.headForm {t u : Ty} (h : t.UpToParams u) :
    t.headForm.UpToParams u.headForm := by
  rw [UpToParams, ← headForm_anonymous, ← headForm_anonymous, h]

theorem UpToParams.alikeHeads {t u : Ty} (h : t.UpToParams u) : t.AlikeHeads UpToParams u := by
  cases t with
  | boolean =>
    cases u with
    | boolean => exact .boolean
    | _ => exact absurd h (by simp [UpToParams, anonymous])
  | number =>
    cases u with
    | number => exact .number
    | _ => exact absurd h (by simp [UpToParams, anonymous])
  | func ps r =>
    cases u with
    | func qs s =>
      obtain ⟨hps, hr⟩ := upToParams_func_iff.mp h
      exact .func hps hr
    | _ => exact absurd h (by simp [UpToParams, anonymous])
  | object ps =>
    cases u with
    | object qs =>
      have hrow : Row.Alike UpToParams ps qs := upToParams_object_iff.mp h
      exact .object hrow.rel_lookup
    | _ => exact absurd h (by simp [UpToParams, anonymous])
  | var x =>
    cases u with
    | var y => exact .var
    | _ => exact absurd h (by simp [UpToParams, anonymous])
  | mu x b =>
    cases u with
    | mu y c => exact .mu
    | _ => exact absurd h (by simp [UpToParams, anonymous])

/-- a comparison fails over the variable itself, so the error is the same one -/
theorem UpToParams.matches_holds (c : Comparison) {t u t' u' : Ty} (ht : t.UpToParams t')
    (hu : u.UpToParams u') :
    (c.holds t u).Matches (fun b b' => b = b') (TypeError.Alike UpToParams) True
      (c.holds t' u') := by
  have hsame : (c.holds t u).outcome = (c.holds t' u').outcome :=
    c.outcome_holds_of_upToParams ht hu
  rw [Run.Matches, ← hsame]
  cases ho : (c.holds t u).outcome with
  | ok b => exact .ok rfl
  | error e =>
    obtain ⟨x, rfl, _⟩ := Comparison.free_of_holds ho
    exact .error .unboundTypeVariable
  | exhausted => exact .exhausted trivial

theorem congruence_upToParams : Congruence UpToParams (fun _ => True) True where
  boolean := rfl
  number := rfl
  func hps hr := upToParams_func_iff.mpr ⟨hps, hr⟩
  object _ hps := upToParams_object_iff.mpr hps
  headForm := UpToParams.headForm
  heads h := h.headForm.alikeHeads
  holds := UpToParams.matches_holds

end Ty

namespace Term

/-! ## the check -/

/-- where no object names a property twice, every comparison of the check ends, and so does the
check -/
theorem exists_repeated_of_exhausted {m : Term} {Γ : Context}
    (h : (m.check Γ).outcome = .exhausted) :
    ¬ ((∀ t ∈ m.annotations, t.Distinct) ∧ (∀ names ∈ m.literals, names.Nodup) ∧
      ∀ x t, Γ.get? x = some t → t.Distinct) := by
  rintro ⟨hm, hnames, hΓ⟩
  have hc : ∀ (c : Comparison) (t u : Ty), t.Distinct → u.Distinct →
      (c.holds t u).Confined (fun _ => True) (fun _ => True) False := fun c t u ht hu =>
    ⟨fun _ _ => trivial, fun _ _ => trivial, Comparison.holds_ends ht hu⟩
  exact (check_confined (fun _ _ _ => trivial) hc Ty.lasting_distinct ⟨hm, hnames⟩ hΓ).exhausted h

/-- Types that differ in the names of parameters only, whatever variables are free in them and
whatever names are repeated, are compared with the same answer or the same error, within any number
of nested steps.  They are the same up to the names of binders or not, unguarded or not, and refused
over the same variable or not.  Terms whose annotations differ in such names only, in contexts whose
types do, have types that do, or a fault of the same sort in types that do.  If one of these checks
has no answer, the other has none, and some object names a property twice. -/
theorem parameters_unseen :
    (∀ t t' u u' : Ty, t.UpToParams t' → u.UpToParams u' →
      (t.equal u).outcome = (t'.equal u').outcome ∧
      (t.subtype u).outcome = (t'.subtype u').outcome ∧
      (∀ (c : Comparison) (n : Nat),
        (c.holdsWithin n [] t u).outcome = (c.holdsWithin n [] t' u').outcome) ∧
      t.alphaEq u = t'.alphaEq u') ∧
    (∀ t t' : Ty, t.UpToParams t' →
      t.isUnguarded = t'.isUnguarded ∧ t.validate = t'.validate) ∧
    ∀ (m m' : Term) (Γ Γ' : Context), m.Alike Ty.UpToParams m' →
      (∀ x, Option.Rel Ty.UpToParams (Γ.get? x) (Γ'.get? x)) →
      (∃ T T', (m.check Γ).outcome = .ok T ∧ (m'.check Γ').outcome = .ok T' ∧ T.UpToParams T') ∨
      (∃ e e', (m.check Γ).outcome = .error e ∧ (m'.check Γ').outcome = .error e' ∧
        e.Alike Ty.UpToParams e') ∨
      (m.check Γ).outcome = .exhausted ∧ (m'.check Γ').outcome = .exhausted ∧
        ¬ ((∀ t ∈ m.annotations, t.Distinct) ∧ (∀ names ∈ m.literals, names.Nodup) ∧
          ∀ x t, Γ.get? x = some t → t.Distinct) := by
  refine ⟨fun t t' u u' ht hu => ⟨?_, ?_, fun c n => ?_, ?_⟩, fun t t' ht => ⟨?_, ?_⟩,
    fun m m' Γ Γ' hm hΓ => ?_⟩
  · exact Comparison.outcome_holds_of_upToParams .equality ht hu
  · exact Comparison.outcome_holds_of_upToParams .subtyping ht hu
  · exact c.outcome_holdsWithin_of_upToParams n ht hu
  · rw [← Ty.alphaEq_anonymous t u, ht, hu, Ty.alphaEq_anonymous]
  · rw [← Ty.isUnguarded_anonymous t, ht, Ty.isUnguarded_anonymous]
  · rw [← Ty.validate_anonymous t, ht, Ty.validate_anonymous]
  · have h : CheckedAlike Ty.UpToParams True Γ Γ' m m' :=
      check_matches Ty.congruence_upToParams hm ⟨fun _ _ => trivial, fun _ _ => trivial⟩
        fun x _ => hΓ x
    rcases h.endings with hok | herr | ⟨ho, ho', _⟩
    · exact .inl hok
    · exact .inr (.inl herr)
    · exact .inr (.inr ⟨ho, ho', exists_repeated_of_exhausted ho⟩)

/-- a recursive function type with a free variable and parameters of one name, against an unfolding
of its own with two names; and an argument of such a type where a function of another parameter is
called, so that the errors differ in the name they give -/
theorem parameters_unseen_recursive :
    let t := fun x y => Ty.mu "a" (.func [(x, .mu "c" (.mu "d" (.var "c"))),
      (y, .func [(x, .var "a")] (.var "b"))] (.var "a"))
    let m := fun x => call (var "f") [func [("n", .func [(x, .number)] .boolean)] (var "n")]
    let Γ := fun x => Context.ofRow [("f", .func [(x, .number)] .boolean)]
    ((t "x" "y").equal (t "z" "x").unfold).outcome =
        ((t "p" "p").equal (t "p" "q").unfold).outcome ∧
      ((t "x" "y").subtype (t "z" "x").unfold).outcome =
        ((t "p" "p").subtype (t "p" "q").unfold).outcome ∧
      (t "x" "x").validate = .error (.unboundTypeVariable "b") ∧
      ∃ e e', ((m "x").check (Γ "x")).outcome = .error e ∧
        ((m "y").check (Γ "y")).outcome = .error e' ∧ e.Alike Ty.UpToParams e' ∧ e ≠ e' := by
  intro t m Γ
  have hcompare := parameters_unseen.1 (t "x" "y") (t "p" "p") (t "z" "x").unfold
    (t "p" "q").unfold (by decide) (by decide)
  have hvalidate := (parameters_unseen.2.1 (t "x" "x") (t "y" "z") (by decide)).2
  have hm : (m "x").Alike Ty.UpToParams (m "y") :=
    .call .var (.cons (.func (.cons ⟨rfl, by decide⟩ .nil) .var) .nil)
  have hΓ : ∀ x, Option.Rel Ty.UpToParams ((Γ "x").get? x) ((Γ "y").get? x) := fun x =>
    Context.rel_bind (by decide) fun _ => .none
  have hfails : ∀ x ∈ ["x", "y"], ((m x).check (Γ x)).outcome = .error (.argumentMismatch x .number
      (.func [("n", .func [(x, .number)] .boolean)] (.func [(x, .number)] .boolean))) := by
    decide
  obtain ⟨hx, hy⟩ := List.forall_mem_cons.mp hfails
  refine ⟨hcompare.1, hcompare.2.1, hvalidate.trans (by decide), ?_⟩
  rcases parameters_unseen.2.2 _ _ _ _ hm hΓ with ⟨T, _, hT, _⟩ | ⟨e, e', he, he', h⟩ | ⟨ho, _⟩
  · exact absurd (hT.symm.trans hx) (by simp)
  · refine ⟨e, e', he, he', h, fun heq => ?_⟩
    have hsame := he.symm.trans hx
    have hsame' := he'.symm.trans (hy "y" (List.mem_singleton_self _))
    rw [heq, hsame'] at hsame
    exact absurd hsame (by decide)
  · exact absurd (ho.symm.trans hx) (by simp)

end Term

end Equirec
