import Equirec.Proofs.Term.Check
import Equirec.Proofs.Term.Same
import Equirec.Proofs.Term.Scope

/-!
# Recursive functions that do not call themselves

If the body of a recursive function does not see the function, because a parameter hides its name or
because the name does not occur, the function may as well be a constant.  The body has the same type
either way.  The rest then sees the type that is declared, or the one that the body has, and these
are equal.

* `Term.Unseen`           the name of a function is not free in its body, below its parameters
* `Term.check_body`       a body that does not see the function is checked as that of a constant
* `Term.matches_rest`     the rest of a term does not tell equal result types of a function apart
* `Term.recFunc_as_const` what a recursive function and a constant have in common
-/

namespace Equirec

theorem Ty.WellFormed.same {t : Ty} (h : t.WellFormed) : t.Same t :=
  Ty.same_iff.mpr ⟨h, h, rfl⟩

namespace Term

/-- the body of a function does not refer to the function by its name -/
def Unseen (f : Name) (params : Row) (body : Term) : Prop :=
  f ∈ Row.names params ∨ f ∉ body.freeVars

instance (f : Name) (params : Row) (body : Term) : Decidable (Unseen f params body) :=
  inferInstanceAs (Decidable (_ ∨ _))

section
variable {Γ : Context} {f : Name} {ps : Row} {b r : Term}

theorem check_body (hf : Unseen f ps b) (t : Ty) :
    b.check (Γ.extend ((f, t) :: ps)) = b.check (Γ.extend ps) := by
  refine check_congr fun x hx => ?_
  rw [Context.get?_extend_eq, Context.get?_extend_eq]
  refine Bindings.setAll_congr (Γ := Bindings.set Γ.get? f t) fun hn => if_neg ?_
  rintro rfl
  exact hf.elim hn fun hfree => hfree hx

/-- a well-formed body in a well-formed context has a well-formed type, or an error -/
theorem check_cases (hΓ : Bindings.WellFormed Γ.get?) (hb : b.WellFormed) :
    (∃ T, (b.check Γ).outcome = .ok T ∧ T.WellFormed) ∨ ∃ e, (b.check Γ).outcome = .error e := by
  have hchecked : b.Checked Γ := checked hb hΓ
  rcases Run.ok_or_error hchecked.ends with ⟨T, hT⟩ | he
  · exact .inl ⟨T, hT, ((hchecked.ok T).mp hT).wellFormed hΓ hb⟩
  · exact .inr he

theorem matches_rest {T R : Ty} (hΓ : Bindings.WellFormed Γ.get?) (hps : ∀ p ∈ ps, p.2.WellFormed)
    (hTR : T.Same R) (hr : r.WellFormed) :
    CheckedAlike Ty.Same False (Γ.bind f (.func ps R)) (Γ.bind f (.func ps T)) r r := by
  have hbuilt : r.Built Ty.WellFormed List.Nodup := wellFormed_iff.mp hr
  have hfunc : (Ty.func ps R).Same (.func ps T) :=
    Ty.same_func (Row.alike_self fun p hp => (hps p hp).same).types hTR.symm
  refine check_matches Ty.congruence_same (alike_self (fun _ h => h.same) hbuilt)
    ⟨fun _ _ => trivial, hbuilt.2⟩ fun x _ => Context.rel_bind hfunc fun _ => ?_
  cases hx : Γ.get? x with
  | some t => exact .some (hΓ x t hx).same
  | none => exact .none

/-- what a recursive function whose body does not see it, and a constant for the function without a
declared result, have in common: an error in the body is the error of both, and where the body has
the result type that is declared both end in equal types or in errors of the same sort; a body of
another type is an error of the recursive function -/
theorem recFunc_as_const {R : Ty} (hΓ : Bindings.WellFormed Γ.get?)
    (hm : (recFunc f ps R b r).WellFormed) (hf : Unseen f ps b) :
    (∃ e, (b.check (Γ.extend ps)).outcome = .error e ∧
        ((recFunc f ps R b r).check Γ).outcome = .error e ∧
        ((const f (func ps b) r).check Γ).outcome = .error e) ∨
      (∃ T, (b.check (Γ.extend ps)).outcome = .ok T ∧ (T.equal R).outcome = .ok false ∧
        ((recFunc f ps R b r).check Γ).outcome = .error (.returnMismatch f R T)) ∨
      ∃ T, (b.check (Γ.extend ps)).outcome = .ok T ∧ (T.equal R).outcome = .ok true ∧
        ((∃ A B, ((recFunc f ps R b r).check Γ).outcome = .ok A ∧
            ((const f (func ps b) r).check Γ).outcome = .ok B ∧ A.Same B) ∨
          ∃ e e', ((recFunc f ps R b r).check Γ).outcome = .error e ∧
            ((const f (func ps b) r).check Γ).outcome = .error e' ∧ e.Alike Ty.Same e') := by
  obtain ⟨hps, hR, hb, hr⟩ := wellFormed_recFunc.mp hm
  have hΓps : Bindings.WellFormed (Γ.extend ps).get? := by
    rw [Context.get?_extend_eq]
    exact hΓ.setAll hps
  have hbody := check_body (Γ := Γ) hf (.func ps R)
  rcases check_cases hΓps hb with ⟨T, hT, hwT⟩ | ⟨e, he⟩
  · obtain ⟨answer, hanswer, _⟩ : ∃ answer, (T.equal R).outcome = .ok answer ∧ _ :=
      Comparison.holds_decides hwT hR
    cases answer with
    | false =>
      refine .inr (.inl ⟨T, hT, hanswer, ?_⟩)
      simp [check, hbody, hT, hanswer]
    | true =>
      refine .inr (.inr ⟨T, hT, hanswer, ?_⟩)
      have hrec : ((recFunc f ps R b r).check Γ).outcome =
          (r.check (Γ.bind f (.func ps R))).outcome := by
        simp [check, hbody, hT, hanswer]
      have hconst : ((const f (func ps b) r).check Γ).outcome =
          (r.check (Γ.bind f (.func ps T))).outcome := by
        simp [check, hT]
      rw [hrec, hconst]
      exact (matches_rest hΓ hps ⟨hwT, hR, hanswer⟩ hr).ok_or_error
  · refine .inl ⟨e, he, ?_, ?_⟩
    · simp [check, hbody, he]
    · simp [check, he]

/-- the tail of a stream, declared with the unfolding of its type, in a function with a parameter of
its own name: the rest has the type that is declared or the one that the body has -/
theorem recFunc_as_const_stream :
    let s := Ty.mu "a" (.object [("head", .number), ("tail", .var "a")])
    let b := get (var "f") "tail"
    let r := call (var "f") [var "y"]
    let Γ := Context.ofRow [("y", s)]
    ∃ A B, ((recFunc "f" [("f", s)] s.unfold b r).check Γ).outcome = .ok A ∧
      ((const "f" (func [("f", s)] b) r).check Γ).outcome = .ok B ∧ A.Same B ∧ A ≠ B := by
  intro s b r Γ
  have hΓ : Bindings.WellFormed Γ.get? := Context.forall_ofRow (by decide)
  have hrec : ((recFunc "f" [("f", s)] s.unfold b r).check Γ).outcome = .ok s.unfold := by decide
  have hconst : ((const "f" (func [("f", s)] b) r).check Γ).outcome = .ok s := by decide
  have hm : (recFunc "f" [("f", s)] s.unfold b r).WellFormed := by decide
  have hf : Unseen "f" [("f", s)] b := by decide
  rcases recFunc_as_const hΓ hm hf with
    ⟨e, _, he, _⟩ | ⟨T, _, _, he⟩ | ⟨T, _, _, ⟨A, B, hA, hB, h⟩ | ⟨e, _, he, _⟩⟩
  · exact absurd (he.symm.trans hrec) (by simp)
  · exact absurd (he.symm.trans hrec) (by simp)
  · cases hA.symm.trans hrec
    cases hB.symm.trans hconst
    exact ⟨_, _, hA, hB, h, by decide⟩
  · exact absurd (he.symm.trans hrec) (by simp)

end

end Term

end Equirec
