import Equirec.Proofs.Comparison.Order
import Equirec.Proofs.Term.Lasting

/-!
# Names that the check repeats

The check builds objects from the properties of a term as they stand, so the only place where names
come to be repeated is an object of the term that repeats them itself.

* `Term.names_of_check_object`  an object has a type with the names of the term
* `Term.check_distinct`         where the objects of a term, its annotations and its context name
                                each property once, so do the types of its check
* `Term.not_distinct_check_object`
                                an object of a term that repeats a name has no such type
* `Term.check_repeats`          an object with a name twice has a type that is not equal to itself
-/

namespace Equirec.Term

theorem names_of_checkProps {props : List (Name × Term)} {Γ : Context} {row : Row}
    (h : (checkProps props Γ).outcome = .ok row) : Row.names row = props.map Prod.fst := by
  have hprops : (checkProps props Γ).Confined
      (fun row => Row.names row = props.map Prod.fst ∧ ∀ p ∈ row, True) (fun _ => True) True :=
    confined_checkProps fun p _ => ⟨fun _ _ => trivial, fun _ _ => trivial, fun _ => trivial⟩
  exact (hprops.ok row h).1

theorem names_of_check_object {props : List (Name × Term)} {Γ : Context} {T : Ty}
    (h : ((object props).check Γ).outcome = .ok T) :
    ∃ row, T = .object row ∧ Row.names row = props.map Prod.fst := by
  obtain ⟨row, hrow, hT⟩ := Run.exists_of_bind_ok (r := checkProps props Γ) h
  exact ⟨row, (Outcome.ok.inj hT).symm, names_of_checkProps hrow⟩

/-- a closed type that names each property once is equal to itself and a subtype of itself -/
theorem self_of_distinct {T : Ty} (hT : T.Distinct) (hc : T.Closed) :
    (T.equal T).outcome = .ok true ∧ (T.subtype T).outcome = .ok true := by
  have h : T.WellFormed := Ty.wellFormed_iff.mpr ⟨hc, hT⟩
  exact ⟨(Ty.equal_iff h h).mpr rfl, (Ty.subtype_iff h h).mpr (.refl h)⟩

theorem check_confined_distinct {m : Term} {Γ : Context} (hm : ∀ t ∈ m.annotations, t.Distinct)
    (hn : ∀ names ∈ m.literals, names.Nodup) (hΓ : ∀ x t, Γ.get? x = some t → t.Distinct) :
    (m.check Γ).Confined Ty.Distinct (fun e => ∀ t ∈ e.types, t.Distinct) True := by
  refine check_confined (fun e _ he => he) (fun c t u _ _ => ?_) Ty.lasting_distinct ⟨hm, hn⟩ hΓ
  refine ⟨fun _ _ => trivial, fun e he => ?_, fun _ => trivial⟩
  obtain ⟨x, rfl, _⟩ := Comparison.free_of_holds he
  exact List.forall_mem_nil _

/-- where the annotations, the context and the objects of a term name each property once, its type
and the types in its error do; those of them that are closed are equal to themselves and subtypes
of themselves -/
theorem check_distinct {m : Term} {Γ : Context} (hm : ∀ t ∈ m.annotations, t.Distinct)
    (hn : ∀ names ∈ m.literals, names.Nodup) (hΓ : ∀ x t, Γ.get? x = some t → t.Distinct) :
    ∀ T, (m.check Γ).outcome = .ok T ∨ (∃ e, (m.check Γ).outcome = .error e ∧ T ∈ e.types) →
      T.Distinct ∧
        (T.Closed → (T.equal T).outcome = .ok true ∧ (T.subtype T).outcome = .ok true) := by
  intro T hT
  have hcheck := check_confined_distinct hm hn hΓ
  have hdistinct : T.Distinct := by
    rcases hT with hT | ⟨e, he, hT⟩
    · exact hcheck.ok T hT
    · exact hcheck.error e he T hT
  exact ⟨hdistinct, self_of_distinct hdistinct⟩

/-- an object in an object, one with the unfolding of a stream in it -/
theorem check_distinct_nested :
    let t := Ty.mu "s" (.object [("head", .number), ("tail", .var "s")])
    let m := object [("next", get (var "x") "tail"),
      ("pair", object [("next", bool true), ("x", var "x")])]
    ∃ T, (m.check (Context.ofRow [("x", t)])).outcome = .ok T ∧
      (T.equal T).outcome = .ok true ∧ (T.subtype T).outcome = .ok true := by
  intro t m
  have hm : (m.check (Context.ofRow [("x", t)])).outcome =
      .ok (.object [("next", t), ("pair", .object [("next", .boolean), ("x", t)])]) := by
    decide
  have hT := check_distinct (by decide) (by decide) (Context.forall_ofRow (by decide)) _ (.inl hm)
  exact ⟨_, hm, hT.2 (by decide)⟩

/-- an object of a term that names a property twice has no type that names each property once -/
theorem not_distinct_check_object {props : List (Name × Term)} {Γ : Context} {T : Ty}
    (h : ((object props).check Γ).outcome = .ok T) (hrepeat : ¬ (props.map Prod.fst).Nodup) :
    ¬ T.Distinct := by
  obtain ⟨row, rfl, hnames⟩ := names_of_check_object h
  exact fun hT => hrepeat (hnames ▸ (Ty.allObjects_object.mp hT).1)

/-- two properties of one name: the second one is compared with the first, so the type is not equal
to itself and no subtype of itself, and two branches with the object do not have equal types -/
theorem check_repeats :
    let m := object [("x", number 1), ("x", bool true)]
    let T := Ty.object [("x", .number), ("x", .boolean)]
    m.annotations = [] ∧ (m.check .empty).outcome = .ok T ∧ ¬ T.Distinct ∧ T.Closed ∧
      (T.equal T).outcome = .ok false ∧ (T.subtype T).outcome = .ok false ∧
      ((ite (bool true) m m).check .empty).outcome = .error (.branchMismatch T T) := by
  decide

end Equirec.Term
