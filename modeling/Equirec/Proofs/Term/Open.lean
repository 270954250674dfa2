import Equirec.Proofs.Comparison.Reserve
import Equirec.Proofs.Term.Lasting

/-!
# Terms with free type variables

Nothing validates the annotations of a term or the types of a context.  Variables may be free in
them, and an unfolding may catch them.

* `Term.check_ends`   with objects that name each property once, the check ends all the same
* `Term.FreeIn`       the type variables that come into a check from outside
* `Term.check_free`   no others come up in it, and it fails over no others
-/

namespace Equirec.Term

/-! ## the end of a check -/

/-- where no object names a property twice, the check of a term ends in a type or in an error,
whatever type variables are free; so does each comparison, and with more nested steps than its
reserve it is the same run -/
theorem check_ends :
    (∀ (m : Term) (Γ : Context), (∀ t ∈ m.annotations, t.Distinct) →
      (∀ names ∈ m.literals, names.Nodup) → (∀ x t, Γ.get? x = some t → t.Distinct) →
      (∃ T, (m.check Γ).outcome = .ok T) ∨ ∃ e, (m.check Γ).outcome = .error e) ∧
    ∀ (c : Comparison) (t u : Ty), t.Distinct → u.Distinct →
      ((∃ answer, (c.holds t u).outcome = .ok answer) ∨ ∃ e, (c.holds t u).outcome = .error e) ∧
      ∀ n, Comparison.reserve t u ≤ n → c.holdsWithin n [] t u = c.holds t u := by
  constructor
  · intro m Γ hm hnames hΓ
    have hc : ∀ (c : Comparison) (t u : Ty), t.Distinct → u.Distinct →
        (c.holds t u).Confined (fun _ => True) (fun _ => True) False := fun c t u ht hu =>
      ⟨fun _ _ => trivial, fun _ _ => trivial, Comparison.holds_ends ht hu⟩
    exact Run.ok_or_error
      (check_confined (fun _ _ _ => trivial) hc Ty.lasting_distinct ⟨hm, hnames⟩ hΓ).exhausted
  · intro c t u ht hu
    exact ⟨Run.ok_or_error (Comparison.holds_ends ht hu),
      fun n hn => Comparison.holdsWithin_eq_holds_of_distinct ht hu hn⟩

/-- a `mu` that catches the variable of the one around it at each turn, and the next turn of it -/
theorem check_ends_caught :
    let t := Ty.mu "x" (.object [("p", .mu "y" (.object [("q", .var "x"), ("r", .var "y")])),
      ("s", .var "y")])
    let m := ite (bool true) (var "f") (var "g")
    let Γ := Context.ofRow [("f", t), ("g", t.unfold)]
    ((∃ T, (m.check Γ).outcome = .ok T) ∨ ∃ e, (m.check Γ).outcome = .error e) ∧
      ∀ n, Comparison.reserve t t.unfold ≤ n →
        Comparison.equality.holdsWithin n [] t t.unfold = t.equal t.unfold := by
  intro t m Γ
  refine ⟨check_ends.1 m Γ (by decide) (by decide) (Context.forall_ofRow (by decide)), ?_⟩
  exact (check_ends.2 .equality t t.unfold (by decide) (by decide)).2

/-! ## free variables -/

/-- the variable is free in an annotation of the term or in a type that the context binds -/
def FreeIn (Γ : Context) (m : Term) (x : Name) : Prop :=
  (∃ t ∈ m.annotations, x ∈ t.freeVars) ∨ ∃ y t, Γ.get? y = some t ∧ x ∈ t.freeVars

/-- errors that speak of no variables but those in `V` -/
def Within (V : Name → Prop) (e : TypeError) : Prop :=
  (∀ x, e = .unboundTypeVariable x → V x) ∧ ∀ t ∈ e.types, ∀ x ∈ t.freeVars, V x

theorem confined_holds (V : Name → Prop) (c : Comparison) (t u : Ty) (ht : ∀ x ∈ t.freeVars, V x)
    (hu : ∀ x ∈ u.freeVars, V x) : (c.holds t u).Confined (fun _ => True) (Within V) True := by
  refine ⟨fun _ _ => trivial, fun _ he => ?_, fun _ => trivial⟩
  obtain ⟨x, rfl, hx⟩ := Comparison.free_of_holds he
  refine ⟨fun y hy => ?_, List.forall_mem_nil _⟩
  cases hy
  exact hx.elim (ht x) (hu x)

theorem check_confined_free {V : Name → Prop} {m : Term} {Γ : Context}
    (hm : ∀ t ∈ m.annotations, ∀ x ∈ t.freeVars, V x)
    (hΓ : ∀ y t, Γ.get? y = some t → ∀ x ∈ t.freeVars, V x) :
    (m.check Γ).Confined (fun T => ∀ x ∈ T.freeVars, V x) (Within V) True :=
  check_confined (fun _ hx ht => ⟨fun x he => absurd he (hx x), ht⟩) (confined_holds V)
    (Ty.lasting_free V) ⟨hm, fun _ _ => trivial⟩ hΓ

/-- a comparison fails over a variable that is free in one of its types, and a check over one that
is free in an annotation or in the context; the types of a check, in errors too, have no other free
variables -/
theorem check_free :
    (∀ (c : Comparison) (t u : Ty) (e : TypeError), (c.holds t u).outcome = .error e →
      ∃ x, e = .unboundTypeVariable x ∧ (x ∈ t.freeVars ∨ x ∈ u.freeVars)) ∧
    (∀ (m : Term) (Γ : Context),
      (∀ x, (m.check Γ).outcome = .error (.unboundTypeVariable x) → FreeIn Γ m x) ∧
      (∀ T, (m.check Γ).outcome = .ok T → ∀ x ∈ T.freeVars, FreeIn Γ m x) ∧
      ∀ e, (m.check Γ).outcome = .error e → ∀ t ∈ e.types, ∀ x ∈ t.freeVars, FreeIn Γ m x) ∧
    (∀ (c : Comparison) (t u : Ty), t.validate = .ok () → u.validate = .ok () →
      ∀ e, (c.holds t u).outcome ≠ .error e) ∧
    ∀ (m : Term) (Γ : Context), (∀ t ∈ m.annotations, t.validate = .ok ()) →
      (∀ y t, Γ.get? y = some t → t.validate = .ok ()) →
      (∀ x, (m.check Γ).outcome ≠ .error (.unboundTypeVariable x)) ∧
      (∀ T, (m.check Γ).outcome = .ok T → T.validate = .ok ()) ∧
      ∀ e, (m.check Γ).outcome = .error e → ∀ t ∈ e.types, t.validate = .ok () := by
  have hclosed : ∀ t : Ty, t.validate = .ok () ↔ ∀ x ∈ t.freeVars, False := fun t =>
    Ty.validate_eq_ok_iff.trans Ty.closed_iff
  refine ⟨fun c t u e he => Comparison.free_of_holds he, fun m Γ => ?_,
    fun c t u ht hu e he => ?_, fun m Γ hm hΓ => ?_⟩
  · have h : (m.check Γ).Confined _ (Within (FreeIn Γ m)) True :=
      check_confined_free (fun t ht x hx => .inl ⟨t, ht, hx⟩) fun y t ht x hx => .inr ⟨y, t, ht, hx⟩
    exact ⟨fun x he => (h.error _ he).1 x rfl, h.ok, fun e he => (h.error e he).2⟩
  · obtain ⟨x, _, hx | hx⟩ := Comparison.free_of_holds he
    · exact (hclosed t).mp ht x hx
    · exact (hclosed u).mp hu x hx
  · have h : (m.check Γ).Confined _ (Within fun _ => False) True :=
      check_confined_free (fun t ht => (hclosed t).mp (hm t ht))
        fun y t ht => (hclosed t).mp (hΓ y t ht)
    exact ⟨fun x he => (h.error _ he).1 x rfl, fun T hT => (hclosed T).mpr (h.ok T hT),
      fun e he t ht => (hclosed t).mpr ((h.error e he).2 t ht)⟩

/-- a parameter of a free type fails the comparison with an argument; one of a closed type does not,
though it is unfolded on the way -/
theorem check_free_parameter :
    let t := Ty.mu "s" (.object [("head", .boolean), ("tail", .var "s")])
    FreeIn .empty (call (func [("n", .var "y")] (var "n")) [bool true]) "y" ∧
      ∀ T, (check (call (func [("n", t)] (get (var "n") "tail")) [var "b"])
        (Context.ofRow [("b", t.unfold)])).outcome = .ok T → T.validate = .ok () := by
  intro t
  refine ⟨(check_free.2.1 _ _).1 "y" (by decide), ?_⟩
  exact (check_free.2.2.2 _ _ (by decide) (Context.forall_ofRow (by decide))).2.1

end Equirec.Term
