import Equirec.Proofs.Tree
import Equirec.Proofs.Ty.Head
import Equirec.Proofs.Term.WellFormed

/-!
# The typing rules

The rules speak of finite maps from names to types and of the trees of types.  A part of a type is
read off what the unfolding of the type ends at; no comparison of types and no stack of scopes
comes into them.

* `Bindings`           what a context binds, as a map
* `Context.get?_extend_eq`
                       a stack of scopes binds what the rows it was made from bind, later over
                       earlier and inner over outer
* `HasType`            a term has a type
* `Fault`              the first premise that does not hold, from left to right, and the error that
                       says so
* `HasType.wellFormed` the types of well-formed terms are well-formed
-/

namespace Equirec

/-! ## bindings -/

/-- the types of names, where they have one -/
abbrev Bindings := Name → Option Ty

namespace Bindings

def set (Γ : Bindings) (x : Name) (t : Ty) : Bindings := fun y => if y = x then some t else Γ y

/-- the bindings of a row one after the other, later ones over earlier ones -/
def setAll (Γ : Bindings) (row : Row) : Bindings := row.foldl (fun Γ p => Γ.set p.1 p.2) Γ

section
variable {P : Ty → Prop} {Γ : Bindings}

theorem forall_set (h : ∀ x t, Γ x = some t → P t) {x : Name} {t : Ty} (ht : P t) :
    ∀ y u, Γ.set x t y = some u → P u := by
  intro y u hy
  rw [Bindings.set] at hy
  by_cases e : y = x
  · rw [if_pos e] at hy
    rwa [← Option.some.inj hy]
  · rw [if_neg e] at hy
    exact h y u hy

theorem forall_setAll (h : ∀ x t, Γ x = some t → P t) {row : Row} (hrow : ∀ p ∈ row, P p.2) :
    ∀ y u, Γ.setAll row y = some u → P u := by
  induction row generalizing Γ with
  | nil => exact h
  | cons p row ih =>
    obtain ⟨hp, hrow⟩ := List.forall_mem_cons.mp hrow
    exact ih (forall_set h hp) hrow

end

def WellFormed (Γ : Bindings) : Prop := ∀ x t, Γ x = some t → t.WellFormed

theorem WellFormed.set {Γ : Bindings} (h : Γ.WellFormed) {x : Name} {t : Ty}
    (ht : t.WellFormed) : (Γ.set x t).WellFormed :=
  forall_set h ht

theorem WellFormed.setAll {Γ : Bindings} (h : Γ.WellFormed) {row : Row}
    (hrow : ∀ p ∈ row, p.2.WellFormed) : (Γ.setAll row).WellFormed :=
  forall_setAll h hrow

end Bindings

/-- a scope in front of a map binds what its row binds, on top of the map -/
theorem Scope.get?_foldl_insert (Γ : Bindings) (row : Row) (s : Scope) (x : Name) :
    ((row.foldl (fun s p => s.insert p.1 p.2) s).get? x <|> Γ x) =
      Bindings.setAll (fun y => s.get? y <|> Γ y) row x := by
  induction row generalizing s with
  | nil => rfl
  | cons p row ih =>
    have hset : (fun y => (s.insert p.1 p.2).get? y <|> Γ y) =
        Bindings.set (fun y => s.get? y <|> Γ y) p.1 p.2 := by
      funext y
      rw [Scope.get?_insert, Bindings.set]
      by_cases e : y = p.1
      · rw [if_pos e, if_pos e]
        rfl
      · rw [if_neg e, if_neg e]
    rw [List.foldl_cons, ih, hset]
    rfl

theorem Context.get?_extend_eq (Γ : Context) (row : Row) :
    (Γ.extend row).get? = Bindings.setAll Γ.get? row := by
  funext x
  rw [Context.get?_extend, Scope.ofRow, Scope.get?_foldl_insert]
  rfl

theorem Context.get?_bind_eq (Γ : Context) (x : Name) (t : Ty) :
    (Γ.bind x t).get? = Bindings.set Γ.get? x t := by
  funext y
  exact Context.get?_bind Γ x y t

/-- what holds of the members of a row holds of what a context made from it binds -/
theorem Context.forall_ofRow {P : Ty → Prop} {row : Row} (h : ∀ p ∈ row, P p.2) :
    ∀ x t, (Context.ofRow row).get? x = some t → P t := by
  rw [Context.ofRow, Context.get?_extend_eq]
  refine Bindings.forall_setAll (fun x t hx => ?_) h
  rw [Context.get?_empty] at hx
  exact absurd hx (by simp)

/-! ## types of terms -/

/-- the unfolding of a type ends at a type without a `mu` in front, or at the first that repeats -/
abbrev Ty.UnfoldsTo (t h : Ty) : Prop := Ty.Settles [] t h

mutual
inductive HasType : Bindings → Term → Ty → Prop
  | bool {Γ : Bindings} {b : Bool} : HasType Γ (.bool b) .boolean
  | number {Γ : Bindings} {n : Float} : HasType Γ (.number n) .number
  | ite {Γ : Bindings} {c a b : Term} {C T U : Ty} (test : HasType Γ c C)
      (condition : C.tree.root = some .boolean) (thenBranch : HasType Γ a T)
      (elseBranch : HasType Γ b U) (branches : T.tree = U.tree) : HasType Γ (.ite c a b) T
  | add {Γ : Bindings} {l r : Term} {L R : Ty} (left : HasType Γ l L) (right : HasType Γ r R)
      (operands : L.tree.root = some .number ∧ R.tree.root = some .number) :
      HasType Γ (.add l r) .number
  | var {Γ : Bindings} {x : Name} {T : Ty} (bound : Γ x = some T) : HasType Γ (.var x) T
  | func {Γ : Bindings} {ps : Row} {b : Term} {R : Ty} (body : HasType (Γ.setAll ps) b R) :
      HasType Γ (.func ps b) (.func ps R)
  | call {Γ : Bindings} {f : Term} {as : List Term} {F R : Ty} {ps : Row}
      (callee : HasType Γ f F) (head : F.UnfoldsTo (.func ps R)) (arity : ps.length = as.length)
      (args : ArgsFit Γ as ps) : HasType Γ (.call f as) R
  | seq {Γ : Bindings} {a r : Term} {A T : Ty} (first : HasType Γ a A) (rest : HasType Γ r T) :
      HasType Γ (.seq a r) T
  | const {Γ : Bindings} {x : Name} {a r : Term} {A T : Ty} (value : HasType Γ a A)
      (rest : HasType (Γ.set x A) r T) : HasType Γ (.const x a r) T
  | object {Γ : Bindings} {ps : List (Name × Term)} {row : Row} (props : PropsHave Γ ps row) :
      HasType Γ (.object ps) (.object row)
  | get {Γ : Bindings} {o : Term} {x : Name} {O T : Ty} {row : Row} (target : HasType Γ o O)
      (head : O.UnfoldsTo (.object row)) (prop : (x, T) ∈ row) : HasType Γ (.get o x) T
  | recFunc {Γ : Bindings} {f : Name} {ps : Row} {R B T : Ty} {b r : Term}
      (body : HasType ((Γ.set f (.func ps R)).setAll ps) b B) (result : B.tree = R.tree)
      (rest : HasType (Γ.set f (.func ps R)) r T) : HasType Γ (.recFunc f ps R b r) T
/-- arguments are as many as the parameters and have subtypes of their types -/
inductive ArgsFit : Bindings → List Term → Row → Prop
  | nil {Γ : Bindings} : ArgsFit Γ [] []
  | cons {Γ : Bindings} {a : Term} {as : List Term} {x : Name} {A P : Ty} {ps : Row}
      (arg : HasType Γ a A) (fits : Tree.Sub A.tree P.tree) (rest : ArgsFit Γ as ps) :
      ArgsFit Γ (a :: as) ((x, P) :: ps)
/-- each property has the type at its place -/
inductive PropsHave : Bindings → List (Name × Term) → Row → Prop
  | nil {Γ : Bindings} : PropsHave Γ [] []
  | cons {Γ : Bindings} {x : Name} {a : Term} {A : Ty} {ps : List (Name × Term)} {row : Row}
      (prop : HasType Γ a A) (rest : PropsHave Γ ps row) :
      PropsHave Γ ((x, a) :: ps) ((x, A) :: row)
end

/-! ## faults -/

mutual
/-- premises hold up to one that does not, and the error names it -/
inductive Fault : Bindings → Term → TypeError → Prop
  | iteTest {Γ : Bindings} {c a b : Term} {e : TypeError} (test : Fault Γ c e) :
      Fault Γ (.ite c a b) e
  | iteCondition {Γ : Bindings} {c a b : Term} {C H : Ty} (test : HasType Γ c C)
      (condition : C.tree.root ≠ some .boolean) (head : C.UnfoldsTo H) :
      Fault Γ (.ite c a b) (.nonBooleanCondition H)
  | iteThen {Γ : Bindings} {c a b : Term} {C : Ty} {e : TypeError} (test : HasType Γ c C)
      (condition : C.tree.root = some .boolean) (thenBranch : Fault Γ a e) : Fault Γ (.ite c a b) e
  | iteElse {Γ : Bindings} {c a b : Term} {C T : Ty} {e : TypeError} (test : HasType Γ c C)
      (condition : C.tree.root = some .boolean) (thenBranch : HasType Γ a T)
      (elseBranch : Fault Γ b e) : Fault Γ (.ite c a b) e
  | iteBranches {Γ : Bindings} {c a b : Term} {C T U : Ty} (test : HasType Γ c C)
      (condition : C.tree.root = some .boolean) (thenBranch : HasType Γ a T)
      (elseBranch : HasType Γ b U) (branches : T.tree ≠ U.tree) :
      Fault Γ (.ite c a b) (.branchMismatch T U)
  | addLeft {Γ : Bindings} {l r : Term} {e : TypeError} (left : Fault Γ l e) : Fault Γ (.add l r) e
  | addRight {Γ : Bindings} {l r : Term} {L : Ty} {e : TypeError} (left : HasType Γ l L)
      (right : Fault Γ r e) : Fault Γ (.add l r) e
  | addOperands {Γ : Bindings} {l r : Term} {L R H K : Ty} (left : HasType Γ l L)
      (right : HasType Γ r R)
      (operands : ¬ (L.tree.root = some .number ∧ R.tree.root = some .number))
      (leftHead : L.UnfoldsTo H) (rightHead : R.UnfoldsTo K) :
      Fault Γ (.add l r) (.nonNumberOperand H K)
  | var {Γ : Bindings} {x : Name} (bound : Γ x = none) : Fault Γ (.var x) (.undefinedVariable x)
  | func {Γ : Bindings} {ps : Row} {b : Term} {e : TypeError} (body : Fault (Γ.setAll ps) b e) :
      Fault Γ (.func ps b) e
  | callCallee {Γ : Bindings} {f : Term} {as : List Term} {e : TypeError} (callee : Fault Γ f e) :
      Fault Γ (.call f as) e
  | callHead {Γ : Bindings} {f : Term} {as : List Term} {F H : Ty} (callee : HasType Γ f F)
      (func : ∀ n, F.tree.root ≠ some (.func n)) (head : F.UnfoldsTo H) :
      Fault Γ (.call f as) (.notAFunction H)
  | callArity {Γ : Bindings} {f : Term} {as : List Term} {F R : Ty} {ps : Row}
      (callee : HasType Γ f F) (head : F.UnfoldsTo (.func ps R)) (arity : ps.length ≠ as.length) :
      Fault Γ (.call f as) (.arityMismatch ps.length as.length)
  | callArgs {Γ : Bindings} {f : Term} {as : List Term} {F R : Ty} {ps : Row} {e : TypeError}
      (callee : HasType Γ f F) (head : F.UnfoldsTo (.func ps R)) (arity : ps.length = as.length)
      (args : ArgsFault Γ as ps e) : Fault Γ (.call f as) e
  | seqFirst {Γ : Bindings} {a r : Term} {e : TypeError} (first : Fault Γ a e) :
      Fault Γ (.seq a r) e
  | seqRest {Γ : Bindings} {a r : Term} {A : Ty} {e : TypeError} (first : HasType Γ a A)
      (rest : Fault Γ r e) : Fault Γ (.seq a r) e
  | constValue {Γ : Bindings} {x : Name} {a r : Term} {e : TypeError} (value : Fault Γ a e) :
      Fault Γ (.const x a r) e
  | constRest {Γ : Bindings} {x : Name} {a r : Term} {A : Ty} {e : TypeError}
      (value : HasType Γ a A) (rest : Fault (Γ.set x A) r e) : Fault Γ (.const x a r) e
  | object {Γ : Bindings} {ps : List (Name × Term)} {e : TypeError} (props : PropsFault Γ ps e) :
      Fault Γ (.object ps) e
  | getTarget {Γ : Bindings} {o : Term} {x : Name} {e : TypeError} (target : Fault Γ o e) :
      Fault Γ (.get o x) e
  | getHead {Γ : Bindings} {o : Term} {x : Name} {O H : Ty} (target : HasType Γ o O)
      (object : ∀ names, O.tree.root ≠ some (.object names)) (head : O.UnfoldsTo H) :
      Fault Γ (.get o x) (.notAnObject H)
  | getProp {Γ : Bindings} {o : Term} {x : Name} {O : Ty} {row : Row} (target : HasType Γ o O)
      (head : O.UnfoldsTo (.object row)) (prop : x ∉ Row.names row) :
      Fault Γ (.get o x) (.unknownProperty x (.object row))
  | recFuncBody {Γ : Bindings} {f : Name} {ps : Row} {R : Ty} {b r : Term} {e : TypeError}
      (body : Fault ((Γ.set f (.func ps R)).setAll ps) b e) : Fault Γ (.recFunc f ps R b r) e
  | recFuncResult {Γ : Bindings} {f : Name} {ps : Row} {R B : Ty} {b r : Term}
      (body : HasType ((Γ.set f (.func ps R)).setAll ps) b B) (result : B.tree ≠ R.tree) :
      Fault Γ (.recFunc f ps R b r) (.returnMismatch f R B)
  | recFuncRest {Γ : Bindings} {f : Name} {ps : Row} {R B : Ty} {b r : Term} {e : TypeError}
      (body : HasType ((Γ.set f (.func ps R)).setAll ps) b B) (result : B.tree = R.tree)
      (rest : Fault (Γ.set f (.func ps R)) r e) : Fault Γ (.recFunc f ps R b r) e
/-- arguments are checked and compared one after the other -/
inductive ArgsFault : Bindings → List Term → Row → TypeError → Prop
  | arg {Γ : Bindings} {a : Term} {as : List Term} {p : Name × Ty} {ps : Row} {e : TypeError}
      (arg : Fault Γ a e) : ArgsFault Γ (a :: as) (p :: ps) e
  | fits {Γ : Bindings} {a : Term} {as : List Term} {x : Name} {A P : Ty} {ps : Row}
      (arg : HasType Γ a A) (fits : ¬ Tree.Sub A.tree P.tree) :
      ArgsFault Γ (a :: as) ((x, P) :: ps) (.argumentMismatch x P A)
  | rest {Γ : Bindings} {a : Term} {as : List Term} {x : Name} {A P : Ty} {ps : Row}
      {e : TypeError} (arg : HasType Γ a A) (fits : Tree.Sub A.tree P.tree)
      (rest : ArgsFault Γ as ps e) : ArgsFault Γ (a :: as) ((x, P) :: ps) e
inductive PropsFault : Bindings → List (Name × Term) → TypeError → Prop
  | prop {Γ : Bindings} {x : Name} {a : Term} {ps : List (Name × Term)} {e : TypeError}
      (prop : Fault Γ a e) : PropsFault Γ ((x, a) :: ps) e
  | rest {Γ : Bindings} {x : Name} {a : Term} {A : Ty} {ps : List (Name × Term)} {e : TypeError}
      (prop : HasType Γ a A) (rest : PropsFault Γ ps e) : PropsFault Γ ((x, a) :: ps) e
end

/-! ## types of well-formed terms -/

theorem Ty.UnfoldsTo.wellFormed {t h : Ty} (hh : t.UnfoldsTo h) (ht : t.WellFormed) :
    h.WellFormed :=
  Ty.settles_iff.mp hh ▸ ht.headForm

theorem PropsHave.names_eq {Γ : Bindings} {ps : List (Name × Term)} {row : Row}
    (h : PropsHave Γ ps row) : Row.names row = ps.map Prod.fst := by
  induction ps generalizing row with
  | nil =>
    cases h
    rfl
  | cons p ps ih =>
    cases h with
    | cons prop rest => exact congrArg _ (ih rest)

/-- what holds of the types of the properties holds of the members of the row -/
theorem PropsHave.forall_mem {P : Ty → Prop} {Γ : Bindings} {ps : List (Name × Term)} {row : Row}
    (hP : ∀ p ∈ ps, ∀ T, HasType Γ p.2 T → P T) (h : PropsHave Γ ps row) : ∀ p ∈ row, P p.2 := by
  induction ps generalizing row with
  | nil =>
    cases h
    exact fun p hp => absurd hp List.not_mem_nil
  | cons p ps ih =>
    cases h with
    | cons prop rest =>
      exact List.forall_mem_cons.mpr ⟨hP _ (List.mem_cons_self ..) _ prop,
        ih (fun q hq => hP q (List.mem_cons_of_mem _ hq)) rest⟩

theorem HasType.wellFormed {Γ : Bindings} (hΓ : Γ.WellFormed) {m : Term} (hm : m.WellFormed)
    {T : Ty} (h : HasType Γ m T) : T.WellFormed := by
  induction m generalizing Γ T with
  | bool b | number n =>
    cases h
    decide
  | ite c a b hc ha hb =>
    cases h with
    | ite _ _ thenBranch _ _ => exact ha hΓ (Term.wellFormed_ite.mp hm).2.1 thenBranch
  | add l r hl hr =>
    cases h
    decide
  | var x =>
    cases h with
    | var bound => exact hΓ x T bound
  | func ps b hb =>
    obtain ⟨hps, hm⟩ := Term.wellFormed_func.mp hm
    cases h with
    | func body => exact Ty.wellFormed_func.mpr ⟨hps, hb (hΓ.setAll hps) hm body⟩
  | call f as hf has =>
    cases h with
    | call callee head _ _ =>
      have hF := hf hΓ (Term.wellFormed_call.mp hm).1 callee
      exact (Ty.wellFormed_func.mp (head.wellFormed hF)).2
  | seq a r ha hr =>
    cases h with
    | seq _ rest => exact hr hΓ (Term.wellFormed_seq.mp hm).2 rest
  | const x a r ha hr =>
    obtain ⟨hma, hmr⟩ := Term.wellFormed_const.mp hm
    cases h with
    | const value rest => exact hr (hΓ.set (ha hΓ hma value)) hmr rest
  | object ps hps =>
    obtain ⟨hn, hm⟩ := Term.wellFormed_object.mp hm
    cases h with
    | object props =>
      refine Ty.wellFormed_object.mpr ⟨by rw [props.names_eq]; exact hn, ?_⟩
      exact props.forall_mem fun p hp _ h => hps p hp hΓ (hm p hp) h
  | get o x ho =>
    cases h with
    | get target head prop =>
      have hO := ho hΓ (Term.wellFormed_get.mp hm) target
      exact (Ty.wellFormed_object.mp (head.wellFormed hO)).2 _ prop
  | recFunc f ps R b r hb hr =>
    obtain ⟨hps, hR, _, hmr⟩ := Term.wellFormed_recFunc.mp hm
    cases h with
    | recFunc _ _ rest => exact hr (hΓ.set (Ty.wellFormed_func.mpr ⟨hps, hR⟩)) hmr rest

end Equirec
