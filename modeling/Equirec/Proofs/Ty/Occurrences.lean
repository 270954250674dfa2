import Mathlib.Data.List.Lex
import Mathlib.Logic.Relation
import Equirec.Proofs.Ty.Distinct

/-!
# Where variables are free

A place in a type is a way down from the top, the number of the part to go on with at each node.  A
variable is free at a place if no `mu` on the way binds it.  Of two places the one further left has
the smaller number where the ways part, so places are compared as lists are.

* `Ty.parts`             the types below the topmost node, from left to right
* `Ty.FreeAt`            a variable is free at a place
* `Ty.mem_freeVars_iff`  the free variables are those that are free at some place
* `Ty.LeftmostFree`      no variable is free further left
* `Ty.firstFree_iff`     the leftmost variable that is not bound, and its place
* `Ty.freeVars_subst_of_closed`
                         a closed type in the place of a variable takes away its occurrences alone
* `Ty.Move`              unfolding, the head form, and the parts of the head form
* `Ty.mem_freeVars_of_moves`
                         no variable comes up in any number of moves that was not free before
* `Ty.free_variables_agree`
                         what `Ty.validate`, substitution and unfolding say of free variables
-/

namespace Equirec.Ty

/-! ## parts -/

/-- the types below the topmost node, from left to right: the result of a function comes behind its
parameters -/
def parts : Ty → List Ty
  | func ps r => ps.map Prod.snd ++ [r]
  | object ps => ps.map Prod.snd
  | mu _ b => [b]
  | _ => []

/-- the topmost node is a `mu` of the name -/
def binds : Ty → Name → Bool
  | mu y _, x => x == y
  | _, _ => false

/-- induction on types from the parts to the whole -/
theorem parts_induction {P : Ty → Prop} (h : ∀ t : Ty, (∀ u ∈ t.parts, P u) → P t) (t : Ty) :
    P t := by
  induction t with
  | boolean => exact h _ (List.forall_mem_nil _)
  | number => exact h _ (List.forall_mem_nil _)
  | var x => exact h _ (List.forall_mem_nil _)
  | func ps r hps hr =>
    refine h _ (List.forall_mem_append.mpr ⟨?_, List.forall_mem_singleton.mpr hr⟩)
    exact List.forall_mem_map.mpr hps
  | object ps hps => exact h _ (List.forall_mem_map.mpr hps)
  | mu x b hb => exact h _ (List.forall_mem_singleton.mpr hb)

theorem freeVarsRow_eq_flatMap_types (ps : Row) :
    freeVarsRow ps = (ps.map Prod.snd).flatMap freeVars := by
  rw [freeVarsRow_eq_flatMap, List.flatMap_map]

/-- what is free in a type that is no variable is free in a part and not bound at the top -/
theorem freeVars_eq_parts {t : Ty} (ht : ∀ x, t ≠ var x) :
    t.freeVars = (t.parts.flatMap freeVars).filter fun x => !t.binds x := by
  have hall : ∀ names : List Name, names.filter (fun _ => !false) = names := fun names =>
    List.filter_eq_self.mpr fun _ _ => rfl
  cases t with
  | boolean => rfl
  | number => rfl
  | var x => exact absurd rfl (ht x)
  | func ps r =>
    show freeVarsRow ps ++ r.freeVars = ((ps.map Prod.snd ++ [r]).flatMap freeVars).filter _
    rw [List.flatMap_append, List.flatMap_singleton, ← freeVarsRow_eq_flatMap_types]
    exact (hall _).symm
  | object ps =>
    show freeVarsRow ps = ((ps.map Prod.snd).flatMap freeVars).filter _
    rw [← freeVarsRow_eq_flatMap_types]
    exact (hall _).symm
  | mu x b =>
    show b.freeVars.filter (· != x) = ([b].flatMap freeVars).filter _
    rw [List.flatMap_singleton]
    rfl

/-! ## places -/

/-- the variable stands at the place, and no `mu` on the way there binds it -/
inductive FreeAt : Ty → List Nat → Name → Prop
  | here {x : Name} : FreeAt (var x) [] x
  | down {t u : Ty} {i : Nat} {path : List Nat} {x : Name} (part : t.parts[i]? = some u)
      (free : FreeAt u path x) (unbound : t.binds x = false) : FreeAt t (i :: path) x

/-- a place has one variable -/
theorem FreeAt.unique {t : Ty} {path : List Nat} {x y : Name} (hx : t.FreeAt path x)
    (hy : t.FreeAt path y) : x = y := by
  induction hx with
  | here =>
    cases hy with
    | here => rfl
  | down part _ _ ih =>
    cases hy with
    | down part' free' _ =>
      obtain rfl := Option.some.inj (part.symm.trans part')
      exact ih free'

theorem mem_freeVars_iff {t : Ty} {x : Name} : x ∈ t.freeVars ↔ ∃ path, t.FreeAt path x := by
  induction t using parts_induction with
  | h t ih =>
    by_cases ht : ∃ y, t = var y
    · obtain ⟨y, rfl⟩ := ht
      rw [mem_freeVars_var]
      constructor
      · rintro rfl
        exact ⟨[], .here⟩
      · rintro ⟨path, h⟩
        cases h with
        | here => rfl
        | down part _ _ => exact absurd part (by simp [parts])
    · rw [not_exists] at ht
      rw [freeVars_eq_parts ht, List.mem_filter, List.mem_flatMap, Bool.not_eq_true']
      constructor
      · rintro ⟨⟨u, hu, hx⟩, hbinds⟩
        obtain ⟨path, h⟩ := (ih u hu).mp hx
        obtain ⟨i, hi⟩ := List.mem_iff_getElem?.mp hu
        exact ⟨i :: path, .down hi h hbinds⟩
      · rintro ⟨path, h⟩
        cases h with
        | here => exact absurd rfl (ht x)
        | @down _ u i path _ part free unbound =>
          have hu : u ∈ t.parts := List.mem_of_getElem? part
          exact ⟨⟨u, hu, (ih u hu).mpr ⟨path, free⟩⟩, unbound⟩

/-! ## the leftmost place -/

/-- the way to the first place goes on with the smaller number where it leaves the way to the
second; no place of a variable is on the way to another -/
def LeftOf (path path' : List Nat) : Prop := List.Lex (· < ·) path path'

/-- the variable is free, and no variable is free further left -/
def LeftmostFree (t : Ty) (x : Name) : Prop :=
  ∃ path, t.FreeAt path x ∧ ∀ path' y, t.FreeAt path' y → ¬ LeftOf path' path

theorem LeftmostFree.unique {t : Ty} {x y : Name} (hx : t.LeftmostFree x)
    (hy : t.LeftmostFree y) : x = y := by
  obtain ⟨path, hfree, hleast⟩ := hx
  obtain ⟨path', hfree', hleast'⟩ := hy
  have hpath : path = path' := Std.Trichotomous.trichotomous (r := List.Lex (· < ·)) path path'
    (hleast' path x hfree) (hleast path' y hfree')
  exact (hpath ▸ hfree).unique hfree'

/-- the first variable of some types that is wanted is in one of them, and none is in those before
it -/
theorem exists_first_of_find? {ts : List Ty} {x : Name} {wanted : Name → Bool}
    (h : (ts.flatMap freeVars).find? wanted = some x) :
    ∃ (i : Nat) (u : Ty), ts[i]? = some u ∧ u.freeVars.find? wanted = some x ∧
      ∀ j < i, ∀ v : Ty, ts[j]? = some v → ∀ y ∈ v.freeVars, wanted y ≠ true := by
  rw [List.find?_flatMap, List.findSome?_eq_some_iff] at h
  obtain ⟨before, u, after, rfl, hu, hbefore⟩ := h
  refine ⟨before.length, u, ?_, hu, fun j hj v hv y hy => ?_⟩
  · rw [List.getElem?_append_right (Nat.le_refl _), Nat.sub_self]
    rfl
  · rw [List.getElem?_append_left hj] at hv
    exact List.find?_eq_none.mp (hbefore v (List.mem_of_getElem? hv)) y hy

/-- the first of the free variables that are wanted is the leftmost one that is.  Below a `mu` its
own name is not wanted, so the names that are wanted change on the way down. -/
theorem exists_leftmost_of_find? {t : Ty} {x : Name} {wanted : Name → Bool}
    (h : t.freeVars.find? wanted = some x) :
    ∃ path, t.FreeAt path x ∧
      ∀ path' y, t.FreeAt path' y → wanted y = true → ¬ LeftOf path' path := by
  induction t using parts_induction generalizing wanted with
  | h t ih =>
    by_cases ht : ∃ y, t = var y
    · obtain ⟨y, rfl⟩ := ht
      have hx : x = y := mem_freeVars_var.mp (List.mem_of_find?_eq_some h)
      exact ⟨[], hx ▸ .here, fun _ _ _ _ => List.not_lex_nil⟩
    · rw [not_exists] at ht
      rw [freeVars_eq_parts ht, List.find?_filter] at h
      obtain ⟨i, u, hi, hu, hbefore⟩ := exists_first_of_find? h
      have hx := List.find?_some hu
      rw [decide_eq_true_iff, Bool.not_eq_true'] at hx
      obtain ⟨path, hfree, hleast⟩ := ih u (List.mem_of_getElem? hi) hu
      refine ⟨i :: path, .down hi hfree hx.1, fun path' y hy hwanted hlex => ?_⟩
      cases hy with
      | here => exact absurd rfl (ht y)
      | @down _ v j path' _ hj free unbound =>
        have hy : decide ((!t.binds y) = true ∧ wanted y = true) = true := by
          rw [decide_eq_true_iff, Bool.not_eq_true']
          exact ⟨unbound, hwanted⟩
        rcases List.cons_lex_cons_iff.mp hlex with hlt | ⟨rfl, hrest⟩
        · exact hbefore j hlt v hj y (mem_freeVars_iff.mpr ⟨_, free⟩) hy
        · obtain rfl := Option.some.inj (hi.symm.trans hj)
          exact hleast path' y free hy hrest

theorem firstFree_iff {t : Ty} {x : Name} : t.firstFree [] = some x ↔ t.LeftmostFree x := by
  have hleft : ∀ y, t.firstFree [] = some y → t.LeftmostFree y := by
    intro y hy
    rw [firstFree_eq_find?] at hy
    obtain ⟨path, hfree, hleast⟩ := exists_leftmost_of_find? hy
    exact ⟨path, hfree, fun path' z hz => hleast path' z hz rfl⟩
  refine ⟨hleft x, fun h => ?_⟩
  cases hfirst : t.firstFree [] with
  | some y => rw [(hleft y hfirst).unique h]
  | none =>
    obtain ⟨path, hfree, _⟩ := h
    rw [firstFree_nil, List.head?_eq_none_iff] at hfirst
    exact absurd (mem_freeVars_iff.mpr ⟨path, hfree⟩) (hfirst ▸ List.not_mem_nil)

theorem validate_eq_error_iff {t : Ty} {e : TypeError} :
    t.validate = .error e ↔ ∃ x, e = .unboundTypeVariable x ∧ t.LeftmostFree x := by
  simp only [← firstFree_iff]
  rw [validate]
  cases t.firstFree [] with
  | none => simp
  | some x => simp [eq_comm]

/-! ## closed types in the place of a variable -/

theorem freeVarsRow_substRow {ps : Row} {x : Name} {s : Ty}
    (h : ∀ p ∈ ps, (p.2.subst x s).freeVars = p.2.freeVars.filter (· != x)) :
    freeVarsRow (substRow ps x s) = (freeVarsRow ps).filter (· != x) := by
  refine Row.induct ps h rfl fun p ps hp ih => ?_
  show (p.2.subst x s).freeVars ++ freeVarsRow (substRow ps x s) = _
  rw [hp, ih, ← List.filter_append]
  rfl

/-- the occurrences of the variable are taken away, and all others stay in their order -/
theorem freeVars_subst_of_closed {s : Ty} (hs : s.Closed) (t : Ty) (x : Name) :
    (t.subst x s).freeVars = t.freeVars.filter (· != x) := by
  induction t with
  | boolean => rfl
  | number => rfl
  | func ps r hps hr =>
    show freeVarsRow (substRow ps x s) ++ (r.subst x s).freeVars = _
    rw [freeVarsRow_substRow hps, hr, ← List.filter_append]
    rfl
  | object ps hps => exact freeVarsRow_substRow hps
  | var y =>
    by_cases e : y = x
    · rw [e, subst_var_self, show s.freeVars = [] from hs]
      simp [freeVars]
    · rw [subst_var_of_ne e]
      simp [freeVars, e]
  | mu y b hb =>
    by_cases e : y = x
    · rw [e, subst_mu_self]
      show b.freeVars.filter (· != x) = (b.freeVars.filter (· != x)).filter (· != x)
      rw [List.filter_filter]
      simp
    · rw [subst_mu_of_ne e]
      show (b.subst x s).freeVars.filter (· != y) = (b.freeVars.filter (· != y)).filter (· != x)
      rw [hb, List.filter_comm]

/-! ## moves -/

/-- one move from a type: one turn, all turns up to the head form, or a part of the head form of a
function or object type -/
inductive Move : Ty → Ty → Prop
  | unfold {t : Ty} : Move t t.unfold
  | headForm {t : Ty} : Move t t.headForm
  | param {t r : Ty} {ps : Row} {p : Name × Ty} (head : t.headForm = func ps r) (h : p ∈ ps) :
      Move t p.2
  | result {t r : Ty} {ps : Row} (head : t.headForm = func ps r) : Move t r
  | prop {t : Ty} {ps : Row} {p : Name × Ty} (head : t.headForm = object ps) (h : p ∈ ps) :
      Move t p.2

theorem mem_freeVars_of_move {t u : Ty} (h : t.Move u) {x : Name} (hx : x ∈ u.freeVars) :
    x ∈ t.freeVars := by
  cases h with
  | unfold => exact mem_freeVars_unfold hx
  | headForm => exact mem_freeVars_headForm hx
  | param head hp =>
    refine mem_freeVars_headForm ?_
    rw [head]
    exact mem_freeVars_func.mpr (.inl ⟨_, hp, hx⟩)
  | result head =>
    refine mem_freeVars_headForm ?_
    rw [head]
    exact mem_freeVars_func.mpr (.inr hx)
  | prop head hp =>
    refine mem_freeVars_headForm ?_
    rw [head]
    exact mem_freeVars_object.mpr ⟨_, hp, hx⟩

theorem mem_freeVars_of_moves {t u : Ty} (h : Relation.ReflTransGen Move t u) {x : Name}
    (hx : x ∈ u.freeVars) : x ∈ t.freeVars := by
  induction h with
  | refl => exact hx
  | tail _ hmove ih => exact ih (mem_freeVars_of_move hmove hx)

/-- `Ty.validate` accepts the types in which no variable is free at any place, and names the
leftmost free variable of any other.  A closed type in the place of a variable takes its free
occurrences away and no others, and a variable that is not free can be replaced by anything.  What
is accepted stays so in any number of moves. -/
theorem free_variables_agree :
    (∀ t : Ty, (t.validate = .ok () ↔ ∀ path x, ¬ t.FreeAt path x) ∧
      (∀ e, t.validate = .error e ↔ ∃ x, e = .unboundTypeVariable x ∧ t.LeftmostFree x) ∧
      ∀ x, x ∈ t.freeVars ↔ ∃ path, t.FreeAt path x) ∧
    (∀ (t : Ty) (x : Name) (s : Ty), s.Closed →
      (t.subst x s).freeVars = t.freeVars.filter (· != x)) ∧
    (∀ (t : Ty) (x : Name) (s : Ty), x ∉ t.freeVars → t.subst x s = t) ∧
    ∀ t u : Ty, Relation.ReflTransGen Move t u → t.validate = .ok () → u.validate = .ok () := by
  refine ⟨fun t => ⟨?_, fun e => validate_eq_error_iff, fun x => mem_freeVars_iff⟩,
    fun t x s hs => freeVars_subst_of_closed hs t x, fun t x s hx => subst_of_not_mem_freeVars s hx,
    fun t u h ht => ?_⟩
  · rw [validate_eq_ok_iff, closed_iff]
    simp only [mem_freeVars_iff, not_exists]
    exact forall_comm
  · rw [validate_eq_ok_iff] at ht ⊢
    exact closed_iff.mpr fun x hx => ht.not_mem x (mem_freeVars_of_moves h hx)

/-- a name that is free in front of a `mu` of it and behind one, and a closed type with the name of
a free variable for its binder; and a type that is come back to below the binder of its parameter -/
theorem free_variables_agree_below :
    let t := mu "a" (func [("x", mu "n" (func [("x", var "n")] (var "n"))), ("y", var "n")]
      (object [("l", mu "m" (var "m")), ("r", var "m"), ("s", var "n"), ("t", var "a")]))
    let s := mu "m" (func [] (var "m"))
    let u := mu "a" (func [("x", mu "b" (object [("l", var "a"), ("r", var "b")]))] (var "a"))
    let v := mu "b" (object [("l", u), ("r", var "b")])
    t.validate = .error (.unboundTypeVariable "n") ∧ s.Closed ∧ (t.subst "n" s).freeVars = ["m"] ∧
      "a" ∉ t.freeVars ∧ t.subst "a" s = t ∧
      Relation.ReflTransGen Move u v ∧ u.validate = .ok () ∧ v.validate = .ok () := by
  intro t s u v
  have hs : s.Closed := by decide
  have ha : "a" ∉ t.freeVars := by decide
  have hu : u.validate = .ok () := by decide
  have hu' : u.headForm = func [("x", v)] u := by decide
  have hv : v.headForm = object [("l", u), ("r", v)] := by decide
  have hfirst : u.Move v := .param hu' (List.mem_cons_self ..)
  have hsecond : v.Move v := .prop (p := ("r", v)) hv (by simp)
  have hmoves : Relation.ReflTransGen Move u v := .tail (.single hfirst) hsecond
  exact ⟨by decide, hs, free_variables_agree.2.1 t "n" s hs, ha,
    free_variables_agree.2.2.1 t "a" s ha, hmoves, hu, free_variables_agree.2.2.2 u v hmoves hu⟩

end Equirec.Ty
