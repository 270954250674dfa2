import Equirec.Proofs.Term.Scope

/-!
# Constants in the place of their names

A constant may as well be written out wherever it is used.  It is then checked once for each use,
in the scopes around that use, and these have to leave its free variables as they are.

* `Term.subst`        a term in the place of each free occurrence of a variable
* `Term.bindersOver`  the names that are bound around free occurrences of a variable
* `Term.Stands`       a term has the type of the variable that it is to replace
* `Term.Stands.below` it still has that type below binders that are not among its free variables
* `Term.outcome_check_subst`
                      the check does not tell the term and the variable apart
* `Term.check_inline` a constant and the rest of a term with its value written out end alike
-/

namespace Equirec

namespace Term

/-! ## substitution -/

mutual
/-- the term with another one in the place of each free occurrence of a variable.  Substitution is
literal: it stops below a binder of the variable, and renames none. -/
def subst : Term → Name → Term → Term
  | bool b, _, _ => bool b
  | number n, _, _ => number n
  | ite c a b, x, s => ite (c.subst x s) (a.subst x s) (b.subst x s)
  | add l r, x, s => add (l.subst x s) (r.subst x s)
  | var y, x, s => if y = x then s else var y
  | func ps b, x, s => func ps (if x ∈ Row.names ps then b else b.subst x s)
  | call f as, x, s => call (f.subst x s) (substArgs as x s)
  | seq a r, x, s => seq (a.subst x s) (r.subst x s)
  | const y a r, x, s => const y (a.subst x s) (if x = y then r else r.subst x s)
  | object ps, x, s => object (substProps ps x s)
  | get o y, x, s => get (o.subst x s) y
  | recFunc f ps t b r, x, s =>
    recFunc f ps t (if x ∈ f :: Row.names ps then b else b.subst x s)
      (if x = f then r else r.subst x s)
def substArgs : List Term → Name → Term → List Term
  | [], _, _ => []
  | a :: as, x, s => a.subst x s :: substArgs as x s
def substProps : List (Name × Term) → Name → Term → List (Name × Term)
  | [], _, _ => []
  | (y, a) :: ps, x, s => (y, a.subst x s) :: substProps ps x s
end

/-- the names that a scope adds to those below it: they count if the variable is free in the scope,
and nothing does if they hide it -/
def scopeOver (x : Name) (names free below : List Name) : List Name :=
  if x ∈ names then [] else if x ∈ free then names ++ below else below

mutual
/-- the names that are bound in the term around free occurrences of a variable -/
def bindersOver (x : Name) : Term → List Name
  | bool _ => []
  | number _ => []
  | ite c a b => c.bindersOver x ++ (a.bindersOver x ++ b.bindersOver x)
  | add l r => l.bindersOver x ++ r.bindersOver x
  | var _ => []
  | func ps b => scopeOver x (Row.names ps) b.freeVars (b.bindersOver x)
  | call f as => f.bindersOver x ++ bindersOverArgs x as
  | seq a r => a.bindersOver x ++ r.bindersOver x
  | const y a r => a.bindersOver x ++ scopeOver x [y] r.freeVars (r.bindersOver x)
  | object ps => bindersOverProps x ps
  | get o _ => o.bindersOver x
  | recFunc f ps _ b r =>
    scopeOver x (f :: Row.names ps) b.freeVars (b.bindersOver x) ++
      scopeOver x [f] r.freeVars (r.bindersOver x)
def bindersOverArgs (x : Name) : List Term → List Name
  | [] => []
  | a :: as => a.bindersOver x ++ bindersOverArgs x as
def bindersOverProps (x : Name) : List (Name × Term) → List Name
  | [] => []
  | (_, a) :: ps => a.bindersOver x ++ bindersOverProps x ps
end

theorem mem_scopeOver_of_mem_below {x y : Name} {names free below : List Name} (hx : x ∉ names)
    (h : y ∈ below) : y ∈ scopeOver x names free below := by
  rw [scopeOver, if_neg hx]
  split
  · exact List.mem_append_right _ h
  · exact h

theorem mem_scopeOver_of_mem_names {x y : Name} {names free below : List Name} (hx : x ∉ names)
    (hfree : x ∈ free) (h : y ∈ names) : y ∈ scopeOver x names free below := by
  rw [scopeOver, if_neg hx, if_pos hfree]
  exact List.mem_append_left _ h

/-! ## a term for a variable -/

/-- the two contexts agree on the free variables of a term, save for one variable; where that is
free, the first binds it to the type that `s` has in the second, and no binder around it is the name
of a free variable of `s`.  `free` and `binders` are the free variables of the term, and the names
bound around the free occurrences of the variable. -/
structure Stands (x : Name) (s : Term) (T : Ty) (Γ Δ : Context) (free binders : List Name) :
    Prop where
  agree : ∀ y ∈ free, y ≠ x → Γ.get? y = Δ.get? y
  type : x ∈ free → Γ.get? x = some T ∧ (s.check Δ).outcome = .ok T
  apart : ∀ y ∈ binders, y ∉ s.freeVars

section
variable {x : Name} {s : Term} {T : Ty} {Γ Δ : Context}

theorem Stands.mono {free binders free' binders' : List Name}
    (h : Stands x s T Γ Δ free' binders') (hfree : free ⊆ free') (hbinders : binders ⊆ binders') :
    Stands x s T Γ Δ free binders :=
  ⟨fun y hy => h.agree y (hfree hy), fun hx => h.type (hfree hx),
    fun y hy => h.apart y (hbinders hy)⟩

theorem stands_append {free binders free' binders' : List Name} :
    Stands x s T Γ Δ (free ++ free') (binders ++ binders') ↔
      Stands x s T Γ Δ free binders ∧ Stands x s T Γ Δ free' binders' := by
  constructor
  · intro h
    exact ⟨h.mono (List.subset_append_left ..) (List.subset_append_left ..),
      h.mono (List.subset_append_right ..) (List.subset_append_right ..)⟩
  · rintro ⟨h, h'⟩
    refine ⟨fun y hy => ?_, fun hx => ?_, List.forall_mem_append.mpr ⟨h.apart, h'.apart⟩⟩
    · exact (List.mem_append.mp hy).elim (h.agree y) (h'.agree y)
    · exact (List.mem_append.mp hx).elim h.type h'.type

/-- below a scope that does not bind the variable the term stands for it as well: the scope leaves
the free variables of the term as they are -/
theorem Stands.extend {row : Row} {free binders : List Name} (hx : x ∉ Row.names row)
    (h : Stands x s T Γ Δ (free.filter (· ∉ Row.names row))
      (scopeOver x (Row.names row) free binders)) :
    Stands x s T (Γ.extend row) (Δ.extend row) free binders where
  agree y hy hne := Context.get?_extend_congr fun hn =>
    h.agree y (List.mem_filter.mpr ⟨hy, decide_eq_true hn⟩) hne
  type hfree := by
    obtain ⟨hΓ, hs⟩ := h.type (List.mem_filter.mpr ⟨hfree, decide_eq_true hx⟩)
    have hrun : s.check (Δ.extend row) = s.check Δ := check_congr fun y hy =>
      Context.get?_extend_of_not_mem fun hmem =>
        h.apart y (mem_scopeOver_of_mem_names hx hfree hmem) hy
    rw [Context.get?_extend_of_not_mem hx, hrun]
    exact ⟨hΓ, hs⟩
  apart y hy := h.apart y (mem_scopeOver_of_mem_below hx hy)

/-- the check of a term below a scope; where the scope binds the variable, nothing is put in -/
theorem Stands.below {row : Row} {b : Term} {p : Prop} [Decidable p]
    (ih : ∀ {Γ Δ : Context}, Stands x s T Γ Δ b.freeVars (b.bindersOver x) →
      (b.check Γ).outcome = ((b.subst x s).check Δ).outcome)
    (hp : p ↔ x ∈ Row.names row)
    (h : Stands x s T Γ Δ (b.freeVars.filter (· ∉ Row.names row))
      (scopeOver x (Row.names row) b.freeVars (b.bindersOver x))) :
    (b.check (Γ.extend row)).outcome =
      ((if p then b else b.subst x s).check (Δ.extend row)).outcome := by
  by_cases hx : x ∈ Row.names row
  · rw [if_pos (hp.mpr hx)]
    have hrun : b.check (Γ.extend row) = b.check (Δ.extend row) := by
      refine check_congr fun y hy => Context.get?_extend_congr fun hn => ?_
      refine h.agree y (List.mem_filter.mpr ⟨hy, decide_eq_true hn⟩) ?_
      rintro rfl
      exact hn hx
    rw [hrun]
  · rw [if_neg fun h => hx (hp.mp h)]
    exact ih (h.extend hx)

theorem Stands.below_bind {r : Term} {y : Name} {t : Ty}
    (ih : ∀ {Γ Δ : Context}, Stands x s T Γ Δ r.freeVars (r.bindersOver x) →
      (r.check Γ).outcome = ((r.subst x s).check Δ).outcome)
    (h : Stands x s T Γ Δ (r.freeVars.filter (· ≠ y))
      (scopeOver x [y] r.freeVars (r.bindersOver x))) :
    (r.check (Γ.bind y t)).outcome =
      ((if x = y then r else r.subst x s).check (Δ.bind y t)).outcome := by
  have hfree : r.freeVars.filter (· ≠ y) = r.freeVars.filter (· ∉ Row.names [(y, t)]) :=
    List.filter_congr fun z _ => by simp [Row.names]
  rw [hfree] at h
  exact h.below ih List.mem_singleton.symm

/-! ## the check -/

theorem outcome_checkArgs_subst {as : List Term}
    (has : ∀ a ∈ as, Stands x s T Γ Δ a.freeVars (a.bindersOver x) →
      (a.check Γ).outcome = ((a.subst x s).check Δ).outcome)
    (h : Stands x s T Γ Δ (freeVarsArgs as) (bindersOverArgs x as)) (ps : Row) :
    (checkArgs as ps Γ).outcome = (checkArgs (substArgs as x s) ps Δ).outcome := by
  induction as generalizing ps with
  | nil => rfl
  | cons a as ih =>
    obtain ⟨ha, has⟩ := List.forall_mem_cons.mp has
    obtain ⟨hfirst, hrest⟩ := stands_append.mp h
    cases ps with
    | nil => rfl
    | cons p ps =>
      refine Run.outcome_bind_congr (ha hfirst) fun t _ => ?_
      refine Run.outcome_bind_congr rfl fun fits _ => ?_
      cases fits with
      | true => exact ih has hrest ps
      | false => rfl

theorem outcome_checkProps_subst {ps : List (Name × Term)}
    (hps : ∀ p ∈ ps, Stands x s T Γ Δ p.2.freeVars (p.2.bindersOver x) →
      (p.2.check Γ).outcome = ((p.2.subst x s).check Δ).outcome)
    (h : Stands x s T Γ Δ (freeVarsProps ps) (bindersOverProps x ps)) :
    (checkProps ps Γ).outcome = (checkProps (substProps ps x s) Δ).outcome := by
  induction ps with
  | nil => rfl
  | cons p ps ih =>
    obtain ⟨hp, hps⟩ := List.forall_mem_cons.mp hps
    obtain ⟨hfirst, hrest⟩ := stands_append.mp h
    exact Run.outcome_bind_congr (hp hfirst) fun t _ =>
      Run.outcome_bind_congr (ih hps hrest) fun row _ => rfl

theorem length_substArgs (as : List Term) (x : Name) (s : Term) :
    (substArgs as x s).length = as.length := by
  induction as with
  | nil => rfl
  | cons a as ih => exact congrArg Nat.succ ih

/-- a term that stands for a variable can be put in its place -/
theorem outcome_check_subst {m : Term} (h : Stands x s T Γ Δ m.freeVars (m.bindersOver x)) :
    (m.check Γ).outcome = ((m.subst x s).check Δ).outcome := by
  induction m generalizing Γ Δ with
  | bool b => rfl
  | number n => rfl
  | ite c a b hc ha hb =>
    obtain ⟨h1, h23⟩ := stands_append.mp h
    obtain ⟨h2, h3⟩ := stands_append.mp h23
    refine Run.outcome_bind_congr (hc h1) fun t _ => Run.outcome_bind_congr rfl fun v _ => ?_
    split
    · exact Run.outcome_bind_congr (ha h2) fun t _ => Run.outcome_bind_congr (hb h3) fun u _ => rfl
    · rfl
  | add l r hl hr =>
    obtain ⟨h1, h2⟩ := stands_append.mp h
    exact Run.outcome_bind_congr (hl h1) fun t _ => Run.outcome_bind_congr rfl fun v _ =>
      Run.outcome_bind_congr (hr h2) fun u _ => rfl
  | var y =>
    by_cases e : y = x
    · subst e
      obtain ⟨hΓ, hs⟩ := h.type (List.mem_singleton_self y)
      rw [subst, if_pos rfl, check, hΓ, hs]
      rfl
    · rw [subst, if_neg e, check, check, h.agree y (List.mem_singleton_self y) e]
  | func ps b hb =>
    exact Run.outcome_bind_congr (h.below hb Iff.rfl) fun t _ => rfl
  | call f as hf has =>
    obtain ⟨h1, h2⟩ := stands_append.mp h
    refine Run.outcome_bind_congr (hf h1) fun t _ => Run.outcome_bind_congr rfl fun v _ => ?_
    cases v with
    | func ps r =>
      show (if ps.length = as.length then _ else _ : Run Ty).outcome =
        (if ps.length = (substArgs as x s).length then _ else _ : Run Ty).outcome
      rw [length_substArgs]
      split
      · exact Run.outcome_bind_congr (outcome_checkArgs_subst (fun a ha => has a ha) h2 ps)
          fun _ _ => rfl
      · rfl
    | _ => rfl
  | seq a r ha hr =>
    obtain ⟨h1, h2⟩ := stands_append.mp h
    exact Run.outcome_bind_congr (ha h1) fun t _ => hr h2
  | const y a r ha hr =>
    obtain ⟨h1, h2⟩ := stands_append.mp h
    exact Run.outcome_bind_congr (ha h1) fun t _ => h2.below_bind hr
  | object ps hps =>
    exact Run.outcome_bind_congr (outcome_checkProps_subst (fun p hp => hps p hp) h) fun t _ => rfl
  | get o y ho => exact Run.outcome_bind_congr (ho h) fun t _ => rfl
  | recFunc f ps t b r hb hr =>
    obtain ⟨h1, h2⟩ := stands_append.mp h
    refine Run.outcome_bind_congr (h1.below hb Iff.rfl) fun u _ => ?_
    refine Run.outcome_bind_congr rfl fun same _ => ?_
    cases same with
    | false => rfl
    | true => exact Run.outcome_bind_congr rfl fun _ _ => h2.below_bind hr

end

/-- where the value of a constant has a type, and no free variable of the value is bound around a
use of the constant, it makes no difference whether the constant is declared or its value is written
out: the term has the same type or the same error, or no answer, either way -/
theorem check_inline {x : Name} {s r : Term} {Γ : Context} {T : Ty}
    (hs : (s.check Γ).outcome = .ok T) (hr : ∀ y ∈ r.bindersOver x, y ∉ s.freeVars) :
    ((const x s r).check Γ).outcome = ((r.subst x s).check Γ).outcome := by
  have hstands : Stands x s T (Γ.bind x T) Γ r.freeVars (r.bindersOver x) := by
    refine ⟨fun y _ hne => Context.get?_bind_of_ne hne, fun _ => ⟨?_, hs⟩, hr⟩
    rw [Context.get?_bind, if_pos rfl]
  have hconst : ((const x s r).check Γ).outcome = (r.check (Γ.bind x T)).outcome := by
    rw [check, Run.outcome_bind, hs, Outcome.ok_bind]
  rw [hconst]
  exact outcome_check_subst hstands

/-- a property of `p` for a stream that is used in the body and behind a recursive function; the
function that binds `p` binds the constant's name as well, so nothing is put in there -/
theorem check_inline_stream :
    let t := Ty.mu "a" (.object [("head", .number), ("tail", .var "a")])
    let s := get (var "p") "stream"
    let r := recFunc "f" [("y", .number)] .number (add (var "y") (get (var "x") "head"))
      (seq (func [("x", .boolean), ("p", .var "b")] (var "x"))
        (call (var "f") [get (get (var "x") "tail") "head"]))
    let Γ := Context.ofRow [("p", .object [("stream", t)])]
    (s.check Γ).outcome = .ok t ∧ r.bindersOver "x" = ["f", "y", "f"] ∧
      ((const "x" s r).check Γ).outcome = ((r.subst "x" s).check Γ).outcome ∧
      ((r.subst "x" s).check Γ).outcome = .ok .number := by
  intro t s r Γ
  have hs : (s.check Γ).outcome = .ok t := by decide
  have hr : ∀ y ∈ r.bindersOver "x", y ∉ s.freeVars := by decide
  exact ⟨hs, by decide, check_inline hs hr, by decide⟩

/-- a parameter that the value would be caught by makes a difference -/
example :
    let r := func [("p", .boolean)] (var "x")
    let Γ := Context.ofRow [("p", .number)]
    ((const "x" (var "p") r).check Γ).outcome = .ok (.func [("p", .boolean)] .number) ∧
      ((r.subst "x" (var "p")).check Γ).outcome = .ok (.func [("p", .boolean)] .boolean) := by
  decide

end Term

end Equirec
