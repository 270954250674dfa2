import Equirec.Term.Typing
import Equirec.Proofs.Term.Alike

/-!
# What a check asks of its context

A context is asked for the types of the free variables of a term, and for nothing else.  How its
scopes are stacked, what they hide and what else they bind makes no difference.

* `Context.get?_extend_congr`   contexts that agree on a name agree on it under a new scope
* `Term.check_congr`            contexts that agree on the free variables of a term give the same
                                run, events included
* `Term.isSome_get?_of_check`   each free variable is asked for: a term that has a type has types
                                for all of them
* `Term.check_depends`          the type or the error of a term depends on the bindings of its free
                                variables, and on all of them
-/

namespace Equirec

/-! ## contexts that agree on a name -/

theorem Bindings.setAll_congr {Γ Δ : Bindings} {row : Row} {x : Name}
    (h : x ∉ Row.names row → Γ x = Δ x) : Γ.setAll row x = Δ.setAll row x := by
  induction row generalizing Γ Δ with
  | nil => exact h List.not_mem_nil
  | cons p row ih =>
    refine ih fun hx => ?_
    show (if x = p.1 then some p.2 else Γ x) = if x = p.1 then some p.2 else Δ x
    by_cases e : x = p.1
    · rw [if_pos e, if_pos e]
    · rw [if_neg e, if_neg e]
      exact h fun hmem => (List.mem_cons.mp hmem).elim e hx

theorem Context.get?_extend_congr {Γ Δ : Context} {row : Row} {x : Name}
    (h : x ∉ Row.names row → Γ.get? x = Δ.get? x) :
    (Γ.extend row).get? x = (Δ.extend row).get? x := by
  rw [Context.get?_extend_eq, Context.get?_extend_eq]
  exact Bindings.setAll_congr h

theorem Context.get?_bind_congr {Γ Δ : Context} {x y : Name} {t : Ty}
    (h : y ≠ x → Γ.get? y = Δ.get? y) : (Γ.bind x t).get? y = (Δ.bind x t).get? y :=
  get?_extend_congr fun hy => h fun e => hy (List.mem_singleton.mpr e)

theorem Bindings.setAll_of_not_mem {Γ : Bindings} {row : Row} {x : Name} (h : x ∉ Row.names row) :
    Γ.setAll row x = Γ x := by
  induction row generalizing Γ with
  | nil => rfl
  | cons p row ih =>
    obtain ⟨hx, hrow⟩ := not_or.mp (mt List.mem_cons.mpr h)
    show (Γ.set p.1 p.2).setAll row x = Γ x
    rw [ih hrow, Bindings.set, if_neg hx]

theorem Context.get?_extend_of_not_mem {Γ : Context} {row : Row} {x : Name}
    (h : x ∉ Row.names row) : (Γ.extend row).get? x = Γ.get? x := by
  rw [Context.get?_extend_eq, Bindings.setAll_of_not_mem h]

theorem Context.get?_bind_of_ne {Γ : Context} {x y : Name} {t : Ty} (h : y ≠ x) :
    (Γ.bind x t).get? y = Γ.get? y := by
  rw [Context.get?_bind, if_neg h]

namespace Term

/-! ## free variables below binders -/

theorem mem_freeVars_func {ps : Row} {b : Term} {x : Name} :
    x ∈ (func ps b).freeVars ↔ x ∈ b.freeVars ∧ x ∉ Row.names ps := by
  show x ∈ b.freeVars.filter _ ↔ _
  rw [List.mem_filter, decide_eq_true_iff]

theorem mem_freeVars_const {x y : Name} {a r : Term} :
    y ∈ (const x a r).freeVars ↔ y ∈ a.freeVars ∨ y ∈ r.freeVars ∧ y ≠ x := by
  show y ∈ a.freeVars ++ r.freeVars.filter _ ↔ _
  rw [List.mem_append, List.mem_filter, decide_eq_true_iff]

theorem mem_freeVars_recFunc {f y : Name} {ps : Row} {t : Ty} {b r : Term} :
    y ∈ (recFunc f ps t b r).freeVars ↔
      (y ∈ b.freeVars ∧ y ∉ f :: Row.names ps) ∨ y ∈ r.freeVars ∧ y ≠ f := by
  show y ∈ b.freeVars.filter _ ++ r.freeVars.filter _ ↔ _
  rw [List.mem_append, List.mem_filter, List.mem_filter, decide_eq_true_iff, decide_eq_true_iff]

/-! ## runs in contexts that agree -/

theorem checkArgs_congr {Γ Δ : Context} {as : List Term} (h : ∀ a ∈ as, a.check Γ = a.check Δ)
    (ps : Row) : checkArgs as ps Γ = checkArgs as ps Δ := by
  induction as generalizing ps with
  | nil => rfl
  | cons a as ih =>
    obtain ⟨ha, has⟩ := List.forall_mem_cons.mp h
    cases ps with
    | nil => rfl
    | cons p ps => rw [checkArgs, checkArgs, ha, ih has]

theorem checkProps_congr {Γ Δ : Context} {ps : List (Name × Term)}
    (h : ∀ p ∈ ps, p.2.check Γ = p.2.check Δ) : checkProps ps Γ = checkProps ps Δ := by
  induction ps with
  | nil => rfl
  | cons p ps ih =>
    obtain ⟨hp, hps⟩ := List.forall_mem_cons.mp h
    rw [checkProps, checkProps, hp, ih hps]

/-- contexts that bind the free variables of a term to the same types give the same run: the same
type or the same error, and the same events -/
theorem check_congr {m : Term} {Γ Δ : Context} (h : ∀ x ∈ m.freeVars, Γ.get? x = Δ.get? x) :
    m.check Γ = m.check Δ := by
  induction m generalizing Γ Δ with
  | bool b => rfl
  | number n => rfl
  | ite c a b hc ha hb =>
    obtain ⟨h1, h23⟩ := List.forall_mem_append.mp h
    obtain ⟨h2, h3⟩ := List.forall_mem_append.mp h23
    rw [check, check, hc h1, ha h2, hb h3]
  | add l r hl hr =>
    obtain ⟨h1, h2⟩ := List.forall_mem_append.mp h
    rw [check, check, hl h1, hr h2]
  | var x => rw [check, check, h x (List.mem_singleton_self x)]
  | func ps b hb =>
    have hbody : b.check (Γ.extend ps) = b.check (Δ.extend ps) := hb fun x hx =>
      Context.get?_extend_congr fun hn => h x (mem_freeVars_func.mpr ⟨hx, hn⟩)
    rw [check, check, hbody]
  | call f as hf has =>
    obtain ⟨h1, h2⟩ := List.forall_mem_append.mp h
    have hargs : ∀ ps, checkArgs as ps Γ = checkArgs as ps Δ :=
      checkArgs_congr fun a ha => has a ha fun x hx => h2 x (mem_freeVarsArgs.mpr ⟨a, ha, hx⟩)
    simp only [check, hf h1, hargs]
  | seq a r ha hr =>
    obtain ⟨h1, h2⟩ := List.forall_mem_append.mp h
    rw [check, check, ha h1, hr h2]
  | const x a r ha hr =>
    have hvalue : a.check Γ = a.check Δ := ha fun y hy => h y (mem_freeVars_const.mpr (.inl hy))
    have hrest : ∀ t, r.check (Γ.bind x t) = r.check (Δ.bind x t) := fun t => hr fun y hy =>
      Context.get?_bind_congr fun hne => h y (mem_freeVars_const.mpr (.inr ⟨hy, hne⟩))
    simp only [check, hvalue, hrest]
  | object ps hps =>
    have hprops : checkProps ps Γ = checkProps ps Δ := checkProps_congr fun p hp =>
      hps p hp fun x hx => h x (mem_freeVarsProps.mpr ⟨p, hp, hx⟩)
    rw [check, check, hprops]
  | get o x ho => rw [check, check, ho h]
  | recFunc f ps t b r hb hr =>
    have hbody : b.check (Γ.extend ((f, .func ps t) :: ps)) =
        b.check (Δ.extend ((f, .func ps t) :: ps)) := hb fun y hy =>
      Context.get?_extend_congr fun hn => h y (mem_freeVars_recFunc.mpr (.inl ⟨hy, hn⟩))
    have hrest : r.check (Γ.bind f (.func ps t)) = r.check (Δ.bind f (.func ps t)) := hr fun y hy =>
      Context.get?_bind_congr fun hne => h y (mem_freeVars_recFunc.mpr (.inr ⟨hy, hne⟩))
    rw [check, check, hbody, hrest]

/-! ## variables that a run has asked for -/

theorem isSome_get?_of_checkArgs {Γ : Context} {as : List Term} {ps : Row}
    (has : ∀ a ∈ as, ∀ T, (a.check Γ).outcome = .ok T → ∀ x ∈ a.freeVars, (Γ.get? x).isSome)
    (hlen : ps.length = as.length) (h : (checkArgs as ps Γ).outcome = .ok ()) :
    ∀ x ∈ freeVarsArgs as, (Γ.get? x).isSome := by
  induction as generalizing ps with
  | nil => exact List.forall_mem_nil _
  | cons a as ih =>
    cases ps with
    | nil => exact absurd hlen (by simp)
    | cons p ps =>
      obtain ⟨ha, has⟩ := List.forall_mem_cons.mp has
      obtain ⟨t, ht, h⟩ := Run.exists_of_bind_ok h
      obtain ⟨fits, _, h⟩ := Run.exists_of_bind_ok h
      cases fits with
      | true => exact List.forall_mem_append.mpr ⟨ha t ht, ih has (Nat.succ.inj hlen) h⟩
      | false => exact absurd h (by simp)

theorem isSome_get?_of_checkProps {Γ : Context} {ps : List (Name × Term)} {row : Row}
    (hps : ∀ p ∈ ps, ∀ T, (p.2.check Γ).outcome = .ok T → ∀ x ∈ p.2.freeVars, (Γ.get? x).isSome)
    (h : (checkProps ps Γ).outcome = .ok row) : ∀ x ∈ freeVarsProps ps, (Γ.get? x).isSome := by
  induction ps generalizing row with
  | nil => exact List.forall_mem_nil _
  | cons p ps ih =>
    obtain ⟨hp, hps⟩ := List.forall_mem_cons.mp hps
    obtain ⟨t, ht, h⟩ := Run.exists_of_bind_ok h
    obtain ⟨rest, hrest, _⟩ := Run.exists_of_bind_ok h
    exact List.forall_mem_append.mpr ⟨hp t ht, ih hps hrest⟩

/-- a term that has a type has a type for each of its free variables -/
theorem isSome_get?_of_check {m : Term} {Γ : Context} {T : Ty} (h : (m.check Γ).outcome = .ok T) :
    ∀ x ∈ m.freeVars, (Γ.get? x).isSome := by
  induction m generalizing Γ T with
  | bool b => exact List.forall_mem_nil _
  | number n => exact List.forall_mem_nil _
  | ite c a b hc ha hb =>
    obtain ⟨C, hC, h⟩ := Run.exists_of_bind_ok h
    obtain ⟨head, _, h⟩ := Run.exists_of_bind_ok h
    split at h
    · obtain ⟨A, hA, h⟩ := Run.exists_of_bind_ok h
      obtain ⟨B, hB, _⟩ := Run.exists_of_bind_ok h
      exact List.forall_mem_append.mpr ⟨hc hC, List.forall_mem_append.mpr ⟨ha hA, hb hB⟩⟩
    · exact absurd h (by simp)
  | add l r hl hr =>
    obtain ⟨L, hL, h⟩ := Run.exists_of_bind_ok h
    obtain ⟨left, _, h⟩ := Run.exists_of_bind_ok h
    obtain ⟨R, hR, _⟩ := Run.exists_of_bind_ok h
    exact List.forall_mem_append.mpr ⟨hl hL, hr hR⟩
  | var x =>
    rw [check] at h
    split at h
    · next t ht =>
      refine List.forall_mem_singleton.mpr ?_
      rw [ht]
      rfl
    · exact absurd h (by simp)
  | func ps b hb =>
    obtain ⟨R, hR, _⟩ := Run.exists_of_bind_ok h
    intro x hx
    obtain ⟨hx, hn⟩ := mem_freeVars_func.mp hx
    rw [← Context.get?_extend_of_not_mem hn]
    exact hb hR x hx
  | call f as hf has =>
    obtain ⟨F, hF, h⟩ := Run.exists_of_bind_ok h
    obtain ⟨head, _, h⟩ := Run.exists_of_bind_ok h
    split at h
    · split at h
      · next hlen =>
        obtain ⟨_, hargs, _⟩ := Run.exists_of_bind_ok h
        refine List.forall_mem_append.mpr ⟨hf hF, ?_⟩
        exact isSome_get?_of_checkArgs (fun a ha _ hT => has a ha hT) hlen hargs
      · exact absurd h (by simp)
    · exact absurd h (by simp)
  | seq a r ha hr =>
    obtain ⟨A, hA, hR⟩ := Run.exists_of_bind_ok h
    exact List.forall_mem_append.mpr ⟨ha hA, hr hR⟩
  | const x a r ha hr =>
    obtain ⟨A, hA, hR⟩ := Run.exists_of_bind_ok h
    intro y hy
    rcases mem_freeVars_const.mp hy with hy | ⟨hy, hne⟩
    · exact ha hA y hy
    · rw [← Context.get?_bind_of_ne hne]
      exact hr hR y hy
  | object ps hps =>
    obtain ⟨row, hrow, _⟩ := Run.exists_of_bind_ok h
    exact isSome_get?_of_checkProps (fun p hp _ hT => hps p hp hT) hrow
  | get o x ho =>
    obtain ⟨O, hO, _⟩ := Run.exists_of_bind_ok h
    exact ho hO
  | recFunc f ps t b r hb hr =>
    obtain ⟨B, hB, h⟩ := Run.exists_of_bind_ok h
    obtain ⟨same, _, h⟩ := Run.exists_of_bind_ok h
    cases same with
    | false => exact absurd h (by simp)
    | true =>
      obtain ⟨_, _, hR⟩ := Run.exists_of_bind_ok h
      intro y hy
      rcases mem_freeVars_recFunc.mp hy with ⟨hy, hn⟩ | ⟨hy, hne⟩
      · have hn : y ∉ Row.names ((f, .func ps t) :: ps) := hn
        rw [← Context.get?_extend_of_not_mem hn]
        exact hb hB y hy
      · rw [← Context.get?_bind_of_ne hne]
        exact hr hR y hy

/-- contexts that bind the free variables of a term to the same types, whatever else they bind and
however their scopes are stacked, give it the same type or the same error, with the same events; and
where it has a type, both have bound each of its free variables -/
theorem check_depends {m : Term} {Γ Δ : Context} (h : ∀ x ∈ m.freeVars, Γ.get? x = Δ.get? x) :
    (m.check Γ).outcome = (m.check Δ).outcome ∧ (m.check Γ).events = (m.check Δ).events ∧
      ∀ T, (m.check Γ).outcome = .ok T →
        ∀ x ∈ m.freeVars, ∃ t, Γ.get? x = some t ∧ Δ.get? x = some t := by
  have hrun : m.check Γ = m.check Δ := check_congr h
  refine ⟨congrArg Run.outcome hrun, congrArg Run.events hrun, fun T hT x hx => ?_⟩
  obtain ⟨t, ht⟩ := Option.isSome_iff_exists.mp (isSome_get?_of_check hT x hx)
  exact ⟨t, ht, (h x hx).symm.trans ht⟩

/-- a recursive function with a parameter of its own name and one that comes twice, in a stack of
scopes that hide each other and in a flat context: only the outer `x` and `y` are free -/
theorem check_depends_stack :
    let m := const "x" (var "x")
      (recFunc "f" [("f", .number), ("x", .number), ("x", .boolean)] .number
        (ite (var "x") (var "f") (var "y")) (call (var "f") [var "y", var "y", var "x"]))
    let Γ := ((Context.ofRow [("x", .number), ("x", .boolean), ("w", .var "a")]).bind "y"
      .boolean).extend [("y", .number)]
    let Δ := Context.ofRow [("y", .number), ("x", .boolean)]
    m.freeVars = ["x", "y", "y", "y"] ∧ (m.check Γ).outcome = (m.check Δ).outcome ∧
      (m.check Δ).outcome = .ok .number := by
  intro m Γ Δ
  have hrun : (m.check Γ).outcome = (m.check Δ).outcome := (check_depends (by decide)).1
  exact ⟨by decide, hrun, hrun ▸ by decide⟩

end Term

end Equirec
