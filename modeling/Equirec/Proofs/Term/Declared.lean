import Equirec.Term.Typing

/-!
# The functions that a check declares

A recursive function is declared in the log once its body has the type that it promises.  A check
goes through a term from left to right, comes to every part once, and stops at the first fault.  So
the log declares the recursive functions of the term in their order, up to the fault.

* `Run.declared`          the functions that a run declares
* `Run.Declares`          a run declares functions in order, all of them if it ends in a value
* `Run.Declares.bind`     one run after the other
* `Comparison.declares_holds`
                          comparisons declare nothing
* `Term.declared`         the recursive functions of a term: those of a body stand in front of its
                          function, and those of the rest behind it
* `Term.declares_check`, `Term.check_declares_once`
                          a check declares the recursive functions of its term
-/

namespace Equirec

/-- the function that an event declares, by name and type -/
def Event.declared? : Event → Option (Name × Ty)
  | declared f t => some (f, t)
  | _ => none

/-! ## runs -/

namespace Run

variable {α β : Type}

def declared (r : Run α) : List (Name × Ty) := r.events.filterMap Event.declared?

theorem declared_bind (r : Run α) (f : α → Run β) :
    (r >>= f).declared = r.declared ++ match r.outcome with
      | .ok a => (f a).declared
      | _ => [] := by
  rw [declared, events_bind, List.filterMap_append]
  cases r.outcome <;> rfl

/-- the run declares these functions in their order: the first of them, and all if it ends in a
value -/
structure Declares (r : Run α) (ds : List (Name × Ty)) : Prop where
  first : r.declared <+: ds
  all : ∀ a, r.outcome = .ok a → r.declared = ds

namespace Declares

variable {ds ds' : List (Name × Ty)}

theorem pure (a : α) : (Pure.pure a : Run α).Declares [] :=
  ⟨List.prefix_rfl, fun _ _ => rfl⟩

theorem fail (e : TypeError) : (Run.fail e : Run α).Declares ds where
  first := List.nil_prefix
  all := by simp

theorem giveUp : (Run.giveUp : Run α).Declares ds where
  first := List.nil_prefix
  all := by simp

theorem log (es : List Event) : (Run.log es).Declares (es.filterMap Event.declared?) :=
  ⟨List.prefix_rfl, fun _ _ => rfl⟩

theorem bind {r : Run α} {f : α → Run β} (hr : r.Declares ds) (hf : ∀ a, (f a).Declares ds') :
    (r >>= f).Declares (ds ++ ds') := by
  cases ho : r.outcome with
  | ok a =>
    have hrun : (r >>= f).declared = ds ++ (f a).declared := by
      rw [declared_bind, ho, hr.all a ho]
    refine ⟨?_, fun b hb => ?_⟩
    · rw [hrun]
      exact (List.prefix_append_right_inj ds).mpr (hf a).first
    · rw [outcome_bind, ho, Outcome.ok_bind] at hb
      rw [hrun, (hf a).all b hb]
  | error _ | exhausted =>
    -- the second run is not come to
    refine ⟨?_, fun b hb => ?_⟩
    · rw [declared_bind, ho, List.append_nil]
      exact hr.first.trans (List.prefix_append ds ds')
    · rw [outcome_bind, ho] at hb
      exact absurd hb (by simp)

/-- nothing is declared by what follows -/
theorem quiet {r : Run α} {f : α → Run β} (hr : r.Declares ds) (hf : ∀ a, (f a).Declares []) :
    (r >>= f).Declares ds := by
  have h := hr.bind hf
  rwa [List.append_nil] at h

/-- nothing is declared by a question -/
theorem test {q : Run Bool} {r s : Run α} (hq : q.Declares []) (hr : r.Declares ds)
    (hs : s.Declares ds) : (q >>= fun b => if b then r else s).Declares ds := by
  refine hq.bind fun b => ?_
  cases b with
  | true => exact hr
  | false => exact hs

end Declares

end Run

/-! ## comparisons -/

theorem Ty.declares_normalize (t : Ty) : t.normalize.Declares [] := by
  unfold normalize
  dsimp only
  split
  · exact (Run.Declares.log _).bind fun _ => .pure _
  · exact .pure _

theorem Ty.declares_askUnguarded (t : Ty) : t.askUnguarded.Declares [] :=
  t.declares_normalize.bind fun _ => .pure _

namespace Comparison

variable {c : Comparison}

theorem declares_allHold {related : Ty → Ty → Run Bool} (h : ∀ a b, (related a b).Declares [])
    (ps : List (Option (Ty × Ty))) : (allHold related ps).Declares [] := by
  induction ps with
  | nil => exact .pure _
  | cons o ps ih =>
    cases o with
    | none => exact .pure _
    | some p => exact .test (h p.1 p.2) ih (.pure false)

theorem declares_unfolded (t h : Ty) : (Run.log (c.unfoldedEvents t h)).Declares [] := by
  cases c <;> exact .log _

theorem declares_step {next : Assumptions → Ty → Ty → Run Bool}
    (hn : ∀ seen t u, (next seen t u).Declares []) (seen : Assumptions) (t u : Ty) :
    (c.step next seen t u).Declares [] := by
  unfold step
  split
  · refine t.declares_normalize.bind fun h => ?_
    split
    · exact u.declares_askUnguarded
    · exact (declares_unfolded t h).bind fun _ => hn _ _ _
  · split
    · refine u.declares_normalize.bind fun h => ?_
      split
      · exact .pure _
      · exact (declares_unfolded u h).bind fun _ => hn _ _ _
    · split
      · exact .fail _
      · exact declares_allHold (hn seen) _

theorem declares_holdsWithin (n : Nat) (seen : Assumptions) (t u : Ty) :
    (c.holdsWithin n seen t u).Declares [] := by
  induction n generalizing seen t u with
  | zero => exact .giveUp
  | succ n ih =>
    rw [holdsWithin_succ]
    split
    · have hlog : (Run.log [c.assumedEvent t u]).Declares [] := by cases c <;> exact .log _
      exact hlog.bind fun _ => .pure _
    · exact declares_step ih seen t u

theorem declares_holds (t u : Ty) : (c.holds t u).Declares [] := by
  obtain ⟨n, hn⟩ := c.exists_holds_eq t u
  rw [hn]
  exact declares_holdsWithin n [] t u

end Comparison

/-! ## checks -/

namespace Term

mutual
def declared : Term → List (Name × Ty)
  | bool _ => []
  | number _ => []
  | ite c t e => c.declared ++ (t.declared ++ e.declared)
  | add l r => l.declared ++ r.declared
  | var _ => []
  | func _ b => b.declared
  | call f as => f.declared ++ declaredArgs as
  | seq a r => a.declared ++ r.declared
  | const _ a r => a.declared ++ r.declared
  | object ps => declaredProps ps
  | get o _ => o.declared
  | recFunc f ps t b r => b.declared ++ (f, .func ps t) :: r.declared
def declaredArgs : List Term → List (Name × Ty)
  | [] => []
  | a :: as => a.declared ++ declaredArgs as
def declaredProps : List (Name × Term) → List (Name × Ty)
  | [] => []
  | (_, a) :: ps => a.declared ++ declaredProps ps
end

variable {Γ : Context}

/-- every argument is checked if there are as many as parameters -/
theorem declares_checkArgs {as : List Term} (has : ∀ a ∈ as, (a.check Γ).Declares a.declared)
    {ps : Row} (hlen : ps.length = as.length) : (checkArgs as ps Γ).Declares (declaredArgs as) := by
  induction as generalizing ps with
  | nil => exact .pure _
  | cons a as ih =>
    cases ps with
    | nil => exact absurd hlen (Nat.succ_ne_zero _).symm
    | cons p ps =>
      obtain ⟨x, expected⟩ := p
      obtain ⟨ha, has⟩ := List.forall_mem_cons.mp has
      show (a.check Γ >>= _).Declares _
      refine ha.bind fun t => .test (Comparison.declares_holds t expected) ?_ (.fail _)
      exact ih has (Nat.succ.inj hlen)

theorem declares_checkProps {ps : List (Name × Term)}
    (hps : ∀ p ∈ ps, (p.2.check Γ).Declares p.2.declared) :
    (checkProps ps Γ).Declares (declaredProps ps) := by
  induction ps with
  | nil => exact .pure _
  | cons p ps ih =>
    obtain ⟨x, a⟩ := p
    obtain ⟨ha, hps⟩ := List.forall_mem_cons.mp hps
    show (a.check Γ >>= _).Declares _
    refine ha.bind fun t => ?_
    exact (ih hps).quiet fun _ => .pure _

theorem declares_check (m : Term) (Γ : Context) : (m.check Γ).Declares m.declared := by
  induction m generalizing Γ with
  | bool b => exact .pure _
  | number n => exact .pure _
  | ite c a b hc ha hb =>
    show (c.check Γ >>= _).Declares _
    refine (hc Γ).bind fun s => s.declares_normalize.bind fun h => ?_
    split
    · refine (ha Γ).bind fun t => (hb Γ).quiet fun u => ?_
      exact .test (Comparison.declares_holds t u) (.pure _) (.fail _)
    · exact .fail _
  | add l r hl hr =>
    show (l.check Γ >>= _).Declares _
    refine (hl Γ).bind fun s => s.declares_normalize.bind fun t => ?_
    refine (hr Γ).quiet fun v => v.declares_normalize.bind fun u => ?_
    split
    · exact .pure _
    · exact .fail _
  | var x =>
    rw [check]
    split
    · exact .pure _
    · exact .fail _
  | func ps b hb =>
    show (b.check (Γ.extend ps) >>= _).Declares _
    exact (hb _).quiet fun _ => .pure _
  | call f as hf has =>
    show (f.check Γ >>= _).Declares _
    refine (hf Γ).bind fun s => s.declares_normalize.bind fun h => ?_
    split
    · split
      · next hlen =>
        exact (declares_checkArgs (fun a ha => has a ha Γ) hlen).quiet fun _ => .pure _
      · exact .fail _
    · exact .fail _
  | seq a r ha hr =>
    show (a.check Γ >>= _).Declares _
    exact (ha Γ).bind fun _ => hr Γ
  | const x a r ha hr =>
    show (a.check Γ >>= _).Declares _
    exact (ha Γ).bind fun _ => hr _
  | object ps hps =>
    show (checkProps ps Γ >>= _).Declares _
    exact (declares_checkProps fun p hp => hps p hp Γ).quiet fun _ => .pure _
  | get o x ho =>
    show (o.check Γ >>= _).Declares _
    refine (ho Γ).quiet fun s => s.declares_normalize.bind fun h => ?_
    split
    · split
      · exact .pure _
      · exact .fail _
    · exact .fail _
  | recFunc f ps t b r hb hr =>
    show (b.check (Γ.extend ((f, .func ps t) :: ps)) >>= _).Declares _
    refine (hb _).bind fun u => .test (Comparison.declares_holds u t) ?_ (.fail _)
    exact (Run.Declares.log [.declared f (.func ps t)]).bind fun _ => hr _

/-- the events of a check that declare functions are those of the recursive functions of its term,
each once and in order, if the term has a type; if the check fails they are the first of them -/
theorem check_declares_once (m : Term) (Γ : Context) :
    (m.check Γ).declared <+: m.declared ∧
      ∀ t, (m.check Γ).outcome = .ok t → (m.check Γ).declared = m.declared :=
  ⟨(declares_check m Γ).first, (declares_check m Γ).all⟩

/-- functions declared in a body, in an argument, in a property, in a part that is dropped, and in
the rest of each other -/
theorem check_declares_nested :
    let own (f : Name) (b r : Term) : Term := recFunc f [("x", .boolean)] .boolean b r
    let m := own "a" (own "b" (var "x") (var "x"))
      (seq (object [("p", own "c" (var "x") (var "c"))])
        (call (own "d" (var "x") (var "d")) [own "e" (var "x") (bool true)]))
    (m.check .empty).outcome = .ok .boolean ∧
      (m.check .empty).declared.map Prod.fst = ["b", "a", "c", "d", "e"] := by
  intro own m
  have hrun : (m.check .empty).outcome = .ok .boolean := by decide
  refine ⟨hrun, ?_⟩
  rw [(check_declares_once m .empty).2 _ hrun]
  rfl

end Term

end Equirec
