import Equirec.Run

/-!
# Sequences of runs

* `Run.bind_mono`    a sequence that is finished stays as it is with larger budgets
* `Run.exists_of_bind_ok`
                     a value of a sequence comes from a value of its first run
* `Run.outcome_bind_congr`
                     a sequence ends as its runs do, whatever events they leave
* `Run.Agrees`       a run returns the values and the errors that are wanted, and no others
* `Run.Agrees.bind`, `Run.Agrees.ite`, `Run.Agrees.test`
                     runs one after the other, and runs that depend on a question
* `Run.Confined`     a run returns no values and no errors but those of some kind
* `Run.Confined.bind`, `Run.Confined.test`
                     as for `Run.Agrees`
* `Run.Matches`      two runs end in the same way, with related values or errors
* `Run.Matches.bind`, `Run.Matches.ite`, `Run.Matches.test`
                     as for `Run.Agrees`, one and the same way on both sides
* `Run.Matches.outcome_eq`
                     runs with the same values and the same errors have the same outcome
-/

namespace Equirec

/-- both are values or both are errors, and related; `E` is what has to be the case for both to have
no answer -/
inductive Outcome.Matches {α β : Type} (S : α → β → Prop) (F : TypeError → TypeError → Prop)
    (E : Prop) : Outcome α → Outcome β → Prop
  | ok {a : α} {b : β} (h : S a b) : Matches S F E (.ok a) (.ok b)
  | error {e e' : TypeError} (h : F e e') : Matches S F E (.error e) (.error e')
  | exhausted (h : E) : Matches S F E .exhausted .exhausted

namespace Run

variable {α β : Type}

/-! ## larger budgets -/

/-- a sequence of runs that is finished stays as it is if each of them does -/
theorem bind_mono {r r' : Run α} {f f' : α → Run β}
    (hr : r.outcome ≠ .exhausted → r' = r)
    (hf : ∀ a, (f a).outcome ≠ .exhausted → f' a = f a)
    (h : (r >>= f).outcome ≠ .exhausted) : (r' >>= f') = (r >>= f) := by
  rw [outcome_bind] at h
  have hne : r.outcome ≠ .exhausted := fun ho => h (by rw [ho, Outcome.exhausted_bind])
  rw [hr hne]
  obtain ⟨o, es⟩ := r
  cases o with
  | ok a =>
    show (⟨(f' a).outcome, es ++ (f' a).events⟩ : Run β) = ⟨(f a).outcome, es ++ (f a).events⟩
    rw [hf a h]
  | _ => rfl

/-! ## values of sequences -/

/-- a sequence with a value has a value at each of its runs -/
theorem exists_of_bind_ok {r : Run α} {f : α → Run β} {b : β} (h : (r >>= f).outcome = .ok b) :
    ∃ a, r.outcome = .ok a ∧ (f a).outcome = .ok b := by
  rw [outcome_bind] at h
  cases ho : r.outcome with
  | ok a => exact ⟨a, rfl, by rwa [ho] at h⟩
  | error e => exact absurd h (by simp [ho])
  | exhausted => exact absurd h (by simp [ho])

/-- a sequence of runs has the outcome of another one if each of its runs does -/
theorem outcome_bind_congr {r r' : Run α} {f f' : α → Run β} (hr : r.outcome = r'.outcome)
    (hf : ∀ a, r.outcome = .ok a → (f a).outcome = (f' a).outcome) :
    (r >>= f).outcome = (r' >>= f').outcome := by
  rw [outcome_bind, outcome_bind, ← hr]
  cases ho : r.outcome with
  | ok a => exact hf a ho
  | error e => rfl
  | exhausted => rfl

/-! ## values and errors -/

/-- the run ends, in a value if and only if it is wanted, or in an error if and only if it is -/
structure Agrees (r : Run α) (P : α → Prop) (F : TypeError → Prop) : Prop where
  ok : ∀ a, r.outcome = .ok a ↔ P a
  error : ∀ e, r.outcome = .error e ↔ F e
  ends : r.outcome ≠ .exhausted

namespace Agrees

theorem congr {r : Run α} {P P' : α → Prop} {F F' : TypeError → Prop} (h : r.Agrees P F)
    (hP : ∀ a, P a ↔ P' a) (hF : ∀ e, F e ↔ F' e) : r.Agrees P' F' :=
  ⟨fun a => (h.ok a).trans (hP a), fun e => (h.error e).trans (hF e), h.ends⟩

theorem pure (a : α) : (Pure.pure a : Run α).Agrees (fun b => a = b) fun _ => False :=
  ⟨fun b => by simp, fun e => by simp, by simp⟩

theorem fail (e : TypeError) : (Run.fail e : Run α).Agrees (fun _ => False) fun e' => e = e' :=
  ⟨fun b => by simp, fun e => by simp, by simp⟩

/-- the values are those of the second run after a value of the first, the errors those of the
first run, and those of the second after a value of the first -/
theorem bind {r : Run α} {f : α → Run β} {P : α → Prop} {F : TypeError → Prop}
    {Q : α → β → Prop} {G : α → TypeError → Prop} (hr : r.Agrees P F)
    (hf : ∀ a, P a → (f a).Agrees (Q a) (G a)) :
    (r >>= f).Agrees (fun b => ∃ a, P a ∧ Q a b) fun e => F e ∨ ∃ a, P a ∧ G a e := by
  cases ho : r.outcome with
  | ok a =>
    have hP : ∀ b, P b ↔ a = b := fun b => by rw [← hr.ok, ho, Outcome.ok.injEq]
    have hF : ∀ e, ¬ F e := fun e he => by simpa [ho] using (hr.error e).mpr he
    have ha := hf a ((hP a).mpr rfl)
    refine ⟨fun b => ?_, fun e => ?_, ?_⟩
    · simp only [outcome_bind, ho, Outcome.ok_bind, hP, exists_eq_left', ha.ok]
    · simp only [outcome_bind, ho, Outcome.ok_bind, hP, exists_eq_left', hF, false_or, ha.error]
    · rw [outcome_bind, ho]
      exact ha.ends
  | error e =>
    have hP : ∀ b, ¬ P b := fun b hb => by simpa [ho] using (hr.ok b).mpr hb
    have hF : ∀ e', F e' ↔ e = e' := fun e' => by rw [← hr.error, ho, Outcome.error.injEq]
    refine ⟨fun b => ?_, fun e' => ?_, ?_⟩
    · simp [ho, hP]
    · simp [ho, hP, hF]
    · simp [ho]
  | exhausted => exact absurd ho hr.ends

/-- events before a run do not count -/
theorem log {es : List Event} {r : Run α} {P : α → Prop} {F : TypeError → Prop}
    (hr : r.Agrees P F) : (Run.log es >>= fun _ => r).Agrees P F := by
  have hout : (Run.log es >>= fun _ => r).outcome = r.outcome := by
    rw [outcome_bind, outcome_log, Outcome.ok_bind]
  exact ⟨fun a => hout ▸ hr.ok a, fun e => hout ▸ hr.error e, hout ▸ hr.ends⟩

theorem ite {p : Prop} [Decidable p] {r s : Run α} {P P' : α → Prop} {F F' : TypeError → Prop}
    (hr : p → r.Agrees P F) (hs : ¬ p → s.Agrees P' F') :
    (if p then r else s).Agrees (fun a => p ∧ P a ∨ ¬ p ∧ P' a) fun e => p ∧ F e ∨ ¬ p ∧ F' e := by
  by_cases h : p
  · rw [if_pos h]
    exact (hr h).congr (fun a => by simp [h]) fun e => by simp [h]
  · rw [if_neg h]
    exact (hs h).congr (fun a => by simp [h]) fun e => by simp [h]

/-- what is done after a question depends on whether it holds -/
theorem test {q : Run Bool} {R : Prop} (hq : ∃ b, q.outcome = .ok b ∧ (b = true ↔ R))
    {r s : Run α} {P P' : α → Prop} {F F' : TypeError → Prop} (hr : R → r.Agrees P F)
    (hs : ¬ R → s.Agrees P' F') :
    (q >>= fun b => if b then r else s).Agrees (fun a => R ∧ P a ∨ ¬ R ∧ P' a)
      fun e => R ∧ F e ∨ ¬ R ∧ F' e := by
  obtain ⟨b, hb, hR⟩ := hq
  have hout : (q >>= fun b => if b then r else s).outcome = (if b then r else s).outcome := by
    rw [outcome_bind, hb, Outcome.ok_bind]
  have hcases : (if b then r else s).Agrees (fun a => R ∧ P a ∨ ¬ R ∧ P' a)
      fun e => R ∧ F e ∨ ¬ R ∧ F' e :=
    (ite (p := b = true) (fun h => hr (hR.mp h)) fun h => hs fun hR' => h (hR.mpr hR')).congr
      (fun a => by rw [hR]) fun e => by rw [hR]
  exact ⟨fun a => hout ▸ hcases.ok a, fun e => hout ▸ hcases.error e, hout ▸ hcases.ends⟩

end Agrees

/-! ## kinds of values and errors -/

theorem ok_or_error {r : Run α} (h : r.outcome ≠ .exhausted) :
    (∃ a, r.outcome = .ok a) ∨ ∃ e, r.outcome = .error e := by
  cases ho : r.outcome with
  | ok a => exact .inl ⟨a, rfl⟩
  | error e => exact .inr ⟨e, rfl⟩
  | exhausted => exact absurd ho h

/-- the values of a run are of one kind and its errors of another; `E` is what has to be the case
for its budget to be used up -/
structure Confined (r : Run α) (P : α → Prop) (F : TypeError → Prop) (E : Prop) : Prop where
  ok : ∀ a, r.outcome = .ok a → P a
  error : ∀ e, r.outcome = .error e → F e
  exhausted : r.outcome = .exhausted → E

namespace Confined

variable {F : TypeError → Prop} {E : Prop}

theorem pure {a : α} {P : α → Prop} (h : P a) : (Pure.pure a : Run α).Confined P F E :=
  ⟨fun _ ha => Outcome.ok.inj ha ▸ h, by simp, by simp⟩

theorem fail {e : TypeError} {P : α → Prop} (h : F e) : (Run.fail e : Run α).Confined P F E :=
  ⟨by simp, fun _ he => Outcome.error.inj he ▸ h, by simp⟩

theorem giveUp {P : α → Prop} (h : E) : (Run.giveUp : Run α).Confined P F E :=
  ⟨by simp, by simp, fun _ => h⟩

theorem log (es : List Event) : (Run.log es).Confined (fun _ => True) F E :=
  ⟨fun _ _ => trivial, by simp, by simp⟩

theorem of_outcome_eq {r r' : Run α} {P : α → Prop} (h : r.Confined P F E)
    (ho : r'.outcome = r.outcome) : r'.Confined P F E :=
  ⟨fun a ha => h.ok a (ho ▸ ha), fun e he => h.error e (ho ▸ he), fun he => h.exhausted (ho ▸ he)⟩

theorem bind {r : Run α} {f : α → Run β} {P : α → Prop} {Q : β → Prop} (hr : r.Confined P F E)
    (hf : ∀ a, P a → (f a).Confined Q F E) : (r >>= f).Confined Q F E := by
  cases ho : r.outcome with
  | ok a =>
    refine (hf a (hr.ok a ho)).of_outcome_eq ?_
    rw [outcome_bind, ho, Outcome.ok_bind]
  | error e =>
    refine (fail (hr.error e ho)).of_outcome_eq ?_
    rw [outcome_bind, ho, Outcome.error_bind, outcome_fail]
  | exhausted =>
    refine (giveUp (hr.exhausted ho)).of_outcome_eq ?_
    rw [outcome_bind, ho, Outcome.exhausted_bind, outcome_giveUp]

/-- what is done after a question, whatever its answer -/
theorem test {q : Run Bool} {r s : Run α} {P : α → Prop} (hq : q.Confined (fun _ => True) F E)
    (hr : r.Confined P F E) (hs : s.Confined P F E) :
    (q >>= fun b => if b then r else s).Confined P F E := by
  refine hq.bind fun b _ => ?_
  cases b with
  | true => exact hr
  | false => exact hs

end Confined

/-! ## two runs -/

/-- the runs end in the same way -/
def Matches {α' : Type} (r : Run α) (S : α → α' → Prop) (F : TypeError → TypeError → Prop)
    (E : Prop) (r' : Run α') : Prop :=
  r.outcome.Matches S F E r'.outcome

namespace Matches

variable {α' β' : Type} {F : TypeError → TypeError → Prop} {E : Prop}

theorem pure {a : α} {a' : α'} {S : α → α' → Prop} (h : S a a') :
    (Pure.pure a : Run α).Matches S F E (Pure.pure a') :=
  .ok h

theorem fail {e e' : TypeError} {S : α → α' → Prop} (h : F e e') :
    (Run.fail e : Run α).Matches S F E (Run.fail e') :=
  .error h

theorem log (es es' : List Event) :
    (Run.log es).Matches (fun _ _ => True) F E (Run.log es') :=
  .ok trivial

theorem bind {r : Run α} {r' : Run α'} {f : α → Run β} {f' : α' → Run β'} {S : α → α' → Prop}
    {T : β → β' → Prop} (hr : r.Matches S F E r')
    (hf : ∀ a a', S a a' → (f a).Matches T F E (f' a')) :
    (r >>= f).Matches T F E (r' >>= f') := by
  rw [Matches, outcome_bind, outcome_bind]
  rw [Matches] at hr
  generalize r.outcome = o at hr
  generalize r'.outcome = o' at hr
  cases hr with
  | ok h => exact hf _ _ h
  | error h => exact .error h
  | exhausted h => exact .exhausted h

theorem ite {p p' : Prop} [Decidable p] [Decidable p'] {r s : Run α} {r' s' : Run α'}
    {S : α → α' → Prop} (hp : p ↔ p') (hr : p → r.Matches S F E r')
    (hs : ¬ p → s.Matches S F E s') :
    (if p then r else s).Matches S F E (if p' then r' else s') := by
  by_cases h : p
  · rw [if_pos h, if_pos (hp.mp h)]
    exact hr h
  · rw [if_neg h, if_neg fun h' => h (hp.mpr h')]
    exact hs h

/-- what is done after questions with the same answer -/
theorem test {q q' : Run Bool} {r s : Run α} {r' s' : Run α'} {S : α → α' → Prop}
    (hq : q.Matches (fun b b' => b = b') F E q') (hr : r.Matches S F E r')
    (hs : s.Matches S F E s') :
    (q >>= fun b => if b then r else s).Matches S F E (q' >>= fun b => if b then r' else s') := by
  refine hq.bind fun b b' h => ?_
  subst h
  exact .ite Iff.rfl (fun _ => hr) fun _ => hs

theorem of_outcome_eq {r r' : Run α} (h : r.outcome = r'.outcome) : r.Matches Eq Eq True r' := by
  rw [Matches, ← h]
  cases r.outcome with
  | ok a => exact .ok rfl
  | error e => exact .error rfl
  | exhausted => exact .exhausted trivial

theorem outcome_eq {r r' : Run α} (h : r.Matches Eq Eq E r') : r.outcome = r'.outcome := by
  rw [Matches] at h
  generalize r.outcome = o at h
  generalize r'.outcome = o' at h
  cases h with
  | ok h => exact congrArg Outcome.ok h
  | error h => exact congrArg Outcome.error h
  | exhausted _ => rfl

/-- both runs end in values, or both in errors, or `E` is the case and neither has an answer -/
theorem endings {r : Run α} {r' : Run α'} {S : α → α' → Prop} (h : r.Matches S F E r') :
    (∃ a a', r.outcome = .ok a ∧ r'.outcome = .ok a' ∧ S a a') ∨
      (∃ e e', r.outcome = .error e ∧ r'.outcome = .error e' ∧ F e e') ∨
      r.outcome = .exhausted ∧ r'.outcome = .exhausted ∧ E := by
  rw [Matches] at h
  generalize r.outcome = o at h ⊢
  generalize r'.outcome = o' at h ⊢
  cases h with
  | ok h => exact .inl ⟨_, _, rfl, rfl, h⟩
  | error h => exact .inr (.inl ⟨_, _, rfl, rfl, h⟩)
  | exhausted h => exact .inr (.inr ⟨rfl, rfl, h⟩)

/-- two runs that end, both in values or both in errors -/
theorem ok_or_error {r : Run α} {r' : Run α'} {S : α → α' → Prop} (h : r.Matches S F False r') :
    (∃ a a', r.outcome = .ok a ∧ r'.outcome = .ok a' ∧ S a a') ∨
      ∃ e e', r.outcome = .error e ∧ r'.outcome = .error e' ∧ F e e' :=
  h.endings.imp_right fun h => h.resolve_right fun h => h.2.2

end Matches

end Run

end Equirec
