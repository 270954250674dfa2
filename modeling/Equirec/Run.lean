import Equirec.TypeError
import Equirec.Event

/-!
# Runs

A run ends in a value, in a type error, or without an answer because its budget of nested steps is
used up; on its way it leaves events.

* `Outcome`  the three endings
* `Run`      an outcome and the events before it, in order; a monad: the first ending other than a
             value is the ending of the whole
* `Run.outcome_bind`, `Run.events_bind`  both views of a sequence of runs
-/

namespace Equirec

inductive Outcome (α : Type) where
  | ok (value : α)
  | error (cause : TypeError)
  | exhausted
  deriving DecidableEq

namespace Outcome

def bind {α β : Type} : Outcome α → (α → Outcome β) → Outcome β
  | ok a, f => f a
  | error e, _ => error e
  | exhausted, _ => exhausted

@[simp] theorem ok_bind {α β : Type} (a : α) (f : α → Outcome β) : (ok a).bind f = f a := rfl
@[simp] theorem error_bind {α β : Type} (e : TypeError) (f : α → Outcome β) :
    (error e).bind f = error e := rfl
@[simp] theorem exhausted_bind {α β : Type} (f : α → Outcome β) :
    (exhausted : Outcome α).bind f = exhausted := rfl

end Outcome

structure Run (α : Type) where
  outcome : Outcome α
  events : List Event
  deriving DecidableEq

namespace Run

variable {α β : Type}

instance : Monad Run where
  pure a := ⟨.ok a, []⟩
  bind r f :=
    match r.outcome with
    | .ok a =>
      let next := f a
      ⟨next.outcome, r.events ++ next.events⟩
    | .error e => ⟨.error e, r.events⟩
    | .exhausted => ⟨.exhausted, r.events⟩

def fail (e : TypeError) : Run α := ⟨.error e, []⟩

/-- a run whose budget is used up -/
def giveUp : Run α := ⟨.exhausted, []⟩

def log (events : List Event) : Run Unit := ⟨.ok (), events⟩

/-! ## views -/

@[simp] theorem outcome_pure (a : α) : (pure a : Run α).outcome = .ok a := rfl
@[simp] theorem outcome_fail (e : TypeError) : (fail e : Run α).outcome = .error e := rfl
@[simp] theorem outcome_giveUp : (giveUp : Run α).outcome = .exhausted := rfl
@[simp] theorem outcome_log (es : List Event) : (log es).outcome = .ok () := rfl

@[simp] theorem outcome_bind (r : Run α) (f : α → Run β) :
    (r >>= f).outcome = r.outcome.bind fun a => (f a).outcome := by
  obtain ⟨o, es⟩ := r
  cases o <;> rfl

@[simp] theorem outcome_map (f : α → β) (r : Run α) :
    (f <$> r).outcome = r.outcome.bind fun a => .ok (f a) := by
  obtain ⟨o, es⟩ := r
  cases o <;> rfl

theorem events_bind (r : Run α) (f : α → Run β) :
    (r >>= f).events =
      r.events ++ match r.outcome with
        | .ok a => (f a).events
        | _ => [] := by
  obtain ⟨o, es⟩ := r
  cases o <;> simp [bind]

instance : LawfulMonad Run :=
  LawfulMonad.mk' Run
    (fun r => by obtain ⟨o, es⟩ := r; cases o <;> simp [Functor.map])
    (fun a f => by simp [bind, pure])
    (fun r f g => by
      obtain ⟨o, es⟩ := r
      cases o with
      | ok a =>
        simp only [bind]
        cases (f a).outcome <;> simp
      | error e => rfl
      | exhausted => rfl)

end Run

end Equirec
