import HomeChain.Event
import HomeChain.Fault

/-!
# Traced computations

A traced computation reports events, in order, and ends with a result or a fault. The events
up to a fault are kept. What a computation results in does not depend on the events, and
`outcome_bind` says so: outcomes compose as if there were no events.
-/

namespace HomeChain

/-- The events of a computation, and what came of it. -/
structure Traced (α : Type) where
  /-- What was reported, oldest first. -/
  events : Array Event
  /-- The result, or the fault that ended the computation. -/
  outcome : Except Fault α

namespace Traced

variable {α β : Type}

/-- A result without events. -/
@[inline] def pure (a : α) : Traced α := ⟨#[], .ok a⟩

/-- One computation after another. -/
@[inline] def bind (x : Traced α) (f : α → Traced β) : Traced β :=
  match x with
  | ⟨events, .ok a⟩ =>
    match f a with
    | ⟨later, outcome⟩ => ⟨events ++ later, outcome⟩
  | ⟨events, .error fault⟩ => ⟨events, .error fault⟩

instance : Monad Traced where
  pure := pure
  bind := bind

/-- A computation that reports nothing. -/
@[inline] def lift (x : Except Fault α) : Traced α := ⟨#[], x⟩

instance : MonadLift (Except Fault) Traced where
  monadLift := lift

/-- Reports one event. -/
@[inline] def emit (e : Event) : Traced Unit := ⟨#[e], .ok ()⟩

/-- Ends with a fault. -/
@[inline] def fail (fault : Fault) : Traced α := ⟨#[], .error fault⟩

/-! ## Repetition -/

/-- Takes a step up to `n` times, or until one says that it was the last. What is reported
comes behind `events`. -/
def repeatFrom (step : α → Traced (ForInStep α)) :
    (n : Nat) → (events : Array Event) → α → Traced α
  | 0, events, a => ⟨events, .ok a⟩
  | n + 1, events, a =>
    match step a with
    | ⟨later, .ok (.yield a)⟩ => repeatFrom step n (events ++ later) a
    | ⟨later, .ok (.done a)⟩ => ⟨events ++ later, .ok a⟩
    | ⟨later, .error fault⟩ => ⟨events ++ later, .error fault⟩

/-- Takes a step up to `n` times, or until one says that it was the last. However large `n`
is, no more steps are taken than that. -/
@[inline] def repeatUpTo (n : Nat) (step : α → Traced (ForInStep α)) (a : α) : Traced α :=
  repeatFrom step n #[] a

/-! ## Outcomes -/

@[simp] theorem outcome_pure (a : α) : (Pure.pure a : Traced α).outcome = .ok a := rfl

@[simp] theorem outcome_bind (x : Traced α) (f : α → Traced β) :
    (x >>= f).outcome = x.outcome >>= fun a => (f a).outcome := by
  obtain ⟨events, _ | a⟩ := x <;> rfl

@[simp] theorem outcome_lift (x : Except Fault α) : (liftM x : Traced α).outcome = x := rfl

@[simp] theorem outcome_emit (e : Event) : (emit e).outcome = .ok () := rfl

@[simp] theorem outcome_fail (fault : Fault) : (fail fault : Traced α).outcome = .error fault :=
  rfl

theorem outcome_repeatFrom (step : α → Traced (ForInStep α)) (n : Nat) (events : Array Event)
    (a : α) : (repeatFrom step n events a).outcome = (repeatUpTo n step a).outcome := by
  induction n generalizing events a with
  | zero => rfl
  | succ n ih =>
    rw [repeatUpTo, repeatFrom, repeatFrom]
    split
    · rw [ih, ih]
    · rfl
    · rfl

@[simp] theorem outcome_repeatUpTo_zero (step : α → Traced (ForInStep α)) (a : α) :
    (repeatUpTo 0 step a).outcome = .ok a := rfl

theorem outcome_repeatUpTo_succ (step : α → Traced (ForInStep α)) (n : Nat) (a : α) :
    (repeatUpTo (n + 1) step a).outcome = (step a).outcome >>= fun
      | .yield a => (repeatUpTo n step a).outcome
      | .done a => .ok a := by
  rw [repeatUpTo, repeatFrom]
  split <;> rename_i h <;> rw [h]
  · exact outcome_repeatFrom step n _ _
  · rfl
  · rfl

end Traced

end HomeChain
