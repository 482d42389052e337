-- semaphore.ts: the counting semaphore that bounds the jobs of one process.
-- A waiter stands for the callbacks of one pending acquire.
import Mathlib.Data.List.Basic
import Mathlib.Data.Int.Notation
import Mathlib.Tactic.TypeStar

namespace Panqueue

structure Semaphore (ω : Type) where
  max : ℕ
  current : ℤ := 0
  waiters : List ω := []
  deriving DecidableEq

/-- What an acquire call gave its caller: a settled promise, or a place in the queue. -/
inductive Acquire
  | rejected
  | granted
  | waiting
  deriving DecidableEq

namespace Semaphore

variable {ω : Type}

/-- The constructor. -/
def new (max : ℕ) : Except String (Semaphore ω) :=
  if max < 1 then .error "Semaphore max must be >= 1" else .ok { max }

/-- Number of permits currently available. -/
def available (s : Semaphore ω) : ℤ := s.max - s.current

/-- `acquire`, with a signal that is aborted or not. -/
def acquire (s : Semaphore ω) (aborted : Bool) (w : ω) : Acquire × Semaphore ω :=
  if aborted then (.rejected, s)
  else if s.current < s.max then (.granted, { s with current := s.current + 1 })
  else (.waiting, { s with waiters := s.waiters ++ [w] })

/-- The abort listener of a waiter: true when it still waited and is rejected now. -/
def abort [DecidableEq ω] (s : Semaphore ω) (w : ω) : Bool × Semaphore ω :=
  if w ∈ s.waiters then (true, { s with waiters := s.waiters.erase w }) else (false, s)

/-- Try to acquire a permit without waiting. -/
def tryAcquire (s : Semaphore ω) : Bool × Semaphore ω :=
  if s.current < s.max then (true, { s with current := s.current + 1 }) else (false, s)

/-- Release a permit: the next waiter gets it, or it is free again. -/
def release (s : Semaphore ω) : Option ω × Semaphore ω :=
  match s.waiters with
  | w :: ws => (some w, { s with waiters := ws })
  | [] => (none, { s with current := s.current - 1 })

variable {s : Semaphore ω} {w : ω}

theorem acquire_aborted : s.acquire true w = (.rejected, s) := rfl

theorem acquire_free (h : s.current < s.max) :
    s.acquire false w = (.granted, { s with current := s.current + 1 }) := if_pos h

theorem acquire_full (h : ¬ s.current < s.max) :
    s.acquire false w = (.waiting, { s with waiters := s.waiters ++ [w] }) := if_neg h

theorem tryAcquire_free (h : s.current < s.max) :
    s.tryAcquire = (true, { s with current := s.current + 1 }) := if_pos h

theorem tryAcquire_full (h : ¬ s.current < s.max) : s.tryAcquire = (false, s) := if_neg h

theorem release_nil (h : s.waiters = []) :
    s.release = (none, { s with current := s.current - 1 }) := by
  rw [release, h]

theorem release_cons {ws : List ω} (h : s.waiters = w :: ws) :
    s.release = (some w, { s with waiters := ws }) := by
  rw [release, h]

end Semaphore

end Panqueue
