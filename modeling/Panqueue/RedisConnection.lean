-- The connection of a producer, redis-connection.ts: any number of connect and
-- disconnect calls, which run on between the awaits in any order.
import Mathlib.Data.Nat.Notation
import Mathlib.Logic.Function.Basic
import Mathlib.Logic.Relation

namespace Panqueue

/-! ## The connection -/

/-- A raw client of the redis library. -/
inductive RawClient
  | connecting
  | connected
  | failed
  | disconnecting
  | disconnected
  deriving DecidableEq

/-- How a promise settled: it resolved, or with which error it rejected. -/
inductive ConnectOutcome
  | resolved
  | clientConnectionError
  | clientClosedError
  deriving DecidableEq

/-- Where a run of `#doConnect` stands. -/
inductive DoConnect
  | awaitsConnect
  | awaitsDisconnect
  | settled (r : ConnectOutcome)
  deriving DecidableEq

/-- A run of `#doConnect` and the raw client that it opened. `disconnects` counts
the disconnect calls on the raw client. `owned` holds until the `finally` of the
connect call that started the run. -/
structure Attempt where
  raw : RawClient := .connecting
  disconnects : ℕ := 0
  phase : DoConnect := .awaitsConnect
  owned : Bool := true
  deriving DecidableEq

/-- A call of connect that started the attempt `k`, one that returned its
promise, a call of disconnect that awaits the raw client of `k`, or a settled
call, with the attempt that it awaited. -/
inductive ConnectionCall
  | connecting (k : ℕ)
  | following (k : ℕ)
  | disconnecting (k : ℕ)
  | settled (k : Option ℕ) (r : ConnectOutcome)
  deriving DecidableEq

/-- The raw client of an attempt against where the attempt stands. `held` says
that it is the client of the connection. -/
def Attempt.Fits (a : Attempt) (closed held : Prop) : Prop :=
  match a.phase with
  | .awaitsConnect =>
    a.owned = true ∧ a.disconnects = 0 ∧
      (a.raw = .connecting ∨ a.raw = .connected ∨ a.raw = .failed)
  | .awaitsDisconnect =>
    a.owned = true ∧ closed ∧ a.disconnects = 1 ∧
      (a.raw = .disconnecting ∨ a.raw = .disconnected)
  | .settled .clientConnectionError => a.raw = .failed ∧ a.disconnects = 0
  | .settled .clientClosedError => closed ∧ a.raw = .disconnected ∧ a.disconnects = 1
  | .settled .resolved =>
    held ∧ a.raw = .connected ∧ a.disconnects = 0 ∨
      closed ∧ a.disconnects = 1 ∧ (a.raw = .disconnecting ∨ a.raw = .disconnected)

/-- The connection closed, or it got the client. -/
theorem Attempt.Fits.mono {a : Attempt} {closed closed' held held' : Prop}
    (h : a.Fits closed held) (hclosed : closed → closed') (hheld : held → held') :
    a.Fits closed' held' := by
  unfold Attempt.Fits at h ⊢
  split at h
  · exact h
  · obtain ⟨ho, hc, hrest⟩ := h
    exact ⟨ho, hclosed hc, hrest⟩
  · exact h
  · obtain ⟨hc, hrest⟩ := h
    exact ⟨hclosed hc, hrest⟩
  · rcases h with ⟨hh, hrest⟩ | ⟨hc, hrest⟩
    · exact Or.inl ⟨hheld hh, hrest⟩
    · exact Or.inr ⟨hclosed hc, hrest⟩

theorem Attempt.Fits.through {a : Attempt} {closed held : Prop} {r : ConnectOutcome}
    (h : a.Fits closed held) (hphase : a.phase = .settled r) :
    { a with owned := false }.Fits closed held := by
  unfold Attempt.Fits at h ⊢
  cases r <;> simpa only [hphase] using h

/-- Only `client.connect()` in flight waits for a raw client that is connecting. -/
theorem Attempt.Fits.awaits {a : Attempt} {closed held : Prop} (h : a.Fits closed held)
    (hraw : a.raw = .connecting) : a.phase = .awaitsConnect := by
  unfold Attempt.Fits at h
  split at h
  · assumption
  · simp [hraw] at h
  · simp [hraw] at h
  · simp [hraw] at h
  · simp [hraw] at h

theorem Attempt.Fits.arrives {a : Attempt} {closed held : Prop} {raw : RawClient}
    (h : a.Fits closed held) (hraw : a.raw = .connecting)
    (hr : raw = .connected ∨ raw = .failed) : { a with raw }.Fits closed held := by
  have hphase := h.awaits hraw
  rw [Attempt.Fits, hphase] at h
  rw [Attempt.Fits, show _ = _ from hphase]
  exact ⟨h.1, h.2.1, Or.inr hr⟩

theorem Attempt.Fits.disconnected {a : Attempt} {closed held : Prop} (h : a.Fits closed held)
    (hraw : a.raw = .disconnecting) : { a with raw := .disconnected }.Fits closed held := by
  unfold Attempt.Fits at h ⊢
  split at h
  · simp [hraw] at h
  · simp_all
  · simp [hraw] at h
  · simp [hraw] at h
  · simp_all

/-- The attempts `0` to `opened - 1` have a raw client each, and the calls `0`
to `made - 1` were made. -/
structure RedisConnection where
  closed : Bool := false
  client : Option ℕ := none
  connectPromise : Option ℕ := none
  opened : ℕ := 0
  attempt : ℕ → Attempt := fun _ => {}
  made : ℕ := 0
  call : ℕ → ConnectionCall := fun _ => .settled none .resolved

namespace RedisConnection

def addCall (s : RedisConnection) (c : ConnectionCall) : RedisConnection :=
  { s with made := s.made + 1, call := Function.update s.call s.made c }

def setCall (s : RedisConnection) (i : ℕ) (c : ConnectionCall) : RedisConnection :=
  { s with call := Function.update s.call i c }

def setAttempt (s : RedisConnection) (k : ℕ) (a : Attempt) : RedisConnection :=
  { s with attempt := Function.update s.attempt k a }

/-- `#doConnect`, up to its first await, and the call of connect that started it. -/
def doConnect (s : RedisConnection) : RedisConnection :=
  { s.addCall (.connecting s.opened) with
    connectPromise := some s.opened
    opened := s.opened + 1
    attempt := Function.update s.attempt s.opened {} }

/-- `connect`, up to its first await. -/
def connect (s : RedisConnection) : RedisConnection :=
  if s.closed then s.addCall (.settled none .clientClosedError)
  else if s.client.isSome then s.addCall (.settled none .resolved)
  else
    match s.connectPromise with
    | some k => s.addCall (.following k)
    | none => s.doConnect

/-- `#doConnect` after `await client.connect()`. -/
def afterConnect (s : RedisConnection) (k : ℕ) : RedisConnection :=
  if (s.attempt k).raw = .failed then
    s.setAttempt k { s.attempt k with phase := .settled .clientConnectionError }
  else if s.closed then
    s.setAttempt k
      { s.attempt k with
        raw := .disconnecting
        disconnects := (s.attempt k).disconnects + 1
        phase := .awaitsDisconnect }
  else { s.setAttempt k { s.attempt k with phase := .settled .resolved } with client := some k }

/-- `disconnect`, up to its await. -/
def disconnect (s : RedisConnection) : RedisConnection :=
  match s.client with
  | none => { s.addCall (.settled none .resolved) with closed := true }
  | some k =>
    { (s.addCall (.disconnecting k)).setAttempt k
        { s.attempt k with
          raw := .disconnecting
          disconnects := (s.attempt k).disconnects + 1 } with
      closed := true
      client := none }

/-- What the getter `client` throws. -/
inductive AccessError
  | clientClosedError
  | panqueueError (message : String)
  deriving DecidableEq

/-- The getter `client`. -/
def access (s : RedisConnection) : Except AccessError ℕ :=
  if s.closed then .error .clientClosedError
  else
    match s.client with
    | none => .error (.panqueueError "Redis client is not connected. Call connect() first.")
    | some k => .ok k

/-- The `finally` of the connect call `i`, which started the attempt `k`. -/
def afterOwned (s : RedisConnection) (i k : ℕ) (r : ConnectOutcome) : RedisConnection :=
  { (s.setCall i (.settled (some k) r)).setAttempt k { s.attempt k with owned := false } with
    connectPromise := none }

/-- One step: a call, an event of a raw client, or the rest of a function after
an await. A promise that was returned by several connect calls settles the call
that started it first: the reaction of that call was registered first. -/
inductive Step (s : RedisConnection) : RedisConnection → Prop
  | connect : Step s s.connect
  | disconnect : Step s s.disconnect
  | rawConnects (k : ℕ) (hk : k < s.opened) (hraw : (s.attempt k).raw = .connecting) :
    Step s (s.setAttempt k { s.attempt k with raw := .connected })
  | rawFails (k : ℕ) (hk : k < s.opened) (hraw : (s.attempt k).raw = .connecting) :
    Step s (s.setAttempt k { s.attempt k with raw := .failed })
  | rawDisconnects (k : ℕ) (hk : k < s.opened) (hraw : (s.attempt k).raw = .disconnecting) :
    Step s (s.setAttempt k { s.attempt k with raw := .disconnected })
  | connectEnds (k : ℕ) (hk : k < s.opened) (hphase : (s.attempt k).phase = .awaitsConnect)
      (hraw : (s.attempt k).raw ≠ .connecting) :
    Step s (s.afterConnect k)
  | disconnectEnds (k : ℕ) (hk : k < s.opened) (hphase : (s.attempt k).phase = .awaitsDisconnect)
      (hraw : (s.attempt k).raw = .disconnected) :
    Step s (s.setAttempt k { s.attempt k with phase := .settled .clientClosedError })
  | ownerSettles (i k : ℕ) (r : ConnectOutcome) (hi : i < s.made) (hcall : s.call i = .connecting k)
      (hphase : (s.attempt k).phase = .settled r) :
    Step s (s.afterOwned i k r)
  | followerSettles (i k : ℕ) (r : ConnectOutcome) (hi : i < s.made)
    (hcall : s.call i = .following k)
      (hphase : (s.attempt k).phase = .settled r) (howned : (s.attempt k).owned = false) :
    Step s (s.setCall i (.settled (some k) r))
  | disconnectSettles (i k : ℕ) (hi : i < s.made) (hcall : s.call i = .disconnecting k)
      (hraw : (s.attempt k).raw = .disconnected) :
    Step s (s.setCall i (.settled (some k) .resolved))

/-- A state of a run of the connection. -/
def Reachable (s : RedisConnection) : Prop := Relation.ReflTransGen Step {} s

/-! ## The invariant -/

structure Consistent (s : RedisConnection) : Prop where
  /-- The shared promise is that of the attempt whose call is not through. -/
  promise : ∀ k, s.connectPromise = some k ↔ k < s.opened ∧ (s.attempt k).owned = true
  client : ∀ k, s.client = some k →
    k < s.opened ∧ s.closed = false ∧ (s.attempt k).phase = .settled .resolved
  fits : ∀ k < s.opened, (s.attempt k).Fits (s.closed = true) (s.client = some k)
  /-- Only the last attempt can have done anything but fail. -/
  last : ∀ k, k + 1 < s.opened →
    (s.attempt k).phase = .settled .clientConnectionError ∧ (s.attempt k).owned = false
  owner : ∀ k < s.opened, (s.attempt k).owned = true → ∃ i < s.made, s.call i = .connecting k
  /-- A client that is being disconnected after its attempt has a call that awaits it. -/
  closing : ∀ k < s.opened, (s.attempt k).phase = .settled .resolved →
    (s.attempt k).raw = .disconnecting → ∃ i < s.made, s.call i = .disconnecting k
  failed : ∀ i < s.made, ∀ k, s.call i = .settled (some k) .clientConnectionError →
    k < s.opened ∧ (s.attempt k).phase = .settled .clientConnectionError ∧
      (s.attempt k).owned = false
  starts : ∀ i < s.made, ∀ k, s.call i = .connecting k → k < s.opened ∧
    (s.attempt k).owned = true ∧ ∀ j < s.made, s.call j = .connecting k → j = i
  follows : ∀ i < s.made, ∀ k, s.call i = .following k → k < s.opened

variable {s : RedisConnection} {i k : ℕ} {a : Attempt} {c : ConnectionCall} {r : ConnectOutcome}

theorem consistent_new : Consistent {} where
  promise k := by simp
  client k h := by cases h
  fits k hk := absurd hk (Nat.not_lt_zero k)
  last k hk := absurd hk (Nat.not_lt_zero _)
  owner k hk := absurd hk (Nat.not_lt_zero k)
  closing k hk := absurd hk (Nat.not_lt_zero k)
  failed i hi := absurd hi (Nat.not_lt_zero i)
  starts i hi := absurd hi (Nat.not_lt_zero i)
  follows i hi := absurd hi (Nat.not_lt_zero i)

/-! ### Updates -/

theorem attempt_setAttempt_self : (s.setAttempt k a).attempt k = a := Function.update_self _ _ _

theorem attempt_setAttempt_ne {k' : ℕ} (hne : k' ≠ k) :
    (s.setAttempt k a).attempt k' = s.attempt k' :=
  Function.update_of_ne hne _ _

theorem call_setCall_self : (s.setCall i c).call i = c := Function.update_self _ _ _

theorem call_setCall_ne {j : ℕ} (hne : j ≠ i) : (s.setCall i c).call j = s.call j :=
  Function.update_of_ne hne _ _

/-- A call that differs from the one that was set was there before. -/
theorem call_setCall_old {j : ℕ} {c' : ConnectionCall} (hcall : (s.setCall i c).call j = c')
    (hne : c' ≠ c) : j ≠ i ∧ s.call j = c' := by
  have hji : j ≠ i := by
    rintro rfl
    exact hne (hcall.symm.trans call_setCall_self)
  exact ⟨hji, (call_setCall_ne hji).symm.trans hcall⟩

theorem call_addCall_lt (hi : i < s.made) : (s.addCall c).call i = s.call i :=
  Function.update_of_ne (Nat.ne_of_lt hi) _ _

theorem call_addCall_self : (s.addCall c).call s.made = c := Function.update_self _ _ _

/-- The calls after a new one. -/
theorem call_addCall_cases (hi : i < (s.addCall c).made) :
    i < s.made ∧ (s.addCall c).call i = s.call i ∨ i = s.made ∧ (s.addCall c).call i = c := by
  rcases Nat.lt_or_eq_of_le (Nat.le_of_lt_succ hi) with hi | rfl
  · exact Or.inl ⟨hi, call_addCall_lt hi⟩
  · exact Or.inr ⟨rfl, call_addCall_self⟩

/-- A call that differs from the new one was there before. -/
theorem call_addCall_old {c' : ConnectionCall} (hi : i < (s.addCall c).made)
    (hcall : (s.addCall c).call i = c') (hne : c' ≠ c) : i < s.made ∧ s.call i = c' := by
  rcases call_addCall_cases hi with ⟨hi', he⟩ | ⟨-, he⟩
  · exact ⟨hi', he.symm.trans hcall⟩
  · exact absurd (hcall.symm.trans he) hne

/-- A new call that starts no attempt. -/
theorem Consistent.addCall (h : Consistent s) (hstarts : ∀ k, c ≠ .connecting k)
    (hfailed : ∀ k, c ≠ .settled (some k) .clientConnectionError)
    (hfollows : ∀ k, c = .following k → k < s.opened) : Consistent (s.addCall c) := by
  refine ⟨h.promise, h.client, h.fits, h.last, ?_, ?_, ?_, ?_, ?_⟩
  · intro k hk ho
    obtain ⟨i, hi, hcall⟩ := h.owner k hk ho
    exact ⟨i, Nat.lt_succ_of_lt hi, by rw [call_addCall_lt hi, hcall]⟩
  · intro k hk hp hr
    obtain ⟨i, hi, hcall⟩ := h.closing k hk hp hr
    exact ⟨i, Nat.lt_succ_of_lt hi, by rw [call_addCall_lt hi, hcall]⟩
  · intro i hi k hcall
    obtain ⟨hi', hold⟩ := call_addCall_old hi hcall (hfailed k).symm
    exact h.failed i hi' k hold
  · intro i hi k hcall
    obtain ⟨hi', hold⟩ := call_addCall_old hi hcall (hstarts k).symm
    obtain ⟨hk, ho, hunique⟩ := h.starts i hi' k hold
    refine ⟨hk, ho, fun j hj hcall' => ?_⟩
    obtain ⟨hj', hold'⟩ := call_addCall_old hj hcall' (hstarts k).symm
    exact hunique j hj' hold'
  · intro i hi k hcall
    rcases call_addCall_cases hi with ⟨hi', he⟩ | ⟨-, he⟩
    · exact h.follows i hi' k (by rw [← he, hcall])
    · exact hfollows k (he.symm.trans hcall)

/-- A call settles that did not start an attempt. -/
theorem Consistent.setCall (h : Consistent s) (hi : i < s.made)
    (hstarts : ∀ k, s.call i ≠ .connecting k)
    (hclosing : ∀ k, s.call i = .disconnecting k → (s.attempt k).raw ≠ .disconnecting)
    (hfailed : r = .clientConnectionError → k < s.opened ∧
      (s.attempt k).phase = .settled .clientConnectionError ∧ (s.attempt k).owned = false) :
    Consistent (s.setCall i (.settled (some k) r)) := by
  refine ⟨h.promise, h.client, h.fits, h.last, ?_, ?_, ?_, ?_, ?_⟩
  · intro k' hk' ho
    obtain ⟨j, hj, hcall⟩ := h.owner k' hk' ho
    have hne : j ≠ i := by
      rintro rfl
      exact hstarts k' hcall
    exact ⟨j, hj, by rw [call_setCall_ne hne, hcall]⟩
  · intro k' hk' hp hr
    obtain ⟨j, hj, hcall⟩ := h.closing k' hk' hp hr
    have hne : j ≠ i := by
      rintro rfl
      exact hclosing k' hcall hr
    exact ⟨j, hj, by rw [call_setCall_ne hne, hcall]⟩
  · intro j hj k' hcall
    by_cases he : j = i
    · subst he
      rw [call_setCall_self] at hcall
      cases hcall
      exact hfailed rfl
    · rw [call_setCall_ne he] at hcall
      exact h.failed j hj k' hcall
  · intro j hj k' hcall
    obtain ⟨-, hold⟩ := call_setCall_old hcall (by simp)
    obtain ⟨hk, ho, hunique⟩ := h.starts j hj k' hold
    refine ⟨hk, ho, fun j' hj' hcall' => ?_⟩
    obtain ⟨-, hold'⟩ := call_setCall_old hcall' (by simp)
    exact hunique j' hj' hold'
  · intro j hj k' hcall
    obtain ⟨-, hold⟩ := call_setCall_old hcall (by simp)
    exact h.follows j hj k' hold

/-- An attempt goes on, and the connection may get its client, lose it or close. -/
theorem Consistent.goesOn {closed : Bool} {client : Option ℕ} (h : Consistent s)
    (hk : k < s.opened) (howned : a.owned = (s.attempt k).owned)
    (hfits : a.Fits (closed = true) (client = some k))
    (hphase : a.phase = (s.attempt k).phase ∨
      (s.attempt k).phase = .awaitsConnect ∨ (s.attempt k).phase = .awaitsDisconnect)
    (hclosing : a.phase = .settled .resolved → a.raw = .disconnecting →
      ∃ i < s.made, s.call i = .disconnecting k)
    (hclosed : s.closed = true → closed = true)
    (hheld : ∀ k' ≠ k, s.client = some k' → client = some k')
    (hclient : ∀ k', client = some k' →
      closed = false ∧ (s.client = some k' ∨ k' = k ∧ a.phase = .settled .resolved)) :
    Consistent { s.setAttempt k a with closed, client } := by
  have howns : ∀ k', ((s.setAttempt k a).attempt k').owned = (s.attempt k').owned := by
    intro k'
    by_cases hk' : k' = k
    · subst hk'
      rw [attempt_setAttempt_self, howned]
    · rw [attempt_setAttempt_ne hk']
  have hsettled : ∀ k' r, (s.attempt k').phase = .settled r →
      ((s.setAttempt k a).attempt k').phase = .settled r := by
    intro k' r hr
    by_cases hk' : k' = k
    · subst hk'
      rw [attempt_setAttempt_self]
      rcases hphase with he | he | he
      · rw [he, hr]
      · rw [he] at hr
        cases hr
      · rw [he] at hr
        cases hr
    · rw [attempt_setAttempt_ne hk', hr]
  refine ⟨?_, ?_, ?_, ?_, ?_, ?_, ?_, ?_, h.follows⟩
  · intro k'
    show _ ↔ _ ∧ ((s.setAttempt k a).attempt k').owned = true
    rw [howns]
    exact h.promise k'
  · intro k' hk'
    obtain ⟨hopen, hold | ⟨rfl, hp⟩⟩ := hclient k' hk'
    · obtain ⟨hlt, -, hp⟩ := h.client k' hold
      exact ⟨hlt, hopen, hsettled k' _ hp⟩
    · exact ⟨hk, hopen, (congrArg Attempt.phase attempt_setAttempt_self).trans hp⟩
  · intro k' hk'
    show ((s.setAttempt k a).attempt k').Fits _ _
    by_cases he : k' = k
    · subst he
      rw [attempt_setAttempt_self]
      exact hfits
    · rw [attempt_setAttempt_ne he]
      exact (h.fits k' hk').mono hclosed (hheld k' he)
  · intro k' hk'
    obtain ⟨hp, ho⟩ := h.last k' hk'
    exact ⟨hsettled k' _ hp, (howns k').trans ho⟩
  · intro k' hk' ho
    exact h.owner k' hk' ((howns k').symm.trans ho)
  · intro k' hk' hp hr
    by_cases he : k' = k
    · subst he
      have hself : (s.setAttempt k' a).attempt k' = a := attempt_setAttempt_self
      exact hclosing (hself ▸ hp) (hself ▸ hr)
    · exact h.closing k' hk' (attempt_setAttempt_ne he ▸ hp) (attempt_setAttempt_ne he ▸ hr)
  · intro i hi k' hcall
    obtain ⟨hlt, hp, ho⟩ := h.failed i hi k' hcall
    exact ⟨hlt, hsettled k' _ hp, (howns k').trans ho⟩
  · intro i hi k' hcall
    obtain ⟨hlt, ho, hunique⟩ := h.starts i hi k' hcall
    exact ⟨hlt, (howns k').trans ho, hunique⟩

/-- An attempt goes on, and nothing else changes. -/
theorem Consistent.setAttempt (h : Consistent s) (hk : k < s.opened)
    (howned : a.owned = (s.attempt k).owned)
    (hfits : a.Fits (s.closed = true) (s.client = some k))
    (hphase : a.phase = (s.attempt k).phase ∨
      (s.attempt k).phase = .awaitsConnect ∨ (s.attempt k).phase = .awaitsDisconnect)
    (hclosing : a.phase = .settled .resolved → a.raw ≠ .disconnecting) :
    Consistent (s.setAttempt k a) :=
  h.goesOn hk howned hfits hphase (fun hp hr => absurd hr (hclosing hp)) id (fun _ _ => id)
    fun k' hk' => ⟨(h.client k' hk').2.1, Or.inl hk'⟩

/-- While a call that started an attempt is not through, its attempt is the only
one with such a call. -/
theorem Consistent.owned_unique {k' : ℕ} (h : Consistent s) (hk : k < s.opened)
    (ho : (s.attempt k).owned = true) (hk' : k' < s.opened)
    (ho' : (s.attempt k').owned = true) : k' = k := by
  have hp := (h.promise k).mpr ⟨hk, ho⟩
  have hp' := (h.promise k').mpr ⟨hk', ho'⟩
  rw [hp] at hp'
  cases hp'
  rfl

/-- An open connection with no client and no shared promise has only attempts
that failed. -/
theorem Consistent.all_failed (h : Consistent s) (hclosed : s.closed = false)
    (hclient : s.client = none) (hpromise : s.connectPromise = none) (hk : k < s.opened) :
    (s.attempt k).phase = .settled .clientConnectionError ∧ (s.attempt k).owned = false := by
  have ho : (s.attempt k).owned = false := by
    cases howned : (s.attempt k).owned with
    | false => rfl
    | true =>
      have hp := (h.promise k).mpr ⟨hk, howned⟩
      rw [hpromise] at hp
      cases hp
  refine ⟨?_, ho⟩
  have hfits := h.fits k hk
  rw [hclosed, hclient] at hfits
  unfold Attempt.Fits at hfits
  split at hfits
  · simp [ho] at hfits
  · simp [ho] at hfits
  · assumption
  · simp at hfits
  · simp at hfits

theorem attempt_doConnect_lt (hk : k < s.opened) : s.doConnect.attempt k = s.attempt k :=
  Function.update_of_ne (Nat.ne_of_lt hk) _ _

theorem attempt_doConnect_self : s.doConnect.attempt s.opened = {} := Function.update_self _ _ _

theorem lt_doConnect_cases (hk : k < s.doConnect.opened) : k < s.opened ∨ k = s.opened :=
  Nat.lt_or_eq_of_le (Nat.le_of_lt_succ hk)

theorem call_doConnect_cases (hi : i < s.doConnect.made) :
    i < s.made ∧ s.doConnect.call i = s.call i ∨
      i = s.made ∧ s.doConnect.call i = .connecting s.opened :=
  call_addCall_cases hi

theorem Consistent.doConnect (h : Consistent s) (hclosed : s.closed = false)
    (hclient : s.client = none) (hpromise : s.connectPromise = none) :
    Consistent s.doConnect := by
  have hall : ∀ {k}, k < s.opened →
      (s.attempt k).phase = .settled .clientConnectionError ∧ (s.attempt k).owned = false :=
    fun hk => h.all_failed hclosed hclient hpromise hk
  refine ⟨?_, ?_, ?_, ?_, ?_, ?_, ?_, ?_, ?_⟩
  · intro k
    constructor
    · rintro he
      cases he
      exact ⟨Nat.lt_succ_self _, congrArg Attempt.owned attempt_doConnect_self⟩
    · rintro ⟨hk, ho⟩
      rcases lt_doConnect_cases hk with hk | rfl
      · rw [attempt_doConnect_lt hk, (hall hk).2] at ho
        cases ho
      · rfl
  · intro k hk
    cases hclient.symm.trans hk
  · intro k hk
    rcases lt_doConnect_cases hk with hk | rfl
    · rw [attempt_doConnect_lt hk]
      exact h.fits k hk
    · rw [attempt_doConnect_self]
      exact ⟨rfl, rfl, Or.inl rfl⟩
  · intro k hk
    have hk' : k < s.opened := Nat.lt_of_succ_lt_succ hk
    rw [attempt_doConnect_lt hk']
    exact hall hk'
  · intro k hk ho
    rcases lt_doConnect_cases hk with hk | rfl
    · rw [attempt_doConnect_lt hk, (hall hk).2] at ho
      cases ho
    · exact ⟨s.made, Nat.lt_succ_self _, call_addCall_self⟩
  · intro k hk hp
    rcases lt_doConnect_cases hk with hk | rfl
    · rw [attempt_doConnect_lt hk, (hall hk).1] at hp
      cases hp
    · rw [attempt_doConnect_self] at hp
      cases hp
  · intro i hi k hcall
    obtain ⟨hi', hold⟩ := call_addCall_old hi hcall (by simp)
    obtain ⟨hk, hfailed⟩ := h.failed i hi' k hold
    rw [attempt_doConnect_lt hk]
    exact ⟨Nat.lt_succ_of_lt hk, hfailed⟩
  · intro i hi k hcall
    rcases call_doConnect_cases hi with ⟨hi', he⟩ | ⟨rfl, he⟩
    · obtain ⟨hk, ho, -⟩ := h.starts i hi' k (he.symm.trans hcall)
      rw [(hall hk).2] at ho
      cases ho
    · cases he.symm.trans hcall
      refine ⟨Nat.lt_succ_self _, congrArg Attempt.owned attempt_doConnect_self, ?_⟩
      intro j hj hcall'
      rcases call_doConnect_cases hj with ⟨hj', he'⟩ | ⟨rfl, -⟩
      · exact absurd (h.starts j hj' s.opened (he'.symm.trans hcall')).1 (Nat.lt_irrefl _)
      · rfl
  · intro i hi k hcall
    obtain ⟨hi', hold⟩ := call_addCall_old hi hcall (by simp)
    exact Nat.lt_succ_of_lt (h.follows i hi' k hold)

theorem attempt_afterOwned_self :
    (s.afterOwned i k r).attempt k = { s.attempt k with owned := false } :=
  attempt_setAttempt_self

theorem attempt_afterOwned_ne {k' : ℕ} (hne : k' ≠ k) :
    (s.afterOwned i k r).attempt k' = s.attempt k' :=
  attempt_setAttempt_ne hne

theorem call_afterOwned_self : (s.afterOwned i k r).call i = .settled (some k) r :=
  call_setCall_self

theorem call_afterOwned_ne {j : ℕ} (hne : j ≠ i) : (s.afterOwned i k r).call j = s.call j :=
  call_setCall_ne hne

/-- The end of the call that started an attempt moves no attempt. -/
theorem phase_afterOwned (k' : ℕ) :
    ((s.afterOwned i k r).attempt k').phase = (s.attempt k').phase ∧
      ((s.afterOwned i k r).attempt k').raw = (s.attempt k').raw := by
  by_cases he : k' = k
  · subst he
    rw [attempt_afterOwned_self]
    exact ⟨rfl, rfl⟩
  · rw [attempt_afterOwned_ne he]
    exact ⟨rfl, rfl⟩

/-- After it, no attempt has a call that is not through. -/
theorem Consistent.owned_afterOwned {k' : ℕ} (h : Consistent s) (hk : k < s.opened)
    (ho : (s.attempt k).owned = true) (hk' : k' < s.opened) :
    ((s.afterOwned i k r).attempt k').owned = false := by
  by_cases he : k' = k
  · subst he
    rw [attempt_afterOwned_self]
  · rw [attempt_afterOwned_ne he]
    cases ho' : (s.attempt k').owned with
    | false => rfl
    | true => exact absurd (h.owned_unique hk ho hk' ho') he

theorem Consistent.afterOwned (h : Consistent s) (hi : i < s.made)
    (hcall : s.call i = .connecting k) (hphase : (s.attempt k).phase = .settled r) :
    Consistent (s.afterOwned i k r) := by
  obtain ⟨hk, ho, hunique⟩ := h.starts i hi k hcall
  have hdone : ∀ k' < s.opened, ((s.afterOwned i k r).attempt k').owned = false :=
    fun k' hk' => h.owned_afterOwned hk ho hk'
  refine ⟨?_, ?_, ?_, ?_, ?_, ?_, ?_, ?_, ?_⟩
  · intro k'
    constructor
    · rintro he
      cases he
    · rintro ⟨hk', ho'⟩
      rw [hdone k' hk'] at ho'
      cases ho'
  · intro k' hk'
    obtain ⟨hlt, hopen, hp⟩ := h.client k' hk'
    exact ⟨hlt, hopen, (phase_afterOwned k').1.trans hp⟩
  · intro k' hk'
    have hfits := h.fits k' hk'
    by_cases he : k' = k
    · subst he
      rw [attempt_afterOwned_self]
      exact hfits.through hphase
    · rw [attempt_afterOwned_ne he]
      exact hfits
  · intro k' hk'
    exact ⟨(phase_afterOwned k').1.trans (h.last k' hk').1, hdone k' (Nat.lt_of_succ_lt hk')⟩
  · intro k' hk' ho'
    rw [hdone k' hk'] at ho'
    cases ho'
  · intro k' hk' hp hr
    rw [(phase_afterOwned k').1] at hp
    rw [(phase_afterOwned k').2] at hr
    obtain ⟨j, hj, hcall'⟩ := h.closing k' hk' hp hr
    have hne : j ≠ i := by
      rintro rfl
      cases hcall.symm.trans hcall'
    exact ⟨j, hj, (call_afterOwned_ne hne).trans hcall'⟩
  · intro j hj k' hcall'
    by_cases he : j = i
    · subst he
      cases call_afterOwned_self.symm.trans hcall'
      exact ⟨hk, (phase_afterOwned k).1.trans hphase, hdone k hk⟩
    · obtain ⟨hlt, hp, -⟩ := h.failed j hj k' ((call_afterOwned_ne he).symm.trans hcall')
      exact ⟨hlt, (phase_afterOwned k').1.trans hp, hdone k' hlt⟩
  · intro j hj k' hcall'
    obtain ⟨hne, hold⟩ := call_setCall_old hcall' (by simp)
    -- Another call cannot have started an attempt: the owned one is `k`, and its call is `i`.
    obtain ⟨hk', ho', -⟩ := h.starts j hj k' hold
    cases h.owned_unique hk ho hk' ho'
    exact absurd (hunique j hj hold) hne
  · intro j hj k' hcall'
    obtain ⟨-, hold⟩ := call_setCall_old hcall' (by simp)
    exact h.follows j hj k' hold

/-- The connection closes without a client. -/
theorem Consistent.close (h : Consistent s) (hclient : s.client = none) :
    Consistent { s with closed := true } :=
  { h with
    client := fun _ hk => absurd (hclient.symm.trans hk) (by simp)
    fits := fun k hk => (h.fits k hk).mono (fun _ => rfl) id }

/-! ### Steps -/

theorem Consistent.connect (h : Consistent s) : Consistent s.connect := by
  unfold RedisConnection.connect
  split
  · exact h.addCall (by simp) (by simp) (by simp)
  · rename_i hclosed
    split
    · exact h.addCall (by simp) (by simp) (by simp)
    · rename_i hclient
      cases hpromise : s.connectPromise with
      | some k =>
        refine h.addCall (by simp) (by simp) fun k' he => ?_
        cases he
        exact ((h.promise k).mp hpromise).1
      | none =>
        exact h.doConnect (Bool.not_eq_true _ ▸ hclosed) (Option.not_isSome_iff_eq_none.mp hclient)
          hpromise

theorem Consistent.disconnect (h : Consistent s) : Consistent s.disconnect := by
  unfold RedisConnection.disconnect
  cases hclient : s.client with
  | none => exact (h.close hclient).addCall (by simp) (by simp) (by simp)
  | some k =>
    obtain ⟨hk, hopen, hphase⟩ := h.client k hclient
    have hcalled : Consistent (s.addCall (.disconnecting k)) :=
      h.addCall (by simp) (by simp) (by simp)
    have hfits := h.fits k hk
    rw [Attempt.Fits, hphase] at hfits
    obtain ⟨-, -, hd⟩ := hfits.resolve_right (by simp [hopen])
    refine hcalled.goesOn hk rfl ?_ (Or.inl rfl) ?_ (fun _ => rfl) ?_ (by simp)
    · rw [Attempt.Fits, show _ = _ from hphase]
      exact Or.inr ⟨rfl, by simp [hd], Or.inl rfl⟩
    · exact fun _ _ => ⟨s.made, Nat.lt_succ_self _, call_addCall_self⟩
    · intro k' hne he
      cases hclient.symm.trans he
      exact absurd rfl hne

theorem Consistent.afterConnect (h : Consistent s) (hk : k < s.opened)
    (hphase : (s.attempt k).phase = .awaitsConnect) (hraw : (s.attempt k).raw ≠ .connecting) :
    Consistent (s.afterConnect k) := by
  have hfits := h.fits k hk
  rw [Attempt.Fits, hphase] at hfits
  obtain ⟨ho, hd, hraw'⟩ := hfits
  replace hraw' := hraw'.resolve_left hraw
  unfold RedisConnection.afterConnect
  split
  · rename_i hfailed
    exact h.setAttempt hk rfl ⟨hfailed, hd⟩ (Or.inr (Or.inl hphase)) (by simp)
  · rename_i hfailed
    have hconnected : (s.attempt k).raw = .connected := hraw'.resolve_right hfailed
    split
    · rename_i hclosed
      exact h.setAttempt hk rfl ⟨ho, hclosed, by simp [hd], Or.inl rfl⟩ (Or.inr (Or.inl hphase))
        (by simp)
    · rename_i hclosed
      refine h.goesOn hk rfl (Or.inl ⟨rfl, hconnected, hd⟩) (Or.inr (Or.inl hphase))
        (by simp [hconnected]) id ?_ ?_
      · -- The connection has no client while an attempt waits: the attempt is the last one.
        intro k' hne hclient
        obtain ⟨hk', -, hp⟩ := h.client k' hclient
        rcases Nat.lt_or_gt_of_ne hne with hlt | hgt
        · rw [(h.last k' (Nat.lt_of_le_of_lt hlt hk)).1] at hp
          cases hp
        · rw [(h.last k (Nat.lt_of_le_of_lt hgt hk')).1] at hphase
          cases hphase
      · intro k' he
        cases he
        exact ⟨Bool.not_eq_true _ ▸ hclosed, Or.inr ⟨rfl, rfl⟩⟩

/-- Every step keeps the invariant. -/
theorem Consistent.step {s' : RedisConnection} (h : Consistent s) (hstep : Step s s') :
    Consistent s' := by
  cases hstep with
  | connect => exact h.connect
  | disconnect => exact h.disconnect
  | rawConnects k hk hraw =>
    exact h.setAttempt hk rfl ((h.fits k hk).arrives hraw (Or.inl rfl)) (Or.inl rfl) (by simp)
  | rawFails k hk hraw =>
    exact h.setAttempt hk rfl ((h.fits k hk).arrives hraw (Or.inr rfl)) (Or.inl rfl) (by simp)
  | rawDisconnects k hk hraw =>
    exact h.setAttempt hk rfl ((h.fits k hk).disconnected hraw) (Or.inl rfl) (by simp)
  | connectEnds k hk hphase hraw => exact h.afterConnect hk hphase hraw
  | disconnectEnds k hk hphase hraw =>
    have hfits := h.fits k hk
    rw [Attempt.Fits, hphase] at hfits
    exact h.setAttempt hk rfl ⟨hfits.2.1, hraw, hfits.2.2.1⟩ (Or.inr (Or.inr hphase)) (by simp)
  | ownerSettles i k r hi hcall hphase => exact h.afterOwned hi hcall hphase
  | followerSettles i k r hi hcall hphase howned =>
    apply h.setCall hi (by simp [hcall]) (by simp [hcall])
    rintro rfl
    exact ⟨h.follows i hi k hcall, hphase, howned⟩
  | disconnectSettles i k hi hcall hraw =>
    refine h.setCall hi (by simp [hcall]) ?_ (by simp)
    intro k' he
    cases hcall.symm.trans he
    simp [hraw]

theorem Reachable.consistent (h : Reachable s) : Consistent s := by
  induction h with
  | refl => exact consistent_new
  | tail _ hstep ih => exact ih.step hstep

/-! ## What the runs guarantee -/

def Live (r : RawClient) : Prop := r = .connecting ∨ r = .connected

def HasConnected (r : RawClient) : Prop := r = .connected ∨ r = .disconnecting ∨ r = .disconnected

/-- Every attempt before the last one failed, so its raw client is not live. -/
theorem Consistent.live_is_last (h : Consistent s) (hk : k < s.opened)
    (hlive : Live (s.attempt k).raw) : k + 1 = s.opened := by
  rcases Nat.lt_or_eq_of_le (Nat.succ_le_of_lt hk) with hlt | he
  · have hfits := h.fits k hk
    rw [Attempt.Fits, (h.last k hlt).1] at hfits
    rw [Live, hfits.1] at hlive
    simp at hlive
  · exact he

/-- After a connect call failed with the last attempt, the next one starts an attempt. -/
theorem Consistent.connect_retries (h : Consistent s) (hi : i < s.made)
    (hcall : s.call i = .settled (some k) .clientConnectionError) (hopen : s.closed = false)
    (hlast : k + 1 = s.opened) : s.connect = s.doConnect := by
  obtain ⟨hk, hphase, ho⟩ := h.failed i hi k hcall
  have hfailed : ∀ k' < s.opened,
      (s.attempt k').phase = .settled .clientConnectionError ∧ (s.attempt k').owned = false := by
    intro k' hk'
    rcases Nat.lt_or_eq_of_le (Nat.succ_le_of_lt hk') with hlt | he
    · exact h.last k' hlt
    · cases Nat.succ.inj (he.trans hlast.symm)
      exact ⟨hphase, ho⟩
  have hclient : s.client = none := by
    cases hc : s.client with
    | none => rfl
    | some k' =>
      obtain ⟨hk', -, hp⟩ := h.client k' hc
      rw [(hfailed k' hk').1] at hp
      cases hp
  have hpromise : s.connectPromise = none := by
    cases hc : s.connectPromise with
    | none => rfl
    | some k' =>
      obtain ⟨hk', ho'⟩ := (h.promise k').mp hc
      rw [(hfailed k' hk').2] at ho'
      cases ho'
  simp [RedisConnection.connect, hopen, hclient, hpromise]

/-- When every call has settled on a closed connection, a raw client that was
connected is disconnected. -/
theorem Consistent.disconnected_once (h : Consistent s) (hclosed : s.closed = true)
    (hsettled : ∀ i < s.made, ∃ k r, s.call i = .settled k r) (hk : k < s.opened)
    (hraw : HasConnected (s.attempt k).raw) :
    (s.attempt k).raw = .disconnected ∧ (s.attempt k).disconnects = 1 := by
  have ho : (s.attempt k).owned ≠ true := by
    intro ho
    obtain ⟨i, hi, hcall⟩ := h.owner k hk ho
    obtain ⟨k', r, hcall'⟩ := hsettled i hi
    cases hcall.symm.trans hcall'
  have hclosing : (s.attempt k).phase = .settled .resolved →
      (s.attempt k).raw ≠ .disconnecting := by
    intro hp hr
    obtain ⟨i, hi, hcall⟩ := h.closing k hk hp hr
    obtain ⟨k', r, hcall'⟩ := hsettled i hi
    cases hcall.symm.trans hcall'
  have hclient : s.client ≠ some k := by
    intro hc
    rw [(h.client k hc).2.1] at hclosed
    cases hclosed
  have hfits := h.fits k hk
  unfold Attempt.Fits at hfits
  split at hfits
  · exact absurd hfits.1 ho
  · exact absurd hfits.1 ho
  · simp [HasConnected, hfits.1] at hraw
  · exact hfits.2
  · rename_i hp
    obtain ⟨-, hd, hr⟩ := hfits.resolve_left fun hheld => hclient hheld.1
    exact ⟨hr.resolve_left (hclosing hp), hd⟩

theorem Step.closed {s' : RedisConnection} (hstep : Step s s') (hclosed : s.closed = true) :
    s'.closed = true ∧ s'.opened = s.opened := by
  cases hstep with
  | connect => simp [RedisConnection.connect, addCall, hclosed]
  | disconnect =>
    unfold RedisConnection.disconnect
    cases s.client with
    | none => exact ⟨rfl, rfl⟩
    | some k => exact ⟨rfl, rfl⟩
  | connectEnds k =>
    unfold RedisConnection.afterConnect
    split
    · exact ⟨hclosed, rfl⟩
    · exact ⟨hclosed, rfl⟩
  | rawConnects => exact ⟨hclosed, rfl⟩
  | rawFails => exact ⟨hclosed, rfl⟩
  | rawDisconnects => exact ⟨hclosed, rfl⟩
  | disconnectEnds => exact ⟨hclosed, rfl⟩
  | ownerSettles => exact ⟨hclosed, rfl⟩
  | followerSettles => exact ⟨hclosed, rfl⟩
  | disconnectSettles => exact ⟨hclosed, rfl⟩

/-- A raw client that was connected never connects again. -/
theorem hasConnected_setAttempt {j : ℕ} (hraw : HasConnected (s.attempt k).raw)
    (ha : HasConnected (s.attempt j).raw → HasConnected a.raw) :
    HasConnected ((s.setAttempt j a).attempt k).raw := by
  by_cases he : k = j
  · subst he
    rw [attempt_setAttempt_self]
    exact ha hraw
  · rw [attempt_setAttempt_ne he]
    exact hraw

theorem Step.hasConnected {s' : RedisConnection} (hstep : Step s s') (hk : k < s.opened)
    (hraw : HasConnected (s.attempt k).raw) :
    k < s'.opened ∧ HasConnected (s'.attempt k).raw := by
  cases hstep with
  | connect =>
    unfold RedisConnection.connect
    split
    · exact ⟨hk, hraw⟩
    split
    · exact ⟨hk, hraw⟩
    split
    · exact ⟨hk, hraw⟩
    · exact ⟨Nat.lt_succ_of_lt hk, by rw [attempt_doConnect_lt hk]; exact hraw⟩
  | disconnect =>
    unfold RedisConnection.disconnect
    split
    · exact ⟨hk, hraw⟩
    · exact ⟨hk, hasConnected_setAttempt hraw fun _ => Or.inr (Or.inl rfl)⟩
  | rawConnects j hj hraw' =>
    exact ⟨hk, hasConnected_setAttempt hraw fun _ => Or.inl rfl⟩
  | rawFails j hj hraw' =>
    refine ⟨hk, hasConnected_setAttempt hraw fun hc => ?_⟩
    simp [HasConnected, hraw'] at hc
  | rawDisconnects j hj hraw' =>
    exact ⟨hk, hasConnected_setAttempt hraw fun _ => Or.inr (Or.inr rfl)⟩
  | connectEnds j hj hphase hraw' =>
    unfold RedisConnection.afterConnect
    split
    · exact ⟨hk, hasConnected_setAttempt hraw id⟩
    split
    · exact ⟨hk, hasConnected_setAttempt hraw fun _ => Or.inr (Or.inl rfl)⟩
    · exact ⟨hk, hasConnected_setAttempt hraw id⟩
  | disconnectEnds j hj hphase hraw' => exact ⟨hk, hasConnected_setAttempt hraw id⟩
  | ownerSettles i j r hi hcall hphase => exact ⟨hk, hasConnected_setAttempt hraw id⟩
  | followerSettles => exact ⟨hk, hraw⟩
  | disconnectSettles => exact ⟨hk, hraw⟩

theorem disconnect_closed : s.disconnect.closed = true ∧ s.disconnect.opened = s.opened := by
  unfold RedisConnection.disconnect
  cases s.client with
  | none => exact ⟨rfl, rfl⟩
  | some k => exact ⟨rfl, rfl⟩

/-- From a disconnect call on the connection is closed, and no raw client is opened. -/
theorem closed_run {s' : RedisConnection} (hrun : Relation.ReflTransGen Step s.disconnect s') :
    s'.closed = true ∧ s'.opened = s.opened := by
  induction hrun with
  | refl => exact disconnect_closed
  | tail _ hstep ih =>
    obtain ⟨hclosed, hopened⟩ := hstep.closed ih.1
    exact ⟨hclosed, hopened.trans ih.2⟩

theorem hasConnected_run {s' : RedisConnection} (hrun : Relation.ReflTransGen Step s s')
    (hk : k < s.opened) (hraw : HasConnected (s.attempt k).raw) :
    k < s'.opened ∧ HasConnected (s'.attempt k).raw := by
  induction hrun with
  | refl => exact ⟨hk, hraw⟩
  | tail _ hstep ih => exact hstep.hasConnected ih.1 ih.2

/-- A connection has at most one live raw client. A failed connect call leaves
it reusable. After a disconnect call it is closed for good, and once the calls
have settled every raw client that ever connected is disconnected, once. -/
theorem the_connection_leaks_no_socket (hs : Reachable s) :
    (∀ i < s.opened, ∀ j < s.opened,
      Live (s.attempt i).raw → Live (s.attempt j).raw → i = j) ∧
    (∀ i < s.made, ∀ k, s.call i = .settled (some k) .clientConnectionError → s.closed = false →
      k + 1 < s.opened ∨
        s.connect.opened = s.opened + 1 ∧ (s.connect.attempt s.opened).raw = .connecting) ∧
    ∀ s', Relation.ReflTransGen Step s.disconnect s' →
      s'.opened = s.opened ∧
      s'.connect = s'.addCall (.settled none .clientClosedError) ∧
      s'.access = .error .clientClosedError ∧
      ((∀ i < s'.made, ∃ k r, s'.call i = .settled k r) →
        ∀ s₁, Reachable s₁ → Relation.ReflTransGen Step s₁ s' →
          ∀ k < s₁.opened, (s₁.attempt k).raw = .connected →
            (s'.attempt k).raw = .disconnected ∧ (s'.attempt k).disconnects = 1) := by
  have h := hs.consistent
  refine ⟨?_, ?_, ?_⟩
  · intro i hi j hj hlive hlive'
    have hlast := h.live_is_last hi hlive
    have hlast' := h.live_is_last hj hlive'
    exact Nat.succ.inj (hlast.trans hlast'.symm)
  · intro i hi k hcall hopen
    rcases Nat.lt_or_eq_of_le (Nat.succ_le_of_lt (h.failed i hi k hcall).1) with hlt | hlast
    · exact Or.inl hlt
    · rw [h.connect_retries hi hcall hopen hlast]
      exact Or.inr ⟨rfl, congrArg Attempt.raw attempt_doConnect_self⟩
  · intro s' hrun
    obtain ⟨hclosed, hopened⟩ := closed_run hrun
    refine ⟨hopened, ?_, ?_, ?_⟩
    · simp [RedisConnection.connect, hclosed]
    · simp [access, hclosed]
    · intro hsettled s₁ hs₁ hrun₁ k hk hraw
      have hs' : Reachable s' := Relation.ReflTransGen.trans hs₁ hrun₁
      obtain ⟨hk', hraw'⟩ := hasConnected_run hrun₁ hk (Or.inl hraw)
      exact hs'.consistent.disconnected_once hclosed hsettled hk' hraw'

/-- A disconnect call races a connect: the raw client connects after it. -/
def sampleRace : RedisConnection :=
  (connect {}).disconnect.setAttempt 0 { raw := .connected }

/-- The rest of that run. -/
def sampleRaceEnd : RedisConnection :=
  let disconnecting := sampleRace.afterConnect 0
  let disconnected :=
    disconnecting.setAttempt 0 { disconnecting.attempt 0 with raw := .disconnected }
  let settled :=
    disconnected.setAttempt 0 { disconnected.attempt 0 with phase := .settled .clientClosedError }
  settled.afterOwned 0 0 .clientClosedError

theorem sampleRace_step : Step (connect {}).disconnect sampleRace :=
  Step.rawConnects 0 (by decide) rfl

theorem sampleRace_run : Relation.ReflTransGen Step sampleRace sampleRaceEnd :=
  .head (Step.connectEnds 0 (by decide) rfl (by decide)) <|
    .head (Step.rawDisconnects 0 (by decide) rfl) <|
      .head (Step.disconnectEnds 0 (by decide) rfl rfl) <|
        .single (Step.ownerSettles 0 0 .clientClosedError (by decide) rfl rfl)

/-- The raw client of that race is disconnected. -/
theorem sample_race_leaks_no_socket :
    (sampleRaceEnd.attempt 0).raw = .disconnected ∧ (sampleRaceEnd.attempt 0).disconnects = 1 := by
  have hconnect : Reachable (connect {}) := .single Step.connect
  have hrace : Reachable sampleRace := .tail (.tail hconnect Step.disconnect) sampleRace_step
  obtain ⟨-, -, hclosed⟩ := the_connection_leaks_no_socket hconnect
  obtain ⟨-, -, -, hsettled⟩ := hclosed sampleRaceEnd (.head sampleRace_step sampleRace_run)
  refine hsettled ?_ sampleRace hrace sampleRace_run 0 (by decide) rfl
  intro i hi
  rcases Nat.lt_succ_iff_lt_or_eq.mp hi with hi | rfl
  · obtain rfl := Nat.lt_one_iff.mp hi
    exact ⟨some 0, .clientClosedError, rfl⟩
  · exact ⟨none, .resolved, rfl⟩

end RedisConnection

end Panqueue
