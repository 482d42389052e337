-- lease-renewer.ts: the renewal of one claimed job, from its timer to its
-- call and back, until it is stopped or the lease is lost.
import Panqueue.Runner

namespace Panqueue

variable {δ : Type}

/-! ## Timers -/

/-- The largest delay that `setTimeout` takes as it is. -/
def TIMEOUT_MAX : ℚ := 2147483647

/-- The delay that `setTimeout` makes of a number: a number out of range counts
as 1, and the rest is truncated. -/
def setTimeoutDelay : Double → ℕ
  | .val (some (some q)) => if 1 ≤ q ∧ q ≤ TIMEOUT_MAX then ⌊q⌋.toNat else 1
  | _ => 1

/-- How late a worker can be: `delay` bounds how long a reply of Redis takes from
the moment that the call is sent, and how late a timer fires, in milliseconds.
`failures` bounds the calls that fail. -/
structure Lateness where
  delay : ℕ
  failures : ℕ

/-! ## The renewer of a runner -/

structure LeaseRenewer where
  leaseMs : Double
  lockRenewMs : Double

/-- `Math.floor(leaseMs / 3)`. -/
def floorThird : Double → Double
  | .val (some (some q)) => .ofInt ⌊q / 3⌋
  | x => x

/-- The renewer that a runner makes of its options. -/
def LeaseRenewer.new (leaseMs lockRenewMs : Option Double) : LeaseRenewer where
  leaseMs := leaseMs.getD (.ofNat 30000)
  lockRenewMs :=
    lockRenewMs.getD (Double.max (.ofNat 1) (floorThird (leaseMs.getD (.ofNat 30000))))

/-- What `scheduler.extendLock` makes of the reply of its script. -/
def Reply.extended : Reply → Except String ExtendLockResult
  | .extendLock r => .ok r
  | .error _ => .error "Redis error"
  | _ => .error "Unexpected extendLock result"

/-! ## One renewal -/

/-- Where a renewal stands: it is the handle that does nothing, its timer is set,
its `tick` awaits `extendLock`, or it will do nothing more. -/
inductive RenewalPhase
  | disabled
  | waiting
  | extending
  | ended
  deriving DecidableEq

/-- The closure that `start` makes for one job, with its calls of `extendLock`
and of `#onError` so far. -/
structure Renewal (δ : Type) where
  jobId : String
  lockToken : String
  phase : RenewalPhase
  stopped : Bool := false
  calls : ℕ := 0
  emitted : List (WorkerEvent δ) := []

namespace LeaseRenewer

variable (l : LeaseRenewer)

/-- `start`. -/
def start (jobId lockToken : String) : Renewal δ where
  jobId
  lockToken
  phase := if lockToken = "" ∨ l.lockRenewMs ≤ .ofNat 0 then .disabled else .waiting

/-- The call of a `tick`. -/
def extendLock (jobId lockToken : String) : Call :=
  .extendLock { jobId, lockToken, leaseMs := l.leaseMs }

/-- How long the timer of a renewal is set. -/
def delay : ℕ := setTimeoutDelay l.lockRenewMs

end LeaseRenewer

namespace Renewal

/-- `tick`, up to its await. -/
def tick (r : Renewal δ) : Renewal δ :=
  if r.phase = .waiting then
    if r.stopped then { r with phase := .ended }
    else { r with phase := .extending, calls := r.calls + 1 }
  else r

/-- The end of `tick`. -/
def rearm (r : Renewal δ) : Renewal δ :=
  { r with phase := if r.stopped then .ended else .waiting }

/-- `tick` after its await. -/
def onReply (r : Renewal δ) (reply : Except String ExtendLockResult) : Renewal δ :=
  if r.phase = .extending then
    match reply with
    | .ok .extended => r.rearm
    | .ok _ =>
      { r with
        phase := .ended
        stopped := true
        emitted := r.emitted ++ [.onWorkerError .leaseLost (some r.jobId)] }
    | .error _ =>
      rearm { r with emitted := r.emitted ++ [.onWorkerError .leaseRenew (some r.jobId)] }
  else r

/-- `stop` of the handle. The handle of a disabled renewal does nothing. -/
def stop (r : Renewal δ) : Renewal δ :=
  if r.phase = .disabled then r
  else
    { r with
      stopped := true
      phase := if r.phase = .waiting then .ended else r.phase }

end Renewal

/-- What can happen to a renewal: its timer fires, its call ends, or it is stopped. -/
inductive RenewalInput
  | timer
  | reply (reply : Except String ExtendLockResult)
  | stop

def Renewal.step (r : Renewal δ) : RenewalInput → Renewal δ
  | .timer => r.tick
  | .reply reply => r.onReply reply
  | .stop => r.stop

/-- The renewal after the inputs. -/
def Renewal.after (r : Renewal δ) (xs : List RenewalInput) : Renewal δ := xs.foldl Renewal.step r

namespace Renewal

variable {r : Renewal δ} {xs : List RenewalInput}

/-! ## Until it is stopped or the lease is lost -/

/-- The event that tells of a lost lease. -/
def lost (r : Renewal δ) : WorkerEvent δ := .onWorkerError .leaseLost (some r.jobId)

/-- The event that tells of a failed call. -/
def missed (r : Renewal δ) : WorkerEvent δ := .onWorkerError .leaseRenew (some r.jobId)

/-- How a call of `extendLock` can end: it fails, or it has a result. -/
abbrev Answer := Except String ExtendLockResult

/-- The call failed. -/
def Answer.failed : Answer → Bool
  | .error _ => true
  | .ok _ => false

/-- The result tells that the lease is lost. -/
def Answer.loses : Answer → Bool
  | .error _ => false
  | .ok .extended => false
  | .ok _ => true

/-- The call of the renewal that an input ends, with its answer. -/
def answered (r : Renewal δ) : RenewalInput → List Answer
  | .reply a => if r.phase = .extending then [a] else []
  | _ => []

/-- The answers of all calls of the renewal that ended. -/
def answers (r : Renewal δ) : List RenewalInput → List Answer
  | [] => []
  | x :: xs => r.answered x ++ (r.step x).answers xs

/-- A call that has not ended. -/
def due (r : Renewal δ) : ℕ := if r.phase = .extending then 1 else 0

/-- A renewal tells of each failed call, and last of a lost lease, when a call
said so. It waits or calls until it is stopped, and it is stopped when the lease
is lost. `calls` are those that ended and the one on its way. -/
structure Regular (as : List Answer) (r : Renewal δ) : Prop where
  alive : r.stopped = false → r.phase ≠ .ended
  ends : r.stopped = true → r.phase ≠ .waiting ∧ r.phase ≠ .disabled
  told : (∀ a ∈ as, Answer.loses a = false) ∧
      r.emitted = List.replicate (as.countP Answer.failed) r.missed ∨
    (∃ a ∈ as, Answer.loses a = true) ∧
      r.emitted = List.replicate (as.countP Answer.failed) r.missed ++ [r.lost] ∧
      r.stopped = true ∧ r.phase = .ended
  paid : r.calls = as.length + r.due

theorem Regular.start (l : LeaseRenewer) (jobId lockToken : String) :
    Regular [] (l.start jobId lockToken : Renewal δ) where
  alive := by
    intro _
    unfold LeaseRenewer.start
    dsimp only
    split <;> simp
  ends := by
    intro h
    cases h
  told := Or.inl ⟨by simp, rfl⟩
  paid := by
    unfold LeaseRenewer.start due
    dsimp only
    split <;> simp

variable {as : List Answer}

theorem Regular.tick (h : r.Regular as) : r.tick.Regular as := by
  unfold Renewal.tick
  split
  · rename_i hw
    have hs : r.stopped = false := by
      by_contra hs
      exact (h.ends (by simpa using hs)).1 hw
    have hp := h.paid
    have hdue : r.due = 0 := by simp [due, hw]
    rw [hs, if_neg (by simp)]
    refine ⟨by simp, by simp, ?_, ?_⟩
    · rcases h.told with ht | ⟨-, -, ht, -⟩
      · exact Or.inl ht
      · rw [hs] at ht
        cases ht
    · simp only [due, if_true]
      omega
  · exact h

theorem replicate_snoc {α : Type} (n : ℕ) (x : α) :
    List.replicate n x ++ [x] = List.replicate (n + 1) x := List.replicate_succ'.symm

/-- A call that ends tells of itself once. -/
theorem Regular.onReply (h : r.Regular as) (a : Answer) :
    (r.onReply a).Regular (as ++ r.answered (.reply a)) := by
  by_cases hx : r.phase = .extending
  · have ht : (∀ a ∈ as, Answer.loses a = false) ∧
        r.emitted = List.replicate (as.countP Answer.failed) r.missed := by
      rcases h.told with ht | ⟨-, -, -, ht⟩
      · exact ht
      · rw [hx] at ht
        cases ht
    obtain ⟨hkept, ht⟩ := ht
    have hp := h.paid
    rw [due, if_pos hx] at hp
    rw [answered, if_pos hx]
    have hrearm : ∀ r' : Renewal δ, r'.rearm.due = 0 := by
      intro r'
      unfold rearm due
      dsimp only
      cases r'.stopped <;> simp
    unfold Renewal.onReply
    rw [if_pos hx]
    rcases a with e | result
    · refine ⟨?_, ?_, Or.inl ⟨?_, ?_⟩, ?_⟩
      · intro hs
        simp [rearm, show r.stopped = false from hs]
      · intro hs
        simp [rearm, show r.stopped = true from hs]
      · simp only [List.mem_append, List.mem_singleton]
        rintro b (hb | rfl)
        · exact hkept b hb
        · rfl
      · change r.emitted ++ [r.missed] = List.replicate _ r.missed
        rw [ht, replicate_snoc, List.countP_append]
        rfl
      · rw [hrearm, List.length_append]
        exact hp
    · have hlost : (Answer.loses (.ok result) = true) → Regular (as ++ [.ok result]) { r with
          phase := .ended
          stopped := true
          emitted := r.emitted ++ [.onWorkerError .leaseLost (some r.jobId)] } := by
        intro hl
        refine ⟨by simp, by simp, Or.inr ⟨⟨.ok result, by simp, hl⟩, ?_, rfl, rfl⟩, ?_⟩
        · rw [ht, List.countP_append]
          rfl
        · rw [List.length_append]
          exact hp
      cases result with
      | extended =>
        refine ⟨?_, ?_, Or.inl ⟨?_, ?_⟩, ?_⟩
        · intro hs
          simp [rearm, show r.stopped = false from hs]
        · intro hs
          simp [rearm, show r.stopped = true from hs]
        · simp only [List.mem_append, List.mem_singleton]
          rintro b (hb | rfl)
          · exact hkept b hb
          · rfl
        · change r.emitted = List.replicate _ r.missed
          rw [ht, List.countP_append]
          rfl
        · rw [hrearm, List.length_append]
          exact hp
      | stale => exact hlost rfl
      | missing => exact hlost rfl
  · unfold Renewal.onReply
    rw [if_neg hx, answered, if_neg hx, List.append_nil]
    exact h

theorem Regular.stop (h : r.Regular as) : r.stop.Regular as := by
  unfold Renewal.stop
  split
  · exact h
  · rename_i hd
    have hp := h.paid
    refine ⟨by simp, fun _ => ?_, ?_, ?_⟩
    · dsimp only
      split <;> simp_all
    · rcases h.told with ht | ⟨hl, ht, -, he⟩
      · exact Or.inl ht
      · exact Or.inr ⟨hl, ht, rfl, by simp [he]⟩
    · unfold due at hp ⊢
      dsimp only
      cases hphase : r.phase <;> simp_all

theorem Regular.step (h : r.Regular as) (x : RenewalInput) :
    (r.step x).Regular (as ++ r.answered x) := by
  cases x with
  | timer =>
    rw [show r.answered .timer = [] from rfl, List.append_nil]
    exact h.tick
  | reply a => exact h.onReply a
  | stop =>
    rw [show r.answered .stop = [] from rfl, List.append_nil]
    exact h.stop

theorem Regular.after (h : r.Regular as) (xs : List RenewalInput) :
    (r.after xs).Regular (as ++ r.answers xs) := by
  induction xs generalizing r as with
  | nil =>
    rw [answers, List.append_nil]
    exact h
  | cons x xs ih =>
    rw [answers, ← List.append_assoc]
    exact ih (h.step x)

/-- When the timer of a renewal fires, the renewal sends a call. -/
theorem Regular.fires (h : r.Regular as) (hw : r.phase = .waiting) :
    (r.step .timer).phase = .extending ∧ (r.step .timer).calls = r.calls + 1 := by
  have hs : r.stopped = false := by
    by_contra hs
    exact (h.ends (by simpa using hs)).1 hw
  simp [Renewal.step, Renewal.tick, hw, hs]

/-! ## After it is stopped -/

/-- A stopped renewal stays stopped, calls no more, and tells what is left at most. -/
theorem stopped_step (h : r.Regular as) (hs : r.stopped = true) (x : RenewalInput) :
    (r.step x).stopped = true ∧ (r.step x).calls = r.calls ∧
      (r.step x).emitted.length + (r.step x).due ≤ r.emitted.length + r.due := by
  cases x with
  | timer =>
    have hne := (h.ends hs).1
    simp only [Renewal.step, Renewal.tick, if_neg hne]
    exact ⟨hs, trivial, Nat.le_refl _⟩
  | reply reply =>
    by_cases hx : r.phase = .extending
    · simp only [Renewal.step, Renewal.onReply, if_pos hx, Renewal.due]
      rcases reply with e | result
      · simp [rearm, hs]
      · cases result <;> simp [rearm, hs]
    · simp only [Renewal.step, Renewal.onReply, if_neg hx]
      exact ⟨hs, trivial, Nat.le_refl _⟩
  | stop =>
    have hne := h.ends hs
    simp only [Renewal.step, Renewal.stop, if_neg hne.2, Renewal.due, if_neg hne.1]
    exact ⟨trivial, trivial, Nat.le_refl _⟩

theorem stopped_after (h : r.Regular as) (hs : r.stopped = true) (xs : List RenewalInput) :
    (r.after xs).calls = r.calls ∧
      (r.after xs).emitted.length + (r.after xs).due ≤ r.emitted.length + r.due := by
  induction xs generalizing r as with
  | nil => exact ⟨rfl, Nat.le_refl _⟩
  | cons x xs ih =>
    obtain ⟨hs', hcalls, hle⟩ := stopped_step h hs x
    obtain ⟨hcalls', hle'⟩ := ih (h.step x) hs'
    exact ⟨hcalls'.trans hcalls, Nat.le_trans hle' hle⟩

theorem stopped_stop (hd : r.phase ≠ .disabled) : r.stop.stopped = true := by
  rw [Renewal.stop, if_neg hd]

end Renewal

namespace Renewal

variable {r : Renewal δ}

theorem jobId_step (x : RenewalInput) : (r.step x).jobId = r.jobId := by
  cases x with
  | timer =>
    simp only [Renewal.step, tick]
    split
    · split <;> rfl
    · rfl
  | reply reply =>
    simp only [Renewal.step, onReply]
    split
    · split <;> rfl
    · rfl
  | stop =>
    simp only [Renewal.step, stop]
    split <;> rfl

theorem jobId_after (xs : List RenewalInput) : (r.after xs).jobId = r.jobId := by
  induction xs generalizing r with
  | nil => rfl
  | cons x xs ih => exact ih.trans (jobId_step x)

/-- Whenever its timer fires, its calls end and it is stopped: the renewal of a
job waits or calls until it is stopped or the lease is lost, and each time that
its timer fires it sends a call. It tells of each call that failed, and last,
once, of the lost lease, if and only if a call said so. A stopped one calls no
more, and tells at most of the call that was on its way. -/
theorem a_renewal_runs_until_it_is_stopped_or_lost (l : LeaseRenewer) (jobId lockToken : String)
    (xs : List RenewalInput) :
    let r₀ : Renewal δ := l.start jobId lockToken
    let r := r₀.after xs
    let failures := List.replicate ((r₀.answers xs).countP Answer.failed)
      (.onWorkerError .leaseRenew (some jobId))
    (r.stopped = false → r.phase ≠ .ended) ∧
    (r.phase = .waiting →
      (r.step .timer).phase = .extending ∧ (r.step .timer).calls = r.calls + 1) ∧
    r.calls = (r₀.answers xs).length + r.due ∧
    ((∀ a ∈ r₀.answers xs, Answer.loses a = false) ∧ r.emitted = failures ∨
      (∃ a ∈ r₀.answers xs, Answer.loses a = true) ∧
        r.emitted = failures ++ [.onWorkerError .leaseLost (some jobId)] ∧
        r.stopped = true ∧ r.phase = .ended) ∧
    (r.phase ≠ .disabled → r.stop.stopped = true) ∧
    (r.stopped = true → ∀ ys, (r.after ys).calls = r.calls ∧
      (r.after ys).emitted.length + (r.after ys).due ≤ r.emitted.length + r.due) := by
  intro r₀ r failures
  have h : r.Regular (r₀.answers xs) := (Regular.start l jobId lockToken).after xs
  have hid : r.jobId = jobId := jobId_after xs
  have ht := h.told
  unfold missed lost at ht
  rw [hid] at ht
  exact ⟨h.alive, h.fires, h.paid, ht, stopped_stop, fun hs ys => stopped_after h hs ys⟩

end Renewal

end Panqueue
