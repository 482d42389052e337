-- The claim loop comes along: while its runner runs, it comes to a claim call
-- or waits for a permit of a job in flight. After `stopClaiming` it sends no
-- further claim call, and ends after a few of its own turns.
import Panqueue.Handshake

namespace Panqueue

variable {δ : Type}

/-- The turns that are left of a claim loop that was told to stop, at most. -/
def LoopPhase.left : LoopPhase → ℕ
  | .claiming _ => 3
  | .parked => 2
  | .exited => 0
  | _ => 1

namespace Runner

variable {r r' : Runner δ} {N : ℕ} {x : RunnerInput δ}

/-- The runner was started, and told to stop. -/
structure Winding (r : Runner δ) : Prop where
  state : r.state = .stopping ∨ r.state = .stopped
  started : r.loop ≠ .notStarted
  waits : r.loop ≠ .acquiring

theorem Winding.not_running (h : r.Winding) : r.state ≠ .running := by
  rcases h.state with hs | hs <;> rw [hs] <;> decide

theorem loopTop_exits (hs : r.state ≠ .running) : r.loopTop.loop = .exited := by
  rw [Runner.loopTop, if_neg hs]

theorem claimBatch_exits (hs : r.state ≠ .running) : r.claimBatch.loop = .exited := by
  rw [Runner.claimBatch, if_neg hs]

theorem waitForNotification_loop (r : Runner δ) :
    r.waitForNotification.loop = .woken ∨ r.waitForNotification.loop = .parked := by
  unfold Runner.waitForNotification
  split
  · exact Or.inl rfl
  · exact Or.inr rfl

/-- After a claim reply, a loop that was told to stop parks, wakes or ends. -/
theorem onClaimReply_loop (hn : r.Numbered) (hs : r.state ≠ .running) (n : ℕ)
    (reply : Except String (List (ClaimResult δ))) :
    (r.onClaimReply n reply).loop = .woken ∨ (r.onClaimReply n reply).loop = .parked ∨
      (r.onClaimReply n reply).loop = .exited := by
  rcases reply with e | jobs
  · rcases waitForNotification_loop ((releasePermits n r).emit [.onWorkerError .claim none]) with
      h | h
    · exact Or.inl h
    · exact Or.inr (Or.inl h)
  · cases jobs with
    | nil =>
      rcases waitForNotification_loop (releasePermits n r) with h | h
      · exact Or.inl h
      · exact Or.inr (Or.inl h)
    | cons c jobs =>
      refine Or.inr (Or.inr (loopTop_exits ?_))
      rw [(sameJobs_releasePermits _ _).state, (hn.foldl_dispatch (c :: jobs)).2.2]
      exact hs

/-- What an input does to a loop that was told to stop: only a claim reply ends
a claim call, and nothing begins one. -/
theorem winding_loop (h : r.Winding) (hb : r.Balanced N) (hn : r.Numbered) (hx : r.Admits x) :
    (r.step x).loop = r.loop ∨
      (r.step x).loop.left < r.loop.left ∧ (r.step x).loop ≠ .notStarted ∧
        (r.step x).loop ≠ .acquiring ∧ ∀ n, (r.step x).loop ≠ .claiming n := by
  have hs := h.not_running
  have hexit : ∀ {q : Runner δ}, q.loop = .exited → r.loop ≠ .exited →
      q.loop.left < r.loop.left ∧ q.loop ≠ .notStarted ∧ q.loop ≠ .acquiring ∧
        ∀ n, q.loop ≠ .claiming n := by
    intro q hq hne
    rw [hq]
    refine ⟨?_, by simp, by simp, by simp⟩
    cases hl : r.loop <;> simp_all [LoopPhase.left]
  have hwoken : ∀ {q : Runner δ}, q.loop = .woken → r.loop = .parked →
      q.loop.left < r.loop.left ∧ q.loop ≠ .notStarted ∧ q.loop ≠ .acquiring ∧
        ∀ n, q.loop ≠ .claiming n := by
    intro q hq hp
    rw [hq, hp]
    exact ⟨by decide, by simp, by simp, by simp⟩
  cases x with
  | start =>
    left
    simp only [Runner.step, Runner.start]
    rw [if_neg]
    rcases h.state with hs | hs <;> rw [hs] <;> decide
  | resume =>
    cases hl : r.loop with
    | granted =>
      right
      simp only [Runner.step, hl]
      simpa [hl] using hexit (claimBatch_exits hs) (by simp [hl])
    | rejected =>
      right
      simp only [Runner.step, hl]
      exact ⟨by decide, by simp, by simp, by simp⟩
    | woken =>
      right
      simp only [Runner.step, hl]
      simpa [hl] using hexit (loopTop_exits hs) (by simp [hl])
    | _ =>
      left
      simp only [Runner.step, hl]
  | claimReply reply =>
    obtain ⟨n, hl, -⟩ := hx
    right
    simp only [Runner.step, hl]
    rcases onClaimReply_loop hn hs n reply with h' | h' | h' <;> rw [h']
    · exact ⟨by simp [LoopPhase.left], by simp, by simp, by simp⟩
    · exact ⟨by simp [LoopPhase.left], by simp, by simp, by simp⟩
    · exact ⟨by simp [LoopPhase.left], by simp, by simp, by simp⟩
  | wake =>
    simp only [Runner.step, Runner.wake]
    split
    · rename_i hw
      exact Or.inr (hwoken rfl (hb.parked.mp hw))
    · exact Or.inl rfl
  | pollTimer =>
    simp only [Runner.step, Runner.pollTimer]
    split
    · rename_i hp
      exact Or.inr (hwoken rfl hp)
    · exact Or.inl rfl
  | stopClaiming =>
    left
    simp only [Runner.step, Runner.stopClaiming, if_neg hs]
  | finalize => exact Or.inl rfl
  | handlerSettled serial settled => exact Or.inl rfl
  | acknowledged e reply =>
    left
    simp only [Runner.step, Runner.acknowledged]
    split
    · rfl
    · rw [(hb.emit _).settle_loop e]
      exact if_neg h.waits
  | rejected e =>
    left
    rw [Runner.step, Runner.rejected, hb.settle_loop e, if_neg h.waits]

theorem winding_state (h : r.Winding) (hn : r.Numbered) (hx : r.Admits x) :
    (r.step x).state = .stopping ∨ (r.step x).state = .stopped := by
  have hs := h.not_running
  have hsame : ∀ {q : Runner δ}, q.state = r.state → q.state = .stopping ∨ q.state = .stopped := by
    intro q hq
    rw [hq]
    exact h.state
  cases x with
  | start =>
    apply hsame
    simp only [Runner.step, Runner.start]
    rw [if_neg]
    rcases h.state with hs | hs <;> rw [hs] <;> decide
  | resume => exact hsame (sameJobs_resume r).state
  | claimReply reply =>
    obtain ⟨n, hl, -⟩ := hx
    apply hsame
    simp only [Runner.step, hl]
    exact (hn.onClaimReply n reply).2.2
  | wake => exact hsame (sameJobs_wake r).state
  | pollTimer => exact hsame (sameJobs_pollTimer r).state
  | stopClaiming =>
    apply hsame
    simp only [Runner.step, Runner.stopClaiming, if_neg hs]
  | finalize => exact Or.inr rfl
  | handlerSettled serial settled => exact hsame rfl
  | acknowledged e reply => exact hsame (hn.acknowledged e reply).2.2
  | rejected e => exact hsame (hn.settle e).2.2

/-- The step lemma of a runner that was told to stop. -/
theorem Winding.step (h : r.Winding) (hb : r.Balanced N) (hn : r.Numbered) (hx : r.Admits x) :
    (r.step x).Winding := by
  rcases winding_loop h hb hn hx with hl | ⟨-, hstarted, hwaits, -⟩
  · exact ⟨winding_state h hn hx, by rw [hl]; exact h.started, by rw [hl]; exact h.waits⟩
  · exact ⟨winding_state h hn hx, hstarted, hwaits⟩

/-- Some input brings the loop nearer to its end. -/
theorem winding_moves (h : r.Winding) (hn : r.Numbered) (hl : r.loop ≠ .exited) :
    ∃ x, r.Admits x ∧ x ≠ .start ∧ x ≠ .stopClaiming ∧ x ≠ .finalize ∧
      (r.step x).loop.left < r.loop.left := by
  have hs := h.not_running
  cases hloop : r.loop with
  | notStarted => exact absurd hloop h.started
  | acquiring => exact absurd hloop h.waits
  | exited => exact absurd hloop hl
  | granted =>
    refine ⟨.resume, trivial, by simp, by simp, by simp, ?_⟩
    simp only [Runner.step, hloop, claimBatch_exits hs]
    decide
  | rejected =>
    refine ⟨.resume, trivial, by simp, by simp, by simp, ?_⟩
    simp only [Runner.step, hloop]
    decide
  | woken =>
    refine ⟨.resume, trivial, by simp, by simp, by simp, ?_⟩
    simp only [Runner.step, hloop, loopTop_exits hs]
    decide
  | parked =>
    refine ⟨.pollTimer, trivial, by simp, by simp, by simp, ?_⟩
    simp only [Runner.step, Runner.pollTimer, hloop, if_true]
    decide
  | claiming n =>
    refine ⟨.claimReply (.error "timeout"), ⟨n, hloop, fun jobs hj => by cases hj⟩, by simp,
      by simp, by simp, ?_⟩
    simp only [Runner.step, hloop]
    rcases onClaimReply_loop hn hs n (.error "timeout") with h' | h' | h' <;>
      simp [h', LoopPhase.left]

/-- A running runner that stops is winding. -/
theorem stopClaiming_winding (hb : r.Balanced N) (hs : r.state = .running)
    (hl : r.loop ≠ .notStarted) : r.stopClaiming.Winding := by
  have hwait := hb.waiters
  have hp := hb.parked
  by_cases ha : r.loop = .acquiring
  · rw [if_pos ha] at hwait
    have hab : r.semaphore.abort () = (true, { r.semaphore with waiters := [] }) := by
      simp [Semaphore.abort, hwait]
    have hw : r.wakeResolve = false := by
      rw [← Bool.not_eq_true, hp, ha]
      simp
    rw [Runner.stopClaiming, if_pos hs, hab]
    simp only [Runner.wake, hw]
    exact ⟨Or.inl rfl, by simp, by simp⟩
  · rw [if_neg ha] at hwait
    have hab : r.semaphore.abort () = (false, r.semaphore) := by
      simp [Semaphore.abort, hwait]
    rw [Runner.stopClaiming, if_pos hs, hab]
    change (Runner.wake { r with state := .stopping, aborted := true }).Winding
    unfold Runner.wake
    split
    · exact ⟨Or.inl rfl, by simp, by simp⟩
    · exact ⟨Or.inl rfl, hl, ha⟩

/-! ### The start of the loop -/

theorem loopTop_started (r : Runner δ) : r.loopTop.loop ≠ .notStarted := by
  unfold Runner.loopTop
  split
  · split <;> simp
  · simp

theorem waitForNotification_started (r : Runner δ) : r.waitForNotification.loop ≠ .notStarted := by
  rcases waitForNotification_loop r with h | h <;> simp [h]

theorem settle_started (e : InFlightEntry δ) (hl : r.loop ≠ .notStarted) :
    (r.settle e).loop ≠ .notStarted := by
  unfold Runner.settle Runner.release
  split
  · simp
  · exact hl

/-- A loop that has begun never goes back. -/
theorem step_started (hl : r.loop ≠ .notStarted) : (r.step x).loop ≠ .notStarted := by
  cases x with
  | start =>
    simp only [Runner.step, Runner.start]
    split
    · exact loopTop_started _
    · exact hl
  | resume =>
    simp only [Runner.step]
    split
    · unfold Runner.claimBatch
      split <;> simp
    · simp
    · exact loopTop_started _
    · exact hl
  | claimReply reply =>
    simp only [Runner.step]
    split
    · rcases reply with e | jobs
      · exact waitForNotification_started _
      · cases jobs with
        | nil => exact waitForNotification_started _
        | cons c jobs => exact loopTop_started _
    · exact hl
  | wake =>
    simp only [Runner.step, Runner.wake]
    split
    · simp
    · exact hl
  | pollTimer =>
    simp only [Runner.step, Runner.pollTimer]
    split
    · simp
    · exact hl
  | stopClaiming =>
    simp only [Runner.step, Runner.stopClaiming, Runner.wake]
    split
    · split
      · split <;> simp
      · split
        · simp
        · exact hl
    · exact hl
  | finalize | handlerSettled => exact hl
  | acknowledged e reply =>
    simp only [Runner.step, Runner.acknowledged]
    split
    · exact hl
    · exact settle_started e hl
  | rejected e => exact settle_started e hl

end Runner

/-- A runner with its loop: running, or winding down. -/
def Runner.Begun (r : Runner δ) : Prop :=
  (r.state = .running → r.loop ≠ .notStarted) ∧ (r.state = .stopping → r.Winding)

theorem Runner.Begun.step {r : Runner δ} {N : ℕ} (h : r.Begun) (hb : r.Balanced N)
    (hn : r.Numbered) {x : RunnerInput δ} (hx : r.Admits x) : (r.step x).Begun := by
  have hkept : (r.step x).state = r.state → (r.step x).Begun := by
    intro hs
    refine ⟨fun hr => step_started (h.1 (hs.symm.trans hr)), fun hst => ?_⟩
    exact (h.2 (hs.symm.trans hst)).step hb hn hx
  cases x with
  | start =>
    by_cases hidle : r.state = .idle
    · have hstart : r.step .start = loopTop { r with state := .running } := if_pos hidle
      refine ⟨fun _ => ?_, fun hs => ?_⟩
      · rw [hstart]
        exact loopTop_started _
      · rw [hstart, (sameJobs_loopTop _).state] at hs
        cases hs
    · apply hkept
      simp only [Runner.step, Runner.start, if_neg hidle]
  | stopClaiming =>
    by_cases hrun : r.state = .running
    · have hw := stopClaiming_winding hb hrun (h.1 hrun)
      exact ⟨fun hr => absurd hr hw.not_running, fun _ => hw⟩
    · apply hkept
      simp only [Runner.step, Runner.stopClaiming, if_neg hrun]
  | finalize => exact ⟨fun h => (by cases h), fun h => (by cases h)⟩
  | resume => exact hkept (sameJobs_resume r).state
  | claimReply reply =>
    obtain ⟨n, hl, hlen⟩ := hx
    apply hkept
    simp only [Runner.step, hl]
    exact (hn.onClaimReply n reply).2.2
  | wake => exact hkept (sameJobs_wake r).state
  | pollTimer => exact hkept (sameJobs_pollTimer r).state
  | handlerSettled serial settled => exact hkept rfl
  | acknowledged e reply => exact hkept (hn.acknowledged e reply).2.2
  | rejected e => exact hkept (hn.settle e).2.2

theorem Runner.Reachable.begun {r : Runner δ} (h : r.Reachable) : r.Begun := by
  obtain ⟨options, retention, r₀, xs, hnew, hr⟩ := h
  induction hr with
  | start =>
    unfold Runner.new Semaphore.new at hnew
    split at hnew
    · cases hnew
    · cases hnew
      exact ⟨fun h => (by cases h), fun h => (by cases h)⟩
  | next hr hst ih =>
    obtain ⟨x, -, hx, rfl⟩ := hst
    obtain ⟨hb, hn, -, -⟩ := runner_keeps_books hnew hr
    exact ih.step hb hn hx

/-- A runner that was told to stop sends no further claim call: one that is on its
way later was on its way then, with no reply since. In each state on the way its
loop has ended, or one of its awaits can end and brings the end nearer, and no
input moves it away. It has at most three turns left. -/
theorem a_stopped_claim_loop_ends {r r' : Runner δ} {xs : List (RunnerInput δ)}
    (h : r.Reachable) (hs : r.state = .stopping) (hrun : Reaches RunnerStep r xs r') :
    (∀ n, r'.loop = .claiming n →
      r.loop = .claiming n ∧ ∀ reply, RunnerInput.claimReply reply ∉ xs) ∧
    r'.loop.left ≤ r.loop.left ∧ r.loop.left ≤ 3 ∧
    (r'.loop = .exited ∨ ∃ x, r'.Admits x ∧ x ≠ .start ∧ x ≠ .stopClaiming ∧ x ≠ .finalize ∧
      (r'.step x).loop.left < r'.loop.left) := by
  have hrun' : r'.Reachable ∧ r'.Winding ∧ r'.loop.left ≤ r.loop.left ∧
      ∀ n, r'.loop = .claiming n →
        r.loop = .claiming n ∧ ∀ reply, RunnerInput.claimReply reply ∉ xs := by
    induction hrun with
    | start => exact ⟨h, h.begun.2 hs, Nat.le_refl _, fun n hl => ⟨hl, fun _ hx => by cases hx⟩⟩
    | @next xs ys q q' _ hst ih =>
      obtain ⟨x, rfl, hx, rfl⟩ := hst
      obtain ⟨hreach, hw, hle, hclaim⟩ := ih
      obtain ⟨N, hb, hn, -⟩ := hreach.books
      refine ⟨hreach.step hx, hw.step hb hn hx, ?_, fun n hl => ?_⟩
      · rcases Runner.winding_loop hw hb hn hx with hl | ⟨hlt, -⟩
        · rw [hl]
          exact hle
        · omega
      · rcases Runner.winding_loop hw hb hn hx with hsame | ⟨-, -, -, hne⟩
        · rw [hsame] at hl
          obtain ⟨hr, hno⟩ := hclaim n hl
          refine ⟨hr, fun reply hmem => ?_⟩
          rcases List.mem_append.mp hmem with hmem | hmem
          · exact hno reply hmem
          · -- a claim reply would have ended the call
            rw [← List.mem_singleton.mp hmem] at hsame
            simp only [Runner.step, hl] at hsame
            rcases Runner.onClaimReply_loop hn hw.not_running n reply with h' | h' | h' <;>
              simp [h'] at hsame
        · exact absurd hl (hne n)
  obtain ⟨hreach, hw, hle, hclaim⟩ := hrun'
  obtain ⟨N, hb, hn, -⟩ := hreach.books
  refine ⟨hclaim, hle, ?_, ?_⟩
  · cases r.loop <;> simp [LoopPhase.left]
  · by_cases hl : r'.loop = .exited
    · exact Or.inl hl
    · exact Or.inr (Runner.winding_moves hw hn hl)

/-- The sample runner, told to stop while its first claim call is on its way. -/
def sampleStopped : Runner String :=
  ((sampleRunner.step .start).step .resume).step .stopClaiming

theorem sample_claim_is_the_last :
    (sampleStopped.step (.claimReply (.ok []))).loop.left ≤ sampleStopped.loop.left := by
  have h1 : Reaches RunnerStep sampleRunner _ _ :=
    Reaches.start.next ⟨.start, rfl, trivial, rfl⟩
  have h2 := h1.next ⟨.resume, rfl, trivial, rfl⟩
  have h3 := h2.next ⟨.stopClaiming, rfl, trivial, rfl⟩
  have hreach : sampleStopped.Reachable :=
    ⟨{ concurrency := 2 }, sampleRunner.retention, sampleRunner, _, rfl, h3⟩
  have hclaiming : sampleStopped.loop = .claiming 2 := by decide +kernel
  have hrun : Reaches RunnerStep sampleStopped _ _ :=
    Reaches.start.next ⟨.claimReply (.ok []), rfl,
      ⟨2, hclaiming, fun _ hj => by cases hj; exact Nat.zero_le 2⟩, rfl⟩
  exact (a_stopped_claim_loop_ends hreach (by decide +kernel) hrun).2.1

/-! ## While it runs -/

/-- The turns before a claim loop calls, at most. -/
def LoopPhase.distance : LoopPhase → ℕ
  | .parked => 3
  | .woken => 2
  | .granted => 1
  | _ => 0

namespace Runner

variable {r : Runner δ} {N : ℕ} {x : RunnerInput δ}

/-- The loop of a running runner: at its claim call, on its way there, or without
a permit, and then none is free. -/
structure Running (r : Runner δ) : Prop where
  unaborted : r.aborted = false
  loop : r.loop = .acquiring ∨ (∃ n, r.loop = .claiming n) ∨ 0 < r.loop.distance
  full : r.loop = .acquiring → r.semaphore.current = r.semaphore.max

theorem Running.loopTop (ha : r.aborted = false) (hs : r.state = .running)
    (hle : r.semaphore.current ≤ r.semaphore.max) :
    r.loopTop.Running ∧ r.loopTop.loop.distance < 2 := by
  unfold Runner.loopTop
  rw [if_pos hs]
  by_cases hc : r.semaphore.current < r.semaphore.max
  · have hacquire : r.semaphore.acquire r.aborted () =
        (.granted, { r.semaphore with current := r.semaphore.current + 1 }) := by
      rw [ha, Semaphore.acquire_free hc]
    rw [hacquire]
    exact ⟨⟨ha, by simp [LoopPhase.distance], by simp⟩, by simp [LoopPhase.distance]⟩
  · have hacquire : r.semaphore.acquire r.aborted () =
        (.waiting, { r.semaphore with waiters := r.semaphore.waiters ++ [()] }) := by
      rw [ha, Semaphore.acquire_full hc]
    rw [hacquire]
    refine ⟨⟨ha, Or.inl rfl, fun _ => ?_⟩, by simp [LoopPhase.distance]⟩
    exact le_antisymm hle (not_lt.mp hc)

theorem aborted_release (r : Runner δ) : r.release.aborted = r.aborted := by
  unfold Runner.release
  split <;> rfl

theorem aborted_releasePermits (n : ℕ) (r : Runner δ) :
    (releasePermits n r).aborted = r.aborted := by
  induction n generalizing r with
  | zero => rfl
  | succ n ih => exact (ih r.release).trans (aborted_release r)

theorem aborted_foldl_dispatch (jobs : List (ClaimResult δ)) (r : Runner δ) :
    (jobs.foldl dispatch r).aborted = r.aborted := by
  induction jobs generalizing r with
  | nil => rfl
  | cons c jobs ih =>
    apply (ih (r.dispatch c)).trans
    cases c with
    | job j => rfl
    | corrupt jobId => exact aborted_release _

theorem Running.waitForNotification (ha : r.aborted = false) : r.waitForNotification.Running := by
  unfold Runner.waitForNotification
  split
  · exact ⟨ha, by simp [LoopPhase.distance], by simp⟩
  · exact ⟨ha, by simp [LoopPhase.distance], by simp⟩

theorem Running.onClaimReply (h : r.Running) {n : ℕ} (hh : Holds N n r) (hn : r.Numbered)
    (hs : r.state = .running) {reply : Except String (List (ClaimResult δ))}
    (hlen : ∀ jobs, reply = .ok jobs → jobs.length ≤ n) : (r.onClaimReply n reply).Running := by
  have ha : (releasePermits n r).aborted = false := (aborted_releasePermits n r).trans h.unaborted
  rcases reply with e | jobs
  · exact Running.waitForNotification ha
  · cases jobs with
    | nil => exact Running.waitForNotification ha
    | cons c jobs =>
      have hlen := hlen _ rfl
      have hk :
          Holds N 0 (releasePermits (n - (c :: jobs).length) ((c :: jobs).foldl dispatch r)) := by
        refine Holds.releasePermits (Holds.foldl_dispatch ?_)
        rw [Nat.zero_add, Nat.sub_add_cancel hlen]
        exact hh
      refine (Running.loopTop ?_ ?_ ?_).1
      · rw [aborted_releasePermits, aborted_foldl_dispatch]
        exact h.unaborted
      · rw [(sameJobs_releasePermits _ _).state, (hn.foldl_dispatch (c :: jobs)).2.2]
        exact hs
      · rw [hk.max]
        exact hk.le

/-- A settled entry hands its permit to the waiting loop, and disturbs no other. -/
theorem Running.settle (h : r.Running) (hb : r.Balanced N) (e : InFlightEntry δ) :
    (r.settle e).Running ∧ ((r.settle e).loop = r.loop ∨ r.loop.distance = 0 ∨
      (r.settle e).loop.distance < r.loop.distance) := by
  have hl := hb.settle_loop e
  have ha : (r.settle e).aborted = false := (aborted_release _).trans h.unaborted
  by_cases hacq : r.loop = .acquiring
  · rw [if_pos hacq] at hl
    refine ⟨⟨ha, by simp [hl, LoopPhase.distance], by simp [hl]⟩, Or.inr (Or.inl ?_)⟩
    rw [hacq]
    rfl
  · rw [if_neg hacq] at hl
    exact ⟨⟨ha, by rw [hl]; exact h.loop, fun hl' => absurd (hl.symm.trans hl') hacq⟩, Or.inl hl⟩

/-- What a running loop does at an input: it stays where it is, or it comes
nearer to its next claim call, or its call or its wait for a permit ends. -/
theorem Running.step (h : r.Running) (hb : r.Balanced N) (hn : r.Numbered)
    (hs : r.state = .running) (hx : r.Admits x) (hs' : (r.step x).state = .running) :
    (r.step x).Running ∧ ((r.step x).loop = r.loop ∨ r.loop.distance = 0 ∨
      (r.step x).loop.distance < r.loop.distance) := by
  have hle : r.semaphore.current ≤ r.semaphore.max := by
    rw [hb.max]
    exact hb.le
  cases x with
  | start =>
    have hne : r.state ≠ .idle := by simp [hs]
    simp only [Runner.step, Runner.start, if_neg hne]
    exact ⟨h, Or.inl trivial⟩
  | resume =>
    cases hl : r.loop with
    | granted =>
      simp only [Runner.step, hl]
      have hc : ∃ n, r.claimBatch.loop = .claiming n ∧ r.claimBatch.aborted = r.aborted := by
        rw [Runner.claimBatch, if_pos hs]
        exact ⟨_, rfl, rfl⟩
      obtain ⟨n, hc, ha⟩ := hc
      refine ⟨⟨ha.trans h.unaborted, Or.inr (Or.inl ⟨n, hc⟩), by simp [hc]⟩, Or.inr (Or.inr ?_)⟩
      rw [hc]
      exact Nat.zero_lt_one
    | woken =>
      simp only [Runner.step, hl]
      obtain ⟨hr, hd⟩ := Running.loopTop h.unaborted hs hle
      exact ⟨hr, Or.inr (Or.inr hd)⟩
    | rejected =>
      rcases h.loop with hl' | ⟨n, hl'⟩ | hl' <;> simp [hl, LoopPhase.distance] at hl'
    | _ =>
      simp only [Runner.step, hl]
      exact ⟨h, Or.inl trivial⟩
  | claimReply reply =>
    obtain ⟨n, hl, hlen⟩ := hx
    have hh := hb.holds (by simp [hl]) (by simp [hl])
    rw [hl] at hh
    simp only [Runner.step, hl]
    exact ⟨h.onClaimReply hh hn hs hlen, Or.inr (Or.inl rfl)⟩
  | wake =>
    simp only [Runner.step, Runner.wake]
    split
    · rename_i hw
      have hl := hb.parked.mp hw
      refine ⟨⟨h.unaborted, by simp [LoopPhase.distance], by simp⟩, Or.inr (Or.inr ?_)⟩
      rw [hl]
      exact Nat.lt_succ_self 2
    · exact ⟨⟨h.unaborted, h.loop, h.full⟩, Or.inl rfl⟩
  | pollTimer =>
    simp only [Runner.step, Runner.pollTimer]
    split
    · rename_i hl
      refine ⟨⟨h.unaborted, by simp [LoopPhase.distance], by simp⟩, Or.inr (Or.inr ?_)⟩
      rw [hl]
      exact Nat.lt_succ_self 2
    · exact ⟨h, Or.inl rfl⟩
  | stopClaiming =>
    have hl : r.loop ≠ .notStarted := by
      intro hl
      rcases h.loop with hl' | ⟨n, hl'⟩ | hl' <;> simp [hl, LoopPhase.distance] at hl'
    exact absurd hs' (stopClaiming_winding hb hs hl).not_running
  | finalize => cases hs'
  | handlerSettled serial settled => exact ⟨⟨h.unaborted, h.loop, h.full⟩, Or.inl rfl⟩
  | acknowledged e reply =>
    simp only [Runner.step, Runner.acknowledged]
    split
    · exact ⟨h, Or.inl rfl⟩
    · exact Running.settle (r := r.emit _) ⟨h.unaborted, h.loop, h.full⟩ (hb.emit _) e
  | rejected e => exact h.settle hb e

/-! ### From the start on -/

/-- Only `stopClaiming` aborts the signal. -/
theorem aborted_step (hx : x ≠ .stopClaiming) : (r.step x).aborted = r.aborted := by
  have htop : ∀ q : Runner δ, q.loopTop.aborted = q.aborted := by
    intro q
    unfold Runner.loopTop
    split
    · split <;> rfl
    · rfl
  have hwait : ∀ q : Runner δ, q.waitForNotification.aborted = q.aborted := by
    intro q
    unfold Runner.waitForNotification
    split <;> rfl
  cases x with
  | start =>
    simp only [Runner.step, Runner.start]
    split
    · exact htop _
    · rfl
  | resume =>
    simp only [Runner.step]
    split
    · unfold Runner.claimBatch
      split
      · rfl
      · exact aborted_release r
    · rfl
    · exact htop r
    · rfl
  | claimReply reply =>
    simp only [Runner.step]
    split
    · rename_i n _
      rcases reply with e | jobs
      · exact (hwait _).trans (aborted_releasePermits n r)
      · cases jobs with
        | nil => exact (hwait _).trans (aborted_releasePermits n r)
        | cons c jobs =>
          apply (htop _).trans
          rw [aborted_releasePermits, aborted_foldl_dispatch]
    · rfl
  | wake =>
    simp only [Runner.step, Runner.wake]
    split <;> rfl
  | pollTimer =>
    simp only [Runner.step, Runner.pollTimer]
    split <;> rfl
  | stopClaiming => exact absurd rfl hx
  | finalize | handlerSettled => rfl
  | acknowledged e reply =>
    simp only [Runner.step, Runner.acknowledged]
    split
    · rfl
    · exact aborted_release _
  | rejected e => exact aborted_release _

end Runner

/-- A runner before its end: not aborted yet, and its loop comes along. -/
def Runner.Alive (r : Runner δ) : Prop :=
  (r.state = .idle → r.aborted = false) ∧ (r.state = .running → r.Running)

theorem Runner.Alive.step {r : Runner δ} {N : ℕ} (h : r.Alive) (hbegun : r.Begun)
    (hb : r.Balanced N) (hn : r.Numbered) {x : RunnerInput δ} (hx : r.Admits x) :
    (r.step x).Alive := by
  have hkept : x ≠ .stopClaiming → (r.step x).state = r.state → (r.step x).Alive := by
    intro hne hs
    refine ⟨fun hi => ?_, fun hr => ?_⟩
    · rw [aborted_step hne]
      exact h.1 (hs.symm.trans hi)
    · have hrun := hs.symm.trans hr
      exact ((h.2 hrun).step hb hn hrun hx hr).1
  cases x with
  | start =>
    by_cases hidle : r.state = .idle
    · have hstart : r.step .start = loopTop { r with state := .running } := if_pos hidle
      have hle : r.semaphore.current ≤ r.semaphore.max := by
        rw [hb.max]
        exact hb.le
      rw [hstart]
      refine ⟨fun hi => ?_, fun _ => ?_⟩
      · rw [(sameJobs_loopTop _).state] at hi
        cases hi
      · exact (Running.loopTop (r := { r with state := .running }) (h.1 hidle) rfl hle).1
    · apply hkept (by simp)
      simp only [Runner.step, Runner.start, if_neg hidle]
  | stopClaiming =>
    by_cases hrun : r.state = .running
    · have hw := stopClaiming_winding hb hrun (hbegun.1 hrun)
      have hstate : r.stopClaiming.state ≠ .idle := by
        rcases hw.state with hs | hs <;> rw [hs] <;> decide
      exact ⟨fun hi => absurd hi hstate, fun hr => absurd hr hw.not_running⟩
    · simp only [Runner.step, Runner.stopClaiming, if_neg hrun]
      exact h
  | finalize => exact ⟨fun h => (by cases h), fun h => (by cases h)⟩
  | resume => exact hkept (by simp) (sameJobs_resume r).state
  | claimReply reply =>
    obtain ⟨n, hl, hlen⟩ := hx
    apply hkept (by simp)
    simp only [Runner.step, hl]
    exact (hn.onClaimReply n reply).2.2
  | wake => exact hkept (by simp) (sameJobs_wake r).state
  | pollTimer => exact hkept (by simp) (sameJobs_pollTimer r).state
  | handlerSettled serial settled => exact hkept (by simp) rfl
  | acknowledged e reply => exact hkept (by simp) (hn.acknowledged e reply).2.2
  | rejected e => exact hkept (by simp) (hn.settle e).2.2

theorem Runner.Reachable.alive {r : Runner δ} (h : r.Reachable) :
    r.Alive ∧ 0 < r.semaphore.max := by
  obtain ⟨options, retention, r₀, xs, hnew, hr⟩ := h
  have hmax : 0 < options.concurrency := by
    unfold Runner.new Semaphore.new at hnew
    split at hnew
    · cases hnew
    · omega
  refine ⟨?_, by rw [(runner_keeps_books hnew hr).1.max]; exact hmax⟩
  induction hr with
  | start =>
    unfold Runner.new Semaphore.new at hnew
    split at hnew
    · cases hnew
    · cases hnew
      exact ⟨fun _ => rfl, fun h => (by cases h)⟩
  | next hr hst ih =>
    obtain ⟨x, -, hx, rfl⟩ := hst
    obtain ⟨hb, hn, -, -⟩ := runner_keeps_books hnew hr
    exact ih.step (Reachable.begun ⟨options, retention, r₀, _, hnew, hr⟩) hb hn hx

/-- A running loop waits for a permit only when all belong to jobs in flight. -/
theorem Runner.Reachable.full {r : Runner δ} (h : r.Reachable) (hs : r.state = .running)
    (hl : r.loop = .acquiring) :
    r.inFlight.length = r.semaphore.max ∧ 0 < r.inFlight.length := by
  obtain ⟨N, hb, -⟩ := h.books
  obtain ⟨halive, hpos⟩ := h.alive
  have hfull := (halive.2 hs).full hl
  have htaken := hb.taken
  have hmax := hb.max
  rw [hl] at htaken
  simp only [LoopPhase.held] at htaken
  omega

/-- A running claim loop is never stuck. Without a permit, all permits belong to
jobs in flight, and the acknowledgement of any of them gives its permit to the
loop. In a claim call it asks for at least one job and no more than there are
permits. Anywhere else one of its own turns brings it nearer to its next permit
or claim call, and nothing takes it back: it is three turns away at most. -/
theorem a_running_claim_loop_is_never_stuck {r : Runner δ} (h : r.Reachable)
    (hs : r.state = .running) :
    (r.loop = .acquiring ∧ r.inFlight.length = r.semaphore.max ∧ 0 < r.inFlight.length ∧
      ∀ e reply, r.Admits (.acknowledged e reply) →
        (r.step (.acknowledged e reply)).loop = .granted) ∨
    (∃ n, r.loop = .claiming n ∧ 0 < n ∧ r.inFlight.length + n ≤ r.semaphore.max) ∨
    r.loop.distance ≤ 3 ∧
      (∃ x, r.Admits x ∧ (x = .resume ∨ x = .pollTimer) ∧
        (r.step x).loop.distance < r.loop.distance) ∧
      ∀ x, r.Admits x → (r.step x).state = .running →
        (r.step x).loop = r.loop ∨ (r.step x).loop.distance < r.loop.distance := by
  obtain ⟨N, hb, hn, -⟩ := h.books
  have hr := h.alive.1.2 hs
  have htaken := hb.taken
  have hmax := hb.max
  rcases hr.loop with hl | ⟨n, hl⟩ | hl
  · left
    obtain ⟨hlength, hpos⟩ := h.full hs hl
    refine ⟨hl, hlength, hpos, fun e reply hx => ?_⟩
    obtain ⟨-, hstage⟩ := hx
    simp only [Runner.step, Runner.acknowledged]
    split
    · rename_i hhandling
      exact absurd hhandling hstage
    · rw [(hb.emit _).settle_loop e]
      exact if_pos hl
  · right
    left
    have hle := hb.le
    rw [hl] at htaken
    simp only [LoopPhase.held] at htaken
    have hasks : n ≠ 0 := by
      rintro rfl
      exact hb.asks hl
    exact ⟨n, hl, by omega, by omega⟩
  · right
    right
    have hmoves : ∀ x, r.Admits x → (r.step x).state = .running →
        (r.step x).loop = r.loop ∨ (r.step x).loop.distance < r.loop.distance := by
      intro x hx hs'
      rcases (hr.step hb hn hs hx hs').2 with hsame | hzero | hlt
      · exact Or.inl hsame
      · omega
      · exact Or.inr hlt
    refine ⟨?_, ?_, hmoves⟩
    · cases r.loop <;> simp [LoopPhase.distance]
    · have hturn : ∀ x : RunnerInput δ, (x = .resume ∨ x = .pollTimer) → r.Admits x →
          (r.step x).state = .running → (r.step x).loop ≠ r.loop →
          ∃ x, r.Admits x ∧ (x = .resume ∨ x = .pollTimer) ∧
            (r.step x).loop.distance < r.loop.distance := by
        intro x hx ha hs' hne
        exact ⟨x, ha, hx, (hmoves x ha hs').resolve_left hne⟩
      cases hloop : r.loop with
      | parked =>
        refine hloop ▸ hturn .pollTimer (Or.inr rfl) trivial
          ((Runner.sameJobs_pollTimer r).state.trans hs) ?_
        simp only [Runner.step, Runner.pollTimer, hloop, if_true]
        simp
      | woken =>
        refine hloop ▸ hturn .resume (Or.inl rfl) trivial
          ((Runner.sameJobs_resume r).state.trans hs) ?_
        simp only [Runner.step, hloop]
        unfold Runner.loopTop
        rw [if_pos hs]
        split <;> simp
      | granted =>
        refine hloop ▸ hturn .resume (Or.inl rfl) trivial
          ((Runner.sameJobs_resume r).state.trans hs) ?_
        simp only [Runner.step, hloop]
        unfold Runner.claimBatch
        rw [if_pos hs]
        simp
      | notStarted | acquiring | rejected | claiming | exited =>
        simp [hloop, LoopPhase.distance] at hl

theorem sample_claim_asks_for_its_permits :
    ∃ n, ((sampleRunner.step .start).step .resume).loop = .claiming n ∧ 0 < n ∧ n ≤ 2 := by
  have h1 : Reaches RunnerStep sampleRunner _ _ :=
    Reaches.start.next ⟨.start, rfl, trivial, rfl⟩
  have h2 := h1.next ⟨.resume, rfl, trivial, rfl⟩
  have hreach : ((sampleRunner.step .start).step .resume).Reachable :=
    ⟨{ concurrency := 2 }, sampleRunner.retention, sampleRunner, _, rfl, h2⟩
  have hl : ((sampleRunner.step .start).step .resume).loop = .claiming 2 := by decide +kernel
  rcases a_running_claim_loop_is_never_stuck hreach (by decide +kernel) with h | ⟨n, h⟩ | h
  · rw [hl] at h
    cases h.1
  · exact ⟨n, h.1, h.2.1, Nat.le_trans (Nat.le_add_left _ _) h.2.2⟩
  · obtain ⟨x, -, -, hlt⟩ := h.2.1
    rw [hl] at hlt
    cases hlt

end Panqueue
