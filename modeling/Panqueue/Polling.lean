-- worker-runner.ts: the claim loop beside a clock. Without any notification, a
-- runner that has a free permit asks for jobs again in time.
import Panqueue.LeaseRenewer
import Panqueue.Stopping
import Panqueue.Wakeups

namespace Panqueue

variable {δ : Type}

/-! ## The system -/

/-- A queue with one running runner. `since` is when its claim loop came to the
await at which it stands, or when Redis ran its claim call. `reply` is the reply
of that call on its way, and `failures` are the claim calls that failed in a row. -/
structure Polling (δ : Type) where
  queue : Queue
  runner : Runner δ
  now : ℕ
  since : ℕ
  reply : Option (List ClaimEntry) := none
  failures : ℕ := 0

/-- How long the loop stands at an await, at most. -/
def LoopPhase.stay (poll delay : ℕ) : LoopPhase → ℕ
  | .parked => poll + delay
  | _ => delay

/-- Only the wait for a permit has no bound. -/
def Polling.Prompt (poll : ℕ) (late : Lateness) (s : Polling δ) : Prop :=
  s.runner.loop = .acquiring ∨ s.now ≤ s.since + s.runner.loop.stay poll late.delay

/-- The runner takes an input now. -/
def Polling.take (s : Polling δ) (x : RunnerInput δ) : Polling δ :=
  { s with
    runner := s.runner.step x
    since := if (s.runner.step x).loop = s.runner.loop then s.since else s.now }

variable (sha1hex : String → String) (parse : String → Except String δ) (poll : ℕ)
  (late : Lateness)

/-- One step while the runner is not stopped: a call of anyone else, an input of
the runner, its poll timer, its claim call that Redis runs, whose reply arrives, or
that fails, and a millisecond, which passes when nothing is late then. -/
inductive PollStep : Polling δ → List (Call × RedisTime) → Polling δ → Prop
  | call (s : Polling δ) (op : Call × RedisTime)
      (hw : (exec sha1hex op s.queue).2.LimitIsWhole) :
    PollStep s [op] { s with queue := (exec sha1hex op s.queue).2 }
  | runner (s : Polling δ) (x : RunnerInput δ) (hx : s.runner.Admits x)
      (hno : ∀ reply, x ≠ .claimReply reply) (htimer : x ≠ .pollTimer)
      (hstop : x ≠ .stopClaiming) (hfin : x ≠ .finalize) : PollStep s [] (s.take x)
  | pollTimer (s : Polling δ) (hl : s.runner.loop = .parked) (hdue : s.since + poll ≤ s.now) :
    PollStep s [] (s.take .pollTimer)
  | claim (s : Polling δ) (n : ℕ) (t : RedisTime) (es : List ClaimEntry) (q' : Queue)
      (hl : s.runner.loop = .claiming n) (hr : s.reply = none)
      (hx : exec sha1hex (.claimGlobalBatch ⟨s.runner.leaseMs, n⟩, t) s.queue =
        (.claimGlobalBatch es, q')) :
    PollStep s [(.claimGlobalBatch ⟨s.runner.leaseMs, n⟩, t)]
      { s with queue := q', since := s.now, reply := some es, failures := 0 }
  | reply (s : Polling δ) (es : List ClaimEntry) (hr : s.reply = some es) :
    PollStep s []
      { s.take (.claimReply (Reply.claimed parse (.claimGlobalBatch es))) with reply := none }
  | failed (s : Polling δ) (n : ℕ) (hl : s.runner.loop = .claiming n) (e : String)
      (hf : s.failures < late.failures) :
    PollStep s []
      { s.take (.claimReply (.error e)) with reply := none, failures := s.failures + 1 }
  | waited (s : Polling δ) (hp : Polling.Prompt poll late { s with now := s.now + 1 }) :
    PollStep s [] { s with now := s.now + 1 }

/-! ## What is left until the next claim call -/

/-- The time until Redis runs a claim call of the loop, if the call does not fail. -/
def LoopPhase.togo (poll delay : ℕ) : LoopPhase → ℕ
  | .parked => poll + 4 * delay
  | .woken => 3 * delay
  | .granted => 2 * delay
  | _ => delay

theorem LoopPhase.togo_le (poll delay : ℕ) (p : LoopPhase) :
    p.togo poll delay ≤ poll + 4 * delay := by
  cases p <;> simp only [LoopPhase.togo] <;> omega

variable {poll} {delay : ℕ}

theorem LoopPhase.stay_le_togo (p : LoopPhase) : p.stay poll delay ≤ p.togo poll delay := by
  cases p <;> simp only [LoopPhase.togo, LoopPhase.stay] <;> omega

/-- A loop that comes nearer pays for the await it leaves. -/
theorem LoopPhase.togo_add_stay {p p' : LoopPhase} (h : p'.distance < p.distance) :
    p'.togo poll delay + p.stay poll delay ≤ p.togo poll delay := by
  cases p <;> cases p' <;> simp only [LoopPhase.distance] at h <;>
    simp only [LoopPhase.togo, LoopPhase.stay] <;> omega

namespace Runner

variable {r : Runner δ} {x : RunnerInput δ}

/-- A running runner runs on until it is told to stop. -/
theorem running_step (hn : r.Numbered) (hs : r.state = .running) (hx : r.Admits x)
    (hstop : x ≠ .stopClaiming) (hfin : x ≠ .finalize) : (r.step x).state = .running := by
  cases x with
  | start =>
    simp only [Runner.step, Runner.start]
    rw [if_neg (by simp [hs])]
    exact hs
  | resume => exact (sameJobs_resume r).state.trans hs
  | claimReply reply =>
    obtain ⟨n, hl, -⟩ := hx
    simp only [Runner.step, hl]
    exact (hn.onClaimReply n reply).2.2.trans hs
  | wake => exact (sameJobs_wake r).state.trans hs
  | pollTimer => exact (sameJobs_pollTimer r).state.trans hs
  | stopClaiming => exact absurd rfl hstop
  | finalize => exact absurd rfl hfin
  | handlerSettled serial settled => exact hs
  | acknowledged e reply => exact (hn.acknowledged e reply).2.2.trans hs
  | rejected e => exact (hn.settle e).2.2.trans hs

/-- The reply of a claim call ends it. -/
theorem replied_loop {n : ℕ} (hl : r.loop = .claiming n)
    (reply : Except String (List (ClaimResult δ))) :
    (r.step (.claimReply reply)).loop ≠ .claiming n := by
  have hwait : ∀ q : Runner δ, q.waitForNotification.loop ≠ .claiming n := by
    intro q
    rcases waitForNotification_loop q with h | h <;> simp [h]
  simp only [Runner.step, hl]
  rcases reply with e | jobs
  · exact hwait _
  · cases jobs with
    | nil => exact hwait _
    | cons c jobs =>
      simp only [Runner.onClaimReply]
      unfold Runner.loopTop
      split
      · split <;> simp
      · simp

end Runner

/-! ## The invariant -/

namespace Polling

/-- At this moment all permits of the runner belong to jobs in flight, or the reply
of a claim call is on its way that brings a job or left nothing to claim. -/
def Served (s : Polling δ) : Prop :=
  (s.runner.loop = .acquiring ∧ s.runner.inFlight.length = s.runner.semaphore.max) ∨
    ∃ es, s.reply = some es ∧ (es ≠ [] ∨ ¬ s.queue.Claimable)

/-- The time that is left, but for the calls that fail. -/
def togo (poll : ℕ) (late : Lateness) (s : Polling δ) : ℕ :=
  match s.reply with
  | some _ => poll + 5 * late.delay
  | none => s.runner.loop.togo poll late.delay

/-- The time that the calls can cost that still may fail. -/
def spare (poll : ℕ) (late : Lateness) (s : Polling δ) : ℕ :=
  (late.failures - s.failures) * (poll + 5 * late.delay)

/-- A running runner with a whole limit on its queue. -/
structure Sane (s : Polling δ) : Prop where
  reachable : s.runner.Reachable
  running : s.runner.state = .running
  reply : ∀ es, s.reply = some es → ∃ n, s.runner.loop = .claiming n ∧ es.length ≤ n
  limit : s.queue.LimitIsWhole

/-- The next claim call runs by `last`. -/
structure Due (poll : ℕ) (late : Lateness) (last : ℕ) (s : Polling δ) : Prop where
  sane : s.Sane
  waits : s.runner.loop ≠ .acquiring
  prompt : s.now ≤ s.since + s.runner.loop.stay poll late.delay
  due : s.since + s.togo poll late + s.spare poll late ≤ last

variable {sha1hex parse late} {s s' : Polling δ} {ops : List (Call × RedisTime)} {last : ℕ}
  {x : RunnerInput δ}

theorem spare_le (poll : ℕ) (late : Lateness) (s : Polling δ) :
    s.spare poll late ≤ late.failures * (poll + 5 * late.delay) := by
  unfold spare
  exact Nat.mul_le_mul_right _ (Nat.sub_le _ _)

/-- A failed call pays for the round after it. -/
theorem spare_failed (poll : ℕ) (h : s.failures < late.failures) :
    (late.failures - (s.failures + 1)) * (poll + 5 * late.delay) + (poll + 5 * late.delay) =
      s.spare poll late := by
  unfold spare
  rw [← Nat.succ_mul]
  congr 1
  omega

theorem togo_le (poll : ℕ) (late : Lateness) (s : Polling δ) :
    s.togo poll late ≤ poll + 5 * late.delay := by
  unfold togo
  split
  · exact Nat.le_refl _
  · have := s.runner.loop.togo_le poll late.delay
    omega

theorem Sane.take (h : s.Sane) (hx : s.runner.Admits x) (hno : ∀ reply, x ≠ .claimReply reply)
    (hstop : x ≠ .stopClaiming) (hfin : x ≠ .finalize) : (s.take x).Sane := by
  obtain ⟨N, hb, hn, hf⟩ := h.reachable.books
  refine ⟨h.reachable.step hx, Runner.running_step hn h.running hx hstop hfin, ?_, h.limit⟩
  intro es hr
  obtain ⟨n, hl, hlen⟩ := h.reply es hr
  exact ⟨n, (Runner.attentive_step hb hf hno).stays hl trivial, hlen⟩

/-- After its claim call, the loop is on its way to the next one. -/
theorem Sane.replied (h : s.Sane) {n : ℕ} (hl : s.runner.loop = .claiming n)
    {reply : Except String (List (ClaimResult δ))}
    (hlen : ∀ jobs, reply = .ok jobs → jobs.length ≤ n)
    (failures : ℕ) :
    ({ s.take (.claimReply reply) with reply := none, failures } : Polling δ).Sane ∧
      (s.take (.claimReply reply)).since = s.now := by
  obtain ⟨N, hb, hn, -⟩ := h.reachable.books
  have hx : s.runner.Admits (.claimReply reply) := ⟨n, hl, hlen⟩
  have hrun := Runner.running_step hn h.running hx (by simp) (by simp)
  refine ⟨⟨h.reachable.step hx, hrun, by simp, h.limit⟩, ?_⟩
  have hleft : (s.runner.step (.claimReply reply)).loop ≠ s.runner.loop := by
    rw [hl]
    exact Runner.replied_loop hl reply
  unfold Polling.take
  exact if_neg hleft

/-- The await at which the loop stands is part of the time that is left. -/
theorem Due.stay_le_togo (h : s.Due poll late last) :
    s.runner.loop.stay poll late.delay ≤ s.togo poll late := by
  unfold togo
  split
  · rename_i es hr
    obtain ⟨n, hl, -⟩ := h.sane.reply es hr
    rw [hl]
    simp only [LoopPhase.stay]
    omega
  · exact s.runner.loop.stay_le_togo

/-- A step that leaves the loop where it is, or brings it nearer. -/
theorem Due.moved (h : s.Due poll late last) (hs : s'.Sane) (hnow : s'.now = s.now)
    (hl : (s'.runner.loop = s.runner.loop ∧ s'.since = s.since ∧
        s'.togo poll late + s'.spare poll late = s.togo poll late + s.spare poll late) ∨
      (s'.since = s.now ∧ s'.togo poll late + s'.spare poll late +
        s.runner.loop.stay poll late.delay ≤ s.togo poll late + s.spare poll late)) :
    s'.Served ∨ s'.Due poll late last := by
  have hprompt := h.prompt
  have hdue := h.due
  by_cases hw : s'.runner.loop = .acquiring
  · exact Or.inl (Or.inl ⟨hw, (hs.reachable.full hs.running hw).1⟩)
  · right
    rcases hl with ⟨hloop, hsince, htogo⟩ | ⟨hsince, htogo⟩
    · refine ⟨hs, hw, ?_, ?_⟩
      · rw [hnow, hsince, hloop]
        exact hprompt
      · omega
    · refine ⟨hs, hw, ?_, ?_⟩
      · omega
      · omega

/-- An input of the runner. -/
theorem Due.take (h : s.Due poll late last) (hx : s.runner.Admits x)
    (hno : ∀ reply, x ≠ .claimReply reply) (hstop : x ≠ .stopClaiming) (hfin : x ≠ .finalize) :
    (s.take x).Served ∨ (s.take x).Due poll late last := by
  obtain ⟨N, hb, hn, hf⟩ := h.sane.reachable.books
  have hs := h.sane.take hx hno hstop hfin
  apply h.moved hs rfl
  by_cases hsame : (s.runner.step x).loop = s.runner.loop
  · left
    refine ⟨hsame, if_pos hsame, ?_⟩
    simp only [togo, spare, Polling.take, hsame]
  · right
    refine ⟨if_neg hsame, ?_⟩
    have hr := h.sane.reachable.alive.1.2 h.sane.running
    rcases (hr.step hb hn h.sane.running hx hs.running).2 with hl | hzero | hlt
    · exact absurd hl hsame
    · -- neither a wait for a permit nor a claim call
      exfalso
      rcases hr.loop with hl | ⟨n, hl⟩ | hpos
      · exact h.waits hl
      · exact hsame ((Runner.attentive_step hb hf hno).stays hl trivial |>.trans hl.symm)
      · omega
    · have hpay := @LoopPhase.togo_add_stay poll late.delay _ _ hlt
      have hnone : s.reply = none := by
        rcases hreply : s.reply with _ | es
        · rfl
        · obtain ⟨n, hl, -⟩ := h.sane.reply es hreply
          rw [hl] at hlt
          cases hlt
      simp only [togo, spare, Polling.take, hnone]
      omega

/-- The step lemma. -/
theorem Due.step (h : s.Due poll late last) (hst : PollStep sha1hex parse poll late s ops s') :
    s'.Served ∨ s'.Due poll late last := by
  cases hst with
  | call op hw =>
    exact Or.inr ⟨⟨h.sane.reachable, h.sane.running, h.sane.reply, hw⟩, h.waits, h.prompt, h.due⟩
  | runner x hx hno htimer hstop hfin => exact h.take hx hno hstop hfin
  | pollTimer hl hdue =>
    apply h.take
    · trivial
    all_goals simp
  | claim n t es q' hl hr hx =>
    left
    right
    refine ⟨es, rfl, ?_⟩
    by_cases hnil : es = []
    · right
      rw [hnil] at hx
      obtain ⟨N, hb, -⟩ := h.sane.reachable.books
      refine empty_claim sha1hex h.sane.limit (Nat.pos_of_ne_zero fun hn => ?_) hx
      apply hb.asks
      rw [hl, show n = 0 from hn]
    · exact Or.inl hnil
  | reply es hr =>
    obtain ⟨n, hl, hlen⟩ := h.sane.reply es hr
    have hadmits : ∀ jobs, Reply.claimed parse (.claimGlobalBatch es) = .ok jobs →
        jobs.length ≤ n := by
      intro jobs hj
      cases hj
      simpa using hlen
    obtain ⟨hs, hsince⟩ := h.sane.replied hl hadmits s.failures
    refine h.moved hs rfl (Or.inr ⟨hsince, ?_⟩)
    have hle := LoopPhase.togo_le poll late.delay
      (s.runner.step (.claimReply (Reply.claimed parse (.claimGlobalBatch es)))).loop
    simp only [togo, spare, Polling.take, hr, hl, LoopPhase.stay] at hle ⊢
    omega
  | failed n hl e hf =>
    have hadmits : ∀ jobs, (.error e : Except String (List (ClaimResult δ))) = .ok jobs →
        jobs.length ≤ n := by
      intro jobs hj
      cases hj
    obtain ⟨hs, hsince⟩ := h.sane.replied hl hadmits (s.failures + 1)
    refine h.moved hs rfl (Or.inr ⟨hsince, ?_⟩)
    have hle := LoopPhase.togo_le poll late.delay
      (s.runner.step (.claimReply (.error e))).loop
    have hspare := spare_failed poll hf
    have htogo := h.stay_le_togo
    rw [hl] at htogo ⊢
    change LoopPhase.togo poll late.delay _ +
      (late.failures - (s.failures + 1)) * (poll + 5 * late.delay) + late.delay ≤ _
    simp only [Polling.take]
    omega
  | waited hp =>
    right
    refine ⟨⟨h.sane.reachable, h.sane.running, h.sane.reply, h.sane.limit⟩, h.waits, ?_, h.due⟩
    exact hp.resolve_left h.waits

end Polling

/-- The delay of the poll timer. -/
def pollDelay (pollInterval : Option Double) : ℕ :=
  setTimeoutDelay (pollInterval.getD (.ofNat 5000))

variable {sha1hex parse late} {s₀ s : Polling δ} {ops : List (Call × RedisTime)}

/-- While no moment came at which the runner was served, its next call is due. -/
theorem Polling.Due.run {last : ℕ} (h : s₀.Due poll late last)
    (hrun : Reaches (PollStep sha1hex parse poll late) s₀ ops s) :
    (∃ pre s₁ post, ops = pre ++ post ∧ Reaches (PollStep sha1hex parse poll late) s₀ pre s₁ ∧
      Reaches (PollStep sha1hex parse poll late) s₁ post s ∧ s₁.Served) ∨ s.Due poll late last := by
  induction hrun with
  | start => exact Or.inr h
  | @next es fs s s' hrun hst ih =>
    rcases ih with ⟨pre, s₁, post, hops, hpre, hpost, hserved⟩ | hdue
    · left
      refine ⟨pre, s₁, post ++ fs, ?_, hpre, hpost.next hst, hserved⟩
      rw [hops, List.append_assoc]
    · refine (hdue.step hst).imp_left fun hserved => ?_
      exact ⟨es ++ fs, s', [], (List.append_nil _).symm, hrun.next hst, .start, hserved⟩

/-- A runner asks for jobs in time, also when no notification reaches it, whatever
others call: within its poll interval and five delays, and as much again for each
call that may fail, there is a moment at which all its permits belong to jobs in
flight, or the reply of a claim call of it brings a job or left nothing to claim. -/
theorem a_runner_polls_in_time {pollInterval : Option Double} (hreach : s₀.runner.Reachable)
    (hrunning : s₀.runner.state = .running)
    (hreply : ∀ es, s₀.reply = some es → ∃ n, s₀.runner.loop = .claiming n ∧ es.length ≤ n)
    (hlimit : s₀.queue.LimitIsWhole) (hprompt : s₀.Prompt (pollDelay pollInterval) late)
    (hsince : s₀.since ≤ s₀.now)
    (hrun : Reaches (PollStep sha1hex parse (pollDelay pollInterval) late) s₀ ops s)
    (hlate : s₀.now + (late.failures + 1) * (pollDelay pollInterval + 5 * late.delay) < s.now) :
    ∃ pre s₁ post, ops = pre ++ post ∧
      Reaches (PollStep sha1hex parse (pollDelay pollInterval) late) s₀ pre s₁ ∧
      Reaches (PollStep sha1hex parse (pollDelay pollInterval) late) s₁ post s ∧ s₁.Served := by
  by_cases hl : s₀.runner.loop = .acquiring
  · exact ⟨[], s₀, ops, rfl, .start, hrun, Or.inl ⟨hl, (hreach.full hrunning hl).1⟩⟩
  · have hdue : s₀.Due (pollDelay pollInterval) late
        (s₀.now + (late.failures + 1) * (pollDelay pollInterval + 5 * late.delay)) := by
      refine ⟨⟨hreach, hrunning, hreply, hlimit⟩, hl, hprompt.resolve_left hl, ?_⟩
      have htogo := s₀.togo_le (pollDelay pollInterval) late
      have hspare := s₀.spare_le (pollDelay pollInterval) late
      rw [Nat.succ_mul]
      omega
    rcases hdue.run hrun with hserved | hdue
    · exact hserved
    · exfalso
      have hle := hdue.stay_le_togo
      have hprompt := hdue.prompt
      have hdue := hdue.due
      omega

/-- The sample runner, parked after an empty claim. -/
def samplePolling : Polling String where
  queue := {}
  runner := ((sampleRunner.step .start).step .resume).step (.claimReply (.ok []))
  now := 0
  since := 0

theorem sample_polling_reachable : samplePolling.runner.Reachable := by
  have h1 : Reaches RunnerStep sampleRunner _ _ :=
    Reaches.start.next ⟨.start, rfl, trivial, rfl⟩
  have h2 := h1.next ⟨.resume, rfl, trivial, rfl⟩
  have h3 := h2.next ⟨.claimReply (.ok []), rfl,
    ⟨2, by decide +kernel, fun _ hj => by cases hj; exact Nat.zero_le 2⟩, rfl⟩
  exact ⟨{ concurrency := 2 }, sampleRunner.retention, sampleRunner, _, rfl, h3⟩

def sampleCalls : List (Call × RedisTime) :=
  [(.enqueue sampleJob, ⟨0, 0⟩), (.enqueue { sampleJob with jobId := "k" }, ⟨0, 0⟩)]

/-- What a claim of two jobs after these calls replies. -/
def sampleEntries : List ClaimEntry :=
  match (exec id (.claimGlobalBatch ⟨.ofNat 30000, 2⟩, ⟨0, 1000⟩) (run id sampleCalls)).1 with
  | .claimGlobalBatch es => es
  | _ => []

/-- It claims at its poll timer, and finds the jobs that came meanwhile. -/
theorem sample_runner_polls : ∃ pre s, s.Served ∧
    Reaches (PollStep id Except.ok (pollDelay (some (.ofNat 1))) ⟨0, 0⟩) samplePolling pre s := by
  have hpoll : pollDelay (some (.ofNat 1)) = 1 := by decide +kernel
  have r1 :
      Reaches (PollStep id Except.ok (pollDelay (some (.ofNat 1))) ⟨0, 0⟩) samplePolling _ _ :=
    Reaches.start.next (.call _ (.enqueue sampleJob, ⟨0, 0⟩) fun _ hlimit => by cases hlimit)
  have r2 := r1.next (.call _ (.enqueue { sampleJob with jobId := "k" }, ⟨0, 0⟩)
    fun _ hlimit => by cases hlimit)
  have r3 := r2.next (.waited _ (by rw [hpoll]; exact Or.inr (by decide +kernel)))
  have r4 := r3.next (.pollTimer _ (by decide +kernel) (by rw [hpoll]; exact Nat.le_refl _))
  have r5 := r4.next (.runner _ .resume trivial (by simp) (by simp) (by simp) (by simp))
  have r6 := r5.next (.runner _ .resume trivial (by simp) (by simp) (by simp) (by simp))
  have r7 := r6.next (.claim _ 2 ⟨0, 1000⟩ sampleEntries _ (by decide +kernel) rfl
    (Prod.ext (by decide +kernel) rfl))
  have r8 := r7.next (.reply _ sampleEntries rfl)
  have r9 := r8.next (.waited _ (Or.inl (by decide +kernel)))
  obtain ⟨pre, s₁, post, -, hpre, -, hserved⟩ := a_runner_polls_in_time sample_polling_reachable
    (by decide +kernel) (fun _ hr => by cases hr) (fun _ hlimit => by cases hlimit)
    (Or.inr (Nat.zero_le _)) (Nat.le_refl _) r9 (by rw [hpoll]; exact Nat.lt_succ_self 1)
  exact ⟨pre, s₁, hserved, hpre⟩

end Panqueue
