-- Whole runs of a worker pool: one boot and one end, every connection closed
-- once, and no call that waits for anything but Redis, claim loops and jobs.
import Panqueue.Lifecycle

namespace Panqueue

variable {δ : Type}

namespace WorkerPool

variable {p p' : WorkerPool δ} {b b' : Boot δ} {t : Teardown δ} {k : ℕ} {o : PoolOptions}

/-! ## One boot and one end -/

/-- The states in their order. -/
def order : PoolState → ℕ
  | .idle => 0
  | .starting => 1
  | .running => 2
  | .stopping => 3
  | .stopped => 4

theorem order_starting : order .starting ≤ order .running := by decide

theorem order_running : order .running ≤ order .stopping := by decide

theorem order_le_stopped (s : PoolState) : order s ≤ order .stopped := by
  cases s <;> decide

theorem Stage.booting (h : p.Stage) (hk : p.boots[k]? = some b) (hs : BootStep p.options b b') :
    p.state = .starting ∧ k = 0 ∧ p.boots = [b] ∧ b.Underway p.options ∧ b.through = false := by
  cases h with
  | idle _ hb | unstarted _ hb => exact (of_nil hb hk).elim
  | starting hstate b₀ hb hu hthrough =>
    obtain ⟨rfl, rfl⟩ := of_singleton hb hk
    exact ⟨hstate, rfl, hb, hu, hthrough⟩
  | failed _ b₀ hb _ hf =>
    obtain ⟨-, rfl⟩ := of_singleton hb hk
    exact (hs.unsettled _ hf.1).elim
  | running _ b₀ hb hsucc =>
    obtain ⟨-, rfl⟩ := of_singleton hb hk
    exact (hs.unsettled _ hsucc.1).elim
  | stopping _ b₀ hb hphase | stopped _ b₀ hb hphase =>
    obtain ⟨-, rfl⟩ := of_singleton hb hk
    exact (hs.unsettled _ hphase).elim

/-- A turn goes forward, and boots and calls nothing anew. -/
theorem Stage.turn_forward (h : p.Stage) (hturn : Turn p p') :
    order p.state ≤ order p'.state ∧ p'.boots.length = p.boots.length ∧
      p'.options = p.options ∧ p'.shutdowns = p.shutdowns ∧
      p'.shutdownPromise = p.shutdownPromise := by
  cases hturn with
  | boot k b b' hk hs =>
    obtain ⟨hstarting, -⟩ := h.booting hk hs
    unfold WorkerPool.afterBoot
    split
    · exact ⟨by rw [hstarting]; exact order_starting, List.length_set, rfl, rfl, rfl⟩
    · exact ⟨order_le_stopped _, List.length_set, rfl, rfl, rfl⟩
    · exact ⟨Nat.le_refl _, List.length_set, rfl, rfl, rfl⟩
  | started => exact ⟨Nat.le_refl _, List.length_set, rfl, rfl, rfl⟩
  | startAwaited =>
    unfold WorkerPool.beginTeardown
    split
    · exact ⟨order_le_stopped _, rfl, rfl, rfl, rfl⟩
    · rename_i hrun
      have hrun : p.state = .running := not_not.mp hrun
      unfold WorkerPool.mapRunners
      split
      · exact ⟨by rw [hrun]; exact order_running, rfl, rfl, rfl, rfl⟩
      · exact ⟨by rw [hrun]; exact order_running, List.length_modify _ _ _, rfl, rfl, rfl⟩
  | stopped =>
    unfold WorkerPool.afterStops
    split <;> exact ⟨Nat.le_refl _, rfl, rfl, rfl, rfl⟩
  | drained => exact ⟨Nat.le_refl _, rfl, rfl, rfl, rfl⟩
  | requeued =>
    unfold WorkerPool.closeHeld
    split
    · exact ⟨Nat.le_refl _, rfl, rfl, rfl, rfl⟩
    · exact ⟨Nat.le_refl _, List.length_set, rfl, rfl, rfl⟩
  | closed =>
    unfold WorkerPool.closeHeldNext
    split
    · exact ⟨Nat.le_refl _, rfl, rfl, rfl, rfl⟩
    · exact ⟨Nat.le_refl _, List.length_set, rfl, rfl, rfl⟩
  | ended =>
    unfold WorkerPool.afterClose WorkerPool.mapRunners
    split
    · exact ⟨order_le_stopped _, rfl, rfl, rfl, rfl⟩
    · exact ⟨order_le_stopped _, List.length_modify _ _ _, rfl, rfl, rfl⟩

/-- A step goes forward, and only an idle pool boots. -/
theorem Stage.forward (h : p.Stage) (hstep : Step p p') :
    order p.state ≤ order p'.state ∧ (p.state ≠ .idle → p'.boots.length = p.boots.length) ∧
      p'.options = p.options := by
  cases hstep with
  | start =>
    by_cases hidle : p.state = .idle
    · refine ⟨by rw [hidle]; exact Nat.zero_le _, fun hne => absurd hidle hne, ?_⟩
      unfold WorkerPool.start
      split
      · rfl
      · split
        · rfl
        · split <;> rfl
    · obtain ⟨starts, heq⟩ := start_again hidle
      rw [heq]
      exact ⟨Nat.le_refl _, fun _ => rfl, rfl⟩
  | shutdown options =>
    unfold WorkerPool.shutdown
    split
    · exact ⟨Nat.le_refl _, fun _ => rfl, rfl⟩
    · split
      · exact ⟨order_le_stopped _, fun _ => rfl, rfl⟩
      · exact ⟨Nat.le_refl _, fun _ => rfl, rfl⟩
  | turn _ hturn =>
    obtain ⟨hle, hboots, hoptions, -⟩ := h.turn_forward hturn
    exact ⟨hle, fun _ => hboots, hoptions⟩
  | runner => exact ⟨Nat.le_refl _, fun _ => List.length_set, rfl⟩

/-- A run goes forward, and no boot begins in it unless it starts idle. -/
theorem Stage.run_forward (h : p.Stage) (hrun : Relation.ReflTransGen Step p p') :
    p'.Stage ∧ order p.state ≤ order p'.state ∧
      (p.state ≠ .idle → p'.boots.length = p.boots.length) ∧ p'.options = p.options := by
  induction hrun with
  | refl => exact ⟨h, Nat.le_refl _, fun _ => rfl, rfl⟩
  | @tail q r _ hstep ih =>
    obtain ⟨hq, hle, hboots, hoptions⟩ := ih
    obtain ⟨hle', hboots', hoptions'⟩ := hq.forward hstep
    refine ⟨hq.step hstep, Nat.le_trans hle hle', fun hne => ?_, hoptions'.trans hoptions⟩
    have hne' : q.state ≠ .idle := by
      intro hq'
      rw [hq'] at hle
      revert hle hne
      cases p.state <;> decide
    rw [hboots' hne', hboots hne]

theorem Reachable.options (h : Reachable o p) : p.options = o :=
  (Stage.run_forward (.idle rfl rfl rfl rfl rfl rfl) h).2.2.2

/-- All shutdown calls gave their callers one promise. -/
def OnePromise (p : WorkerPool δ) : Prop := ∀ c ∈ p.shutdowns, p.shutdownPromise = some c

theorem OnePromise.step (h : p.OnePromise) (hp : p.Stage) (hstep : Step p p') :
    p'.OnePromise := by
  cases hstep with
  | start =>
    unfold WorkerPool.start
    split
    · exact h
    · split
      · exact h
      · split <;> exact h
  | shutdown options =>
    have hnew : p.shutdownPromise = none → p.shutdowns = [] := by
      intro hnone
      refine List.eq_nil_iff_forall_not_mem.mpr fun c hc => ?_
      rw [h c hc] at hnone
      cases hnone
    unfold WorkerPool.shutdown
    split
    · rename_i c hc
      intro c' hc'
      rcases List.mem_append.mp hc' with hc' | hc'
      · exact h c' hc'
      · rw [List.mem_singleton.mp hc']
        exact hc
    · rename_i hnone
      split
      · intro c hc
        rw [hnew hnone] at hc
        rw [List.mem_singleton.mp hc]
      · intro c hc
        rw [hnew hnone] at hc
        rw [List.mem_singleton.mp hc]
  | turn _ hturn =>
    obtain ⟨-, -, -, hshutdowns, hpromise⟩ := hp.turn_forward hturn
    intro c hc
    rw [hshutdowns] at hc
    rw [hpromise]
    exact h c hc
  | runner => exact h

theorem Reachable.onePromise (h : Reachable o p) : p.OnePromise := by
  induction h with
  | refl => exact fun c hc => absurd hc List.not_mem_nil
  | tail hrun hstep ih => exact ih.step (Reachable.stage hrun) hstep

/-- What the results of a pool say. -/
def Results (p : WorkerPool δ) : Prop :=
  p.teardowns.length ≤ 1 ∧
    ∀ t ∈ p.teardowns, ∀ result, t.phase = .settled result → result.Fits t.options

theorem Undisturbed.results (h : p.Undisturbed b) : p.Results := by
  rcases h with ⟨ht, -⟩ | ⟨t, ht, -, hphase, -⟩
  · exact ⟨by simp [ht], fun t hmem => by simp [ht] at hmem⟩
  · refine ⟨by simp [ht], fun t' hmem result hsettled => ?_⟩
    rw [ht, List.mem_singleton] at hmem
    rw [hmem, hphase] at hsettled
    cases hsettled

theorem Ended.results (h : p.Ended) : p.Results := by
  obtain ⟨t, result, ht, -, hphase, hfits⟩ := h
  refine ⟨by simp [ht], fun t' hmem result' hsettled => ?_⟩
  rw [ht, List.mem_singleton] at hmem
  subst hmem
  rw [hphase] at hsettled
  cases hsettled
  exact hfits

theorem Stage.results (h : p.Stage) : p.boots.length ≤ 1 ∧ p.Results := by
  cases h with
  | idle hs hb ht | unstarted hs hb ht =>
    exact ⟨by simp [hb], by simp [ht], fun t hmem => by simp [ht] at hmem⟩
  | starting hs b hb _ _ _ ht => exact ⟨by simp [hb], Undisturbed.results ht⟩
  | running hs b hb _ _ ht => exact ⟨by simp [hb], Undisturbed.results ht⟩
  | failed hs b hb e hf _ ht =>
    rcases ht with ht | ht
    · exact ⟨by simp [hb], Undisturbed.results ht⟩
    · exact ⟨by simp [hb], Ended.results ht⟩
  | stopping hs b hb _ _ _ t ht _ hw =>
    refine ⟨by simp [hb], by simp [ht], fun t' hmem result hsettled => ?_⟩
    rw [ht, List.mem_singleton] at hmem
    obtain ⟨-, hw⟩ := hw
    rw [← hmem, hsettled] at hw
    exact hw.elim
  | stopped hs b hb _ _ _ _ _ _ ht => exact ⟨by simp [hb], Ended.results ht⟩

/-- Whatever is called on a pool, in whatever order and at whatever await, it
boots once at most and is torn down once at most, and it only goes forward: a
pool that was started or stopped never boots again. All shutdown calls give
their callers one promise. Its result has the mode of the first call, times out
only where that call gave a drain a timeout, and counts no more jobs as requeued
than were unfinished, none of both after a drain in time. -/
theorem a_pool_boots_once_and_ends_once (h : Reachable o p) :
    p.boots.length ≤ 1 ∧ p.teardowns.length ≤ 1 ∧
    (∀ p', Relation.ReflTransGen Step p p' → order p.state ≤ order p'.state ∧
      (p.state ≠ .idle → p'.boots.length = p.boots.length)) ∧
    (∀ c ∈ p.shutdowns, p.shutdownPromise = some c) ∧
    ∀ t ∈ p.teardowns, ∀ result, t.phase = .settled result →
      result.mode = t.options.mode ∧
      (result.timedOut = true → t.options.mode = .drain ∧ t.options.timeout = true) ∧
      result.requeued ≤ result.unfinishedJobs ∧
      (t.options.mode = .drain → result.timedOut = false → result.unfinishedJobs = 0) := by
  obtain ⟨hboots, hone, hfits⟩ := h.stage.results
  refine ⟨hboots, hone, fun p' hrun => ?_, h.onePromise, fun t ht result hsettled => ?_⟩
  · obtain ⟨-, hle, hboots, -⟩ := h.stage.run_forward hrun
    exact ⟨hle, hboots⟩
  · have := hfits t ht result hsettled
    exact ⟨this.mode, this.timedOut, this.requeued, this.drained⟩

/-- A pool of one worker. -/
def sampleOptions : PoolOptions where
  definitions := [{
    queueId := "emails"
    options := { concurrency := 2 }
    global := none
    one_le_concurrency := by decide }]
  retention := fun _ => sampleRunner.retention
  nonempty := by decide
  nodup := by decide

/-- The boot of the sample pool, while its command connection opens. -/
def sampleBoot : Boot String := {}

/-- The connection is refused. -/
def sampleRefused : Boot String := sampleBoot.connectFails "refused"

/-- The connection is closed. -/
def sampleClosed : Boot String :=
  sampleRefused.closeNext .disconnectsCommand (workerConnectionError "refused") true

/-- The sample pool, started and told to shut down, after its boot has failed. -/
def samplePool : WorkerPool String :=
  let p := shutdown (start { options := sampleOptions }) { mode := .drain }
  let p := (p.afterBoot 0 sampleRefused).afterBoot 0 sampleClosed
  let p := p.afterStart 0 sampleClosed
  p.beginTeardown 0 { options := { mode := .drain }, startPromise := some 0 }

theorem samplePool_reachable : Reachable sampleOptions samplePool := by
  have h0 : Reachable sampleOptions ({ options := sampleOptions } : WorkerPool String) := .refl
  have h1 := h0.tail .start
  have h2 := h1.tail (.shutdown { mode := .drain })
  have h3 := h2.tail (.turn _ (.boot 0 sampleBoot _ rfl (.connectFailed rfl "refused")))
  have h4 := h3.tail (.turn _ (.boot 0 sampleRefused _ rfl
    (.closed .disconnectsCommand (workerConnectionError "refused") rfl true)))
  have h5 := h4.tail (.turn _ (.started 0 sampleClosed rfl rfl _ rfl))
  exact h5.tail (.turn _ (.startAwaited 0 { options := { mode := .drain }, startPromise := some 0 }
    rfl rfl fun j hj => by cases hj; exact ⟨_, rfl, rfl⟩))

theorem samplePool_boots_once :
    samplePool.boots.length = 1 ∧ samplePool.state = .stopped ∧
    ∀ p', Relation.ReflTransGen Step samplePool p' → p'.boots.length = 1 := by
  obtain ⟨-, -, hforward, -⟩ := a_pool_boots_once_and_ends_once samplePool_reachable
  exact ⟨rfl, rfl, fun p' hrun => (hforward p' hrun).2 (by decide)⟩

/-! ## What is opened is closed -/

/-- Every promise that a call was given has settled. -/
def AtRest (p : WorkerPool δ) : Prop :=
  (∀ b ∈ p.boots, b.through = true) ∧ ∀ t ∈ p.teardowns, ∃ result, t.phase = .settled result

/-- The claim loop has no call on its way and will make none. -/
def Quiet (r : Runner δ) : Prop := r.loop = .notStarted ∨ r.loop = .exited

theorem AllIn.quiet {runners : List (Runner δ)} (h : AllIn .idle runners) :
    ∀ r ∈ runners, Quiet r := by
  intro r hr
  obtain ⟨hreach, hstate⟩ := h r hr
  obtain ⟨N, -, -, hf⟩ := hreach.books
  exact Or.inl (hf hstate)

theorem AllExited.quiet {s : WorkerState} {runners : List (Runner δ)} (h : AllExited s runners) :
    ∀ r ∈ runners, Quiet r := fun r hr => Or.inr (h r hr).2.2

/-- The raw client of a connection was disconnected at most once. -/
def Once (c : Connections) : Prop :=
  c.command.disconnects ≤ 1 ∧ ∀ s, c.subscriber = some s → s.disconnects ≤ 1

theorem disconnects_le {c : WorkerConnection} (h : c.Open ∨ c.Failed ∨ c.Shut) :
    c.disconnects ≤ 1 := by
  rcases h with ⟨-, -, h⟩ | ⟨-, -, h⟩ | ⟨h, -⟩ <;> rw [h]
  · exact Nat.zero_le 1
  · exact Nat.zero_le 1

theorem Once.of_live {c : Connections} (h : c.Live) : Once c := by
  obtain ⟨-, hc, s, hs, ho⟩ := h
  refine ⟨disconnects_le (Or.inl hc), fun s' hs' => ?_⟩
  rw [hs] at hs'
  cases hs'
  exact disconnects_le (Or.inl ho)

theorem Once.of_closed {c : Connections} (h : c.Closed) : Once c := by
  obtain ⟨hc, hs⟩ := h
  refine ⟨?_, fun s hsub => ?_⟩
  · rcases hc with hc | hc
    · exact disconnects_le (Or.inr (Or.inr hc))
    · exact disconnects_le (Or.inr (Or.inl hc))
  · rcases hs s hsub with hs | hs
    · exact disconnects_le (Or.inr (Or.inr hs))
    · exact disconnects_le (Or.inr (Or.inl hs))

theorem Once.of_at {c : Connections} {closing : CloseAwait} (h : c.At closing) : Once c := by
  cases closing with
  | unsubscribes =>
    obtain ⟨⟨hc, hs⟩, -⟩ := h
    refine ⟨?_, fun s hsub => ?_⟩
    · rcases hc with hc | hc
      · exact disconnects_le (Or.inl hc)
      · exact disconnects_le (Or.inr (Or.inl hc))
    · rcases hs s hsub with ⟨hs, -⟩ | ⟨hs, -⟩
      · exact disconnects_le (Or.inl hs)
      · exact disconnects_le (Or.inr (Or.inl hs))
  | disconnectsSubscriber =>
    obtain ⟨hc, hs⟩ := h
    refine ⟨?_, fun s hsub => ?_⟩
    · rcases hc with hc | hc
      · exact disconnects_le (Or.inl hc)
      · exact disconnects_le (Or.inr (Or.inl hc))
    · rcases hs s hsub with hs | hs
      · exact disconnects_le (Or.inr (Or.inr hs))
      · exact disconnects_le (Or.inr (Or.inl hs))
  | disconnectsCommand => exact Once.of_closed h
  | done => exact Once.of_closed h

theorem Underway.once (h : b.Underway o) : Once b.connections := by
  obtain ⟨-, h⟩ := h
  cases hphase : b.phase with
  | connects =>
    rw [hphase] at h
    rw [h.1]
    exact ⟨Nat.zero_le 1, fun s hs => by cases hs⟩
  | duplicates =>
    rw [hphase] at h
    refine ⟨disconnects_le (Or.inl h.1), fun s hs => ?_⟩
    rw [h.2.1] at hs
    cases hs
    exact Nat.zero_le 1
  | declares limits =>
    rw [hphase] at h
    exact Once.of_live h.1
  | subscribes channels =>
    rw [hphase] at h
    exact Once.of_live h.1
  | closes closing e =>
    rw [hphase] at h
    exact Once.of_at h.1
  | settled outcome =>
    rw [hphase] at h
    exact h.elim

/-- While a teardown works, the connections are live or no claim loop runs. -/
theorem Winds.live_or_quiet (h : t.Winds b) :
    Once b.connections ∧ (b.connections.Live ∨ ∀ r ∈ b.runners, Quiet r) := by
  obtain ⟨-, h⟩ := h
  cases hphase : t.phase with
  | awaitsStart | settled result =>
    rw [hphase] at h
    exact h.elim
  | stops awaited =>
    rw [hphase] at h
    exact ⟨Once.of_live h.1, Or.inl h.1⟩
  | drains inFlight | requeues timedOut inFlight =>
    rw [hphase] at h
    exact ⟨Once.of_live h.1, Or.inl h.1⟩
  | closes closing result =>
    rw [hphase] at h
    exact ⟨Once.of_at h.1, Or.inr (AllExited.quiet h.2.1)⟩

/-- At every stage each raw client was disconnected at most once, and the
connections are live or no claim loop runs. -/
theorem Stage.live_or_quiet (h : p.Stage) : ∀ b ∈ p.boots, Once b.connections ∧
    (b.connections.Live ∨ ∀ r ∈ b.runners, Quiet r) := by
  intro b' hmem
  cases h with
  | idle hs hb | unstarted hs hb =>
    rw [hb] at hmem
    cases hmem
  | starting hs b hb hu =>
    rw [hb, List.mem_singleton] at hmem
    subst hmem
    exact ⟨Underway.once hu, Or.inr (AllIn.quiet hu.1)⟩
  | failed hs b hb e hf =>
    rw [hb, List.mem_singleton] at hmem
    subst hmem
    exact ⟨Once.of_closed hf.2.1, Or.inr (AllIn.quiet hf.2.2)⟩
  | running hs b hb hsucc =>
    rw [hb, List.mem_singleton] at hmem
    subst hmem
    exact ⟨Once.of_live hsucc.2.1, Or.inl hsucc.2.1⟩
  | stopping hs b hb _ _ _ t _ _ hw =>
    rw [hb, List.mem_singleton] at hmem
    subst hmem
    exact Winds.live_or_quiet hw
  | stopped hs b hb _ _ _ hc hr =>
    rw [hb, List.mem_singleton] at hmem
    subst hmem
    exact ⟨Once.of_closed hc, Or.inr (AllExited.quiet hr)⟩

/-- A pool disconnects each raw client once at most, and the command connection
only when no claim loop has a call on its way. When all promises of its callers
have settled, the pool is idle and opened nothing, or it is running with both
connections, all subscriptions and all runners, or it is stopped: then each raw
client that connected was disconnected exactly once, and no claim loop runs. -/
theorem a_pool_closes_what_it_opened (h : Reachable o p) :
    (∀ b ∈ p.boots, Once b.connections ∧
      (0 < b.connections.command.disconnects → ∀ r ∈ b.runners, Quiet r)) ∧
    (p.AtRest → p.state = .idle ∧ p.boots = [] ∨
      p.state = .running ∧ (∃ b, p.boots = [b] ∧ b.Succeeds o) ∨
      p.state = .stopped ∧ ∀ b ∈ p.boots, b.connections.Closed ∧ ∀ r ∈ b.runners, Quiet r) := by
  have hstage := h.stage
  refine ⟨fun b hb => ?_, fun hrest => ?_⟩
  · obtain ⟨honce, hlive⟩ := hstage.live_or_quiet b hb
    refine ⟨honce, fun hpos => ?_⟩
    rcases hlive with hlive | hquiet
    · exact absurd hlive.2.1.2.2 (Nat.ne_of_gt hpos)
    · exact hquiet
  · obtain ⟨hthroughs, hsettled⟩ := hrest
    have hquiet := hstage.live_or_quiet
    cases hstage with
    | idle hs hb => exact Or.inl ⟨hs, hb⟩
    | unstarted hs hb =>
      refine Or.inr (Or.inr ⟨hs, fun b hmem => ?_⟩)
      rw [hb] at hmem
      cases hmem
    | starting hs b hb _ hthrough =>
      have := hthroughs b (by simp [hb])
      rw [hthrough] at this
      cases this
    | failed hs b hb e hf =>
      refine Or.inr (Or.inr ⟨hs, fun b' hmem => ?_⟩)
      rw [hb, List.mem_singleton] at hmem
      subst hmem
      exact ⟨hf.2.1, AllIn.quiet hf.2.2⟩
    | running hs b hb hsucc =>
      rw [h.options] at hsucc
      exact Or.inr (Or.inl ⟨hs, b, hb, hsucc⟩)
    | stopping hs b hb _ _ _ t ht _ hw =>
      obtain ⟨result, hphase⟩ := hsettled t (by simp [ht])
      obtain ⟨-, hw⟩ := hw
      rw [hphase] at hw
      exact hw.elim
    | stopped hs b hb _ _ _ hc hr =>
      refine Or.inr (Or.inr ⟨hs, fun b' hmem => ?_⟩)
      rw [hb, List.mem_singleton] at hmem
      subst hmem
      exact ⟨hc, AllExited.quiet hr⟩

/-- The boot of the sample pool once both connections are open and the runner started. -/
def sampleBooted : Boot String :=
  (sampleBoot.afterConnect.afterDuplicate sampleOptions).afterSubscribe (notifyKey "emails") []

/-- The runner of the sample pool with one job in flight. -/
def busyRunner : Runner String :=
  (sampleRunner.start.step .resume).step (.claimReply (.ok [.job sampleClaim]))

/-- The sample pool with its busy runner, told to shut down by force. -/
def stoppingPool : WorkerPool String :=
  let p := (start { options := sampleOptions }).afterBoot 0 sampleBooted
  let p := p.afterStart 0 sampleBooted
  let p := p.setBoot 0 { sampleBooted with through := true, runners := [busyRunner] }
  (p.shutdown {}).beginTeardown 0 { options := {}, startPromise := none }

theorem stoppingPool_reachable : Reachable sampleOptions stoppingPool := by
  have h0 : Reachable sampleOptions ({ options := sampleOptions } : WorkerPool String) := .refl
  have h1 := h0.tail .start
  have h2 := h1.tail (.turn _ (.boot 0 sampleBoot _ rfl (.connected rfl)))
  have h3 := h2.tail (.turn _ (.boot 0 _ _ rfl (.duplicated rfl)))
  have h4 := h3.tail (.turn _ (.boot 0 _ _ rfl (.subscribed (notifyKey "emails") [] rfl)))
  have h5 := h4.tail (.turn _ (.started 0 _ rfl rfl _ rfl))
  have h6 := h5.tail (.runner 0 0 _ rfl sampleRunner.start rfl .resume trivial trivial)
  have h7 := h6.tail (.runner 0 0 _ rfl _ rfl (.claimReply (.ok [.job sampleClaim]))
    ⟨2, by decide +kernel, fun _ hj => by cases hj; exact Nat.one_le_ofNat⟩ trivial)
  have h8 := h7.tail (.shutdown {})
  exact h8.tail (.turn _ (.startAwaited 0 _ rfl rfl fun j hj => by cases hj))

/-- A forced shutdown hands the job over and closes both connections. -/
theorem stoppingPool_closes : ∃ p : WorkerPool String, p.state = .stopped ∧ p.boots.length = 1 ∧
    ∀ b ∈ p.boots, b.connections.attached = true ∧ b.connections.Closed ∧
      ∀ r ∈ b.runners, r.invoked = [sampleClaim] ∧ Quiet r := by
  have h1 := stoppingPool_reachable.tail (.runner 0 0 _ rfl _ rfl .resume trivial trivial)
  have h2 := h1.tail (.turn _ (.stopped 0 _ rfl _ rfl fun i r hr _ => by
    rw [List.mem_singleton.mp (List.mem_of_getElem? hr)]
    decide +kernel))
  have h3 := h2.tail (.turn _ (.requeued 0 _ rfl _ _ rfl
    [[(⟨0, sampleClaim, .handling⟩, some (.requeueActive .waiting))]] rfl))
  have h4 := h3.tail (.turn _ (.closed 0 _ rfl _ _ rfl (by decide) true))
  have h5 := h4.tail (.turn _ (.closed 0 _ rfl _ _ rfl (by decide) true))
  have h6 := h5.tail (.turn _ (.closed 0 _ rfl _ _ rfl (by decide) true))
  have h7 := h6.tail (.turn _ (.ended 0 _ rfl _ rfl))
  have hend := (a_pool_closes_what_it_opened h7).2 ⟨fun b hb => by rw [List.mem_singleton.mp hb],
    fun t ht => by
      rw [List.mem_singleton.mp ht]
      exact ⟨_, rfl⟩⟩
  rcases hend with h | h | h
  · cases h.1
  · cases h.1
  · refine ⟨_, h.1, rfl, fun b hb => ?_⟩
    obtain ⟨hc, hr⟩ := h.2 b hb
    rw [List.mem_singleton.mp hb] at hc hr ⊢
    refine ⟨rfl, hc, fun r hmem => ⟨?_, hr r hmem⟩⟩
    rw [List.mem_singleton.mp hmem]
    rfl

/-! ## What a pool waits for -/

end WorkerPool

/-- The turns that are left of `closeConnections` and of what follows it. -/
def CloseAwait.left : CloseAwait → ℕ
  | .unsubscribes => 4
  | .disconnectsSubscriber => 3
  | .disconnectsCommand => 2
  | .done => 1

/-- The turns that are left of a boot, at most. -/
def Boot.left (o : PoolOptions) (b : Boot δ) : ℕ :=
  if b.through then 0
  else
    match b.phase with
    | .connects => 6 + o.channels.length + o.limits.length
    | .duplicates => 5 + o.channels.length + o.limits.length
    | .declares limits => 4 + o.channels.length + limits.length
    | .subscribes channels => 4 + channels.length
    | .closes closing _ => closing.left
    | .settled _ => 1

/-- The turns that are left of a teardown, at most. -/
def TeardownPhase.left : TeardownPhase δ → ℕ
  | .awaitsStart => 8
  | .stops _ => 7
  | .drains _ => 6
  | .requeues _ _ => 5
  | .closes closing _ => closing.left
  | .settled _ => 0

theorem Connections.close_left (c : Connections) (channels : List String) :
    (c.close channels).1.left ≤ 4 := by
  cases (c.close channels).1 <;> decide

theorem Connections.closeNext_left {closing : CloseAwait} (h : closing ≠ .done) (c : Connections)
    (ok : Bool) : (c.closeNext ok closing).1.left < closing.left := by
  cases closing with
  | done => exact absurd rfl h
  | unsubscribes => exact Nat.lt_succ_self 3
  | disconnectsSubscriber => exact Nat.lt_succ_self 2
  | disconnectsCommand => exact Nat.lt_succ_self 1

namespace Boot

variable {o : PoolOptions} {b : Boot δ}

theorem left_caught (ht : b.through = false) (e : PoolError) : (b.caught e).left o ≤ 4 := by
  have hthrough : (b.caught e).through = false := ht
  rw [Boot.left, if_neg (by simp [hthrough])]
  exact Connections.close_left _ _

theorem left_subscribeNext (ht : b.through = false) (channels : List String) :
    (b.subscribeNext channels).left o ≤ 4 + channels.length := by
  cases channels with
  | nil =>
    simp only [Boot.subscribeNext]
    split
    · rw [Boot.left, if_neg (by simp [ht])]
      exact Nat.le_add_left 1 3
    · rename_i runners detail _
      exact left_caught (b := { b with runners }) ht _
  | cons channel channels =>
    rw [Boot.subscribeNext, Boot.left, if_neg (by simp [ht])]

theorem left_attach (ht : b.through = false) :
    (b.attach o).left o ≤ 4 + o.channels.length := by
  unfold Boot.attach
  split
  · rename_i runners _
    exact left_subscribeNext (b := { b with runners }) ht _
  · exact Nat.le_add_right_of_le (left_caught ht _)

theorem left_declareNext (ht : b.through = false) (limits : List (String × QueueConcurrencyLimit)) :
    (b.declareNext o limits).left o ≤ 4 + o.channels.length + limits.length := by
  cases limits with
  | nil => exact left_attach ht
  | cons limit limits => rw [Boot.declareNext, Boot.left, if_neg (by simp [ht])]

end Boot

/-- Each turn of a boot brings its end nearer. -/
theorem BootStep.left {o : PoolOptions} {b b' : Boot δ} (h : BootStep o b b')
    (ht : b.through = false) (hu : b.Underway o) : b'.left o < b.left o := by
  obtain ⟨-, hu⟩ := hu
  have hleft : b.left o = _ := if_neg (by simp [ht])
  cases h with
  | connected hphase =>
    rw [hleft, Boot.left, if_neg (by simp [Boot.afterConnect, ht])]
    simp only [hphase, Boot.afterConnect]
    omega
  | connectFailed hphase detail =>
    have := Boot.left_caught (o := o)
      (b := { b with connections := b.connections.connectFailed }) ht
      (workerConnectionError detail)
    rw [hleft, hphase]
    simp only [Boot.connectFails]
    omega
  | duplicated hphase =>
    have := Boot.left_declareNext (o := o) (b := { b with connections := b.connections.duplicated })
      ht o.limits
    rw [hleft, hphase]
    simp only [Boot.afterDuplicate]
    omega
  | duplicateFailed hphase detail =>
    have := Boot.left_caught (o := o) (b := { b with connections := b.connections.duplicateFailed })
      ht (workerConnectionError detail)
    rw [hleft, hphase]
    simp only [Boot.duplicateFails]
    omega
  | declared limit limits hphase r =>
    rw [hleft, hphase]
    cases r with
    | ok _ =>
      have := Boot.left_declareNext (o := o) ht limits
      simp only [Boot.afterDeclare, List.length_cons]
      omega
    | error e =>
      have := Boot.left_caught (o := o) ht e.rethrown
      simp only [Boot.afterDeclare, List.length_cons]
      omega
  | subscribed channel channels hphase =>
    have := Boot.left_subscribeNext (o := o)
      (b := { b with subscribedChannels := b.subscribedChannels ++ [channel] }) ht channels
    rw [hleft, hphase]
    simp only [Boot.afterSubscribe, List.length_cons]
    omega
  | subscribeFailed channels hphase detail =>
    have := Boot.left_caught (o := o) ht (workerConnectionError detail)
    rw [hphase] at hu
    have hpos := List.length_pos_iff.mpr hu.2.2.1
    rw [hleft, hphase]
    simp only
    omega
  | closed closing e hphase ok =>
    rw [hphase] at hu
    have hlt := Connections.closeNext_left hu.2 b.connections ok
    rw [hleft, hphase, Boot.left, if_neg (by simp [Boot.closeNext, ht])]
    by_cases hdone : (b.connections.closeNext ok closing).1 = .done
    · rw [hdone] at hlt
      simp only [Boot.closeNext, hdone, if_true]
      exact hlt
    · simp only [Boot.closeNext, hdone, if_false]
      exact hlt

namespace WorkerPool

variable {p p' : WorkerPool δ} {b b' : Boot δ} {t t' : Teardown δ} {k : ℕ} {o : PoolOptions}

/-- The turns that are left of a pool, at most, when nothing more is called on it. -/
def left (p : WorkerPool δ) : ℕ :=
  (p.boots.map (Boot.left p.options)).sum + (p.teardowns.map fun t => t.phase.left).sum

theorem of_length_le_one {α : Type} {l : List α} {x : α} {k : ℕ} (hl : l.length ≤ 1)
    (hk : l[k]? = some x) : k = 0 ∧ l = [x] := by
  cases l with
  | nil => cases hk
  | cons a l =>
    obtain rfl : l = [] := List.length_eq_zero_iff.mp (by simpa using hl)
    obtain ⟨rfl, rfl⟩ := of_singleton rfl hk
    exact ⟨rfl, rfl⟩

theorem left_through (hb : p.boots = [b]) (hthrough : b.through = true)
    (ht : p.teardowns = [t]) : p.left = t.phase.left := by
  have hzero : b.left p.options = 0 := if_pos hthrough
  simp [WorkerPool.left, hb, ht, hzero]

/-- Each turn of a teardown at work brings its end nearer. -/
theorem Stage.winds_left (h : p.Stage) (hk : p.teardowns[k]? = some t)
    (hne : t.phase ≠ .awaitsStart) (hns : ∀ result, t.phase ≠ .settled result)
    (hp' : ∀ b, p.boots = [b] → b.through = true → p.teardowns = [t] → p.held = some 0 →
      k = 0 → ∃ b' t', p'.boots = [b'] ∧ b'.through = true ∧ p'.teardowns = [t'] ∧
        t'.phase.left < t.phase.left) : p'.left < p.left := by
  obtain ⟨-, -, hh, hk0, ht, -, b, hb, -, hthrough, -⟩ := h.winds hk hne hns
  obtain ⟨b', t', hb', hthrough', ht', hlt⟩ := hp' b hb hthrough ht hh hk0
  rw [left_through hb hthrough ht, left_through hb' hthrough' ht']
  exact hlt

theorem left_mapRunners (p : WorkerPool δ) (j : Option ℕ) (f : Runner δ → Runner δ) :
    (p.mapRunners j f).left = p.left := by
  cases j with
  | none => rfl
  | some j =>
    have hmap : (p.boots.modify j fun b => { b with runners := b.runners.map f }).map
        (Boot.left p.options) = p.boots.map (Boot.left p.options) := by
      refine List.ext_getElem? fun i => ?_
      rw [List.getElem?_map, List.getElem?_map, List.getElem?_modify]
      cases p.boots[i]? with
      | none => rfl
      | some b =>
        simp only [Option.map_some]
        split <;> rfl
    simp only [WorkerPool.left, WorkerPool.mapRunners, hmap]

/-- Each turn of a pool brings it nearer to rest. -/
theorem Stage.turn_left (h : p.Stage) (hturn : Turn p p') : p'.left < p.left := by
  have hone := h.results.1
  have htwo := h.results.2.1
  cases hturn with
  | boot k b b' hk hs =>
    obtain ⟨-, rfl, hb, hu, hthrough⟩ := h.booting hk hs
    have hlt := hs.left hthrough hu
    have hafter : (p.afterBoot 0 b').left =
        b'.left p.options + (p.teardowns.map fun t => t.phase.left).sum := by
      unfold WorkerPool.afterBoot
      split <;> simp [WorkerPool.left, WorkerPool.setBoot, hb]
    rw [hafter]
    simp only [WorkerPool.left, hb, List.map_cons, List.map_nil, List.sum_cons, List.sum_nil]
    omega
  | started k b hk ht outcome hphase =>
    obtain ⟨rfl, hb⟩ := of_length_le_one hone hk
    have hleft : b.left p.options = 1 := by
      rw [Boot.left, if_neg (by simp [ht]), hphase]
    have hafter : (p.afterStart 0 b).left = (p.teardowns.map fun t => t.phase.left).sum := by
      simp [WorkerPool.left, WorkerPool.afterStart, WorkerPool.setBoot, hb, Boot.left]
    rw [hafter]
    simp only [WorkerPool.left, hb, List.map_cons, List.map_nil, List.sum_cons, List.sum_nil, hleft]
    omega
  | startAwaited k t hk hphase hstart =>
    obtain ⟨rfl, ht⟩ := of_length_le_one htwo hk
    have hset : ∀ t' : Teardown δ, t'.phase.left < 8 → (p.setTeardown 0 t').left < p.left := by
      intro t' hlt
      simp [WorkerPool.left, WorkerPool.setTeardown, ht, hphase, TeardownPhase.left] at hlt ⊢
      exact hlt
    unfold WorkerPool.beginTeardown
    split
    · exact hset { t with phase := .settled { mode := t.options.mode } } (Nat.zero_lt_succ 7)
    · rw [left_mapRunners]
      exact hset { t with boot := p.held, phase := .stops _ } (Nat.lt_succ_self 7)
  | stopped k t hk awaited hphase hloops =>
    apply h.winds_left hk (by simp [hphase]) (by simp [hphase])
    rintro b hb hthrough ht - rfl
    unfold WorkerPool.afterStops
    split
    · exact ⟨b, _, hb, hthrough, setTeardown_teardowns ht, by simp [hphase, TeardownPhase.left]⟩
    · exact ⟨b, _, hb, hthrough, setTeardown_teardowns ht, by simp [hphase, TeardownPhase.left]⟩
  | drained k t hk inFlight hphase timedOut hlength hdrains =>
    apply h.winds_left hk (by simp [hphase]) (by simp [hphase])
    rintro b hb hthrough ht - rfl
    exact ⟨b, _, hb, hthrough, setTeardown_teardowns ht, by simp [hphase, TeardownPhase.left]⟩
  | requeued k t hk timedOut inFlight hphase calls hcalls =>
    apply h.winds_left hk (by simp [hphase]) (by simp [hphase])
    rintro b hb hthrough ht hh rfl
    rw [WorkerPool.closeHeld, held_boot hh hb]
    refine ⟨{ b with connections := (b.connections.close p.options.channels).2 }, _,
      setBoot_boots hb, hthrough, setTeardown_teardowns ht, ?_⟩
    rw [hphase]
    exact Nat.lt_succ_of_le (b.connections.close_left p.options.channels)
  | closed k t hk closing result hphase hc ok =>
    apply h.winds_left hk (by simp [hphase]) (by simp [hphase])
    rintro b hb hthrough ht hh rfl
    rw [WorkerPool.closeHeldNext, held_boot hh hb]
    refine ⟨{ b with connections := (b.connections.closeNext ok closing).2 }, _,
      setBoot_boots hb, hthrough, setTeardown_teardowns ht, ?_⟩
    rw [hphase]
    exact Connections.closeNext_left hc b.connections ok
  | ended k t hk result hphase =>
    have hleft : (p.afterClose k t result).left =
        (p.setTeardown k { t with phase := .settled result }).left := by
      unfold WorkerPool.afterClose
      exact left_mapRunners _ t.boot Runner.finalize
    rw [hleft]
    apply h.winds_left hk (by simp [hphase]) (by simp [hphase])
    rintro b hb hthrough ht - rfl
    exact ⟨b, _, hb, hthrough, setTeardown_teardowns ht, by simp [hphase, TeardownPhase.left,
      CloseAwait.left]⟩

/-- What a pool can wait for besides its own turns: a claim loop that was told to
stop, or the jobs of a drain without a timeout. -/
def WaitsForRunners (p : WorkerPool δ) : Prop :=
  ∃ t ∈ p.teardowns,
    (∃ awaited, t.phase = .stops awaited) ∧
      (∃ r ∈ p.runnersOf t.boot, r.state = .stopping ∧ r.loop ≠ .exited) ∨
    (∃ inFlight, t.phase = .drains inFlight) ∧ t.options.timeout = false ∧
      ∃ r ∈ p.runnersOf t.boot, r.inFlight ≠ []

theorem Boot.Underway.steps (hu : b.Underway o) : ∃ b', BootStep o b b' := by
  obtain ⟨-, hu⟩ := hu
  cases hphase : b.phase with
  | connects => exact ⟨_, .connected hphase⟩
  | duplicates => exact ⟨_, .duplicated hphase⟩
  | declares limits =>
    rw [hphase] at hu
    cases limits with
    | nil => exact absurd rfl hu.2.2.1
    | cons limit limits => exact ⟨_, .declared limit limits hphase (.ok ())⟩
  | subscribes channels =>
    rw [hphase] at hu
    cases channels with
    | nil => exact absurd rfl hu.2.2.1
    | cons channel channels => exact ⟨_, .subscribed channel channels hphase⟩
  | closes closing e => exact ⟨_, .closed closing e hphase true⟩
  | settled outcome =>
    rw [hphase] at hu
    exact hu.elim

/-- A teardown that waits for a boot that is through goes on. -/
theorem Undisturbed.turns (h : p.Undisturbed b) (hb : p.boots = [b]) (hthrough : b.through = true) :
    p.AtRest ∨ ∃ p', Turn p p' := by
  rcases h with ⟨ht, -⟩ | ⟨t, ht, -, hphase, hp⟩
  · refine Or.inl ⟨fun b' hmem => ?_, fun t hmem => ?_⟩
    · rw [hb, List.mem_singleton] at hmem
      rw [hmem]
      exact hthrough
    · rw [ht] at hmem
      cases hmem
  · refine Or.inr ⟨_, .startAwaited 0 t (by rw [ht]; rfl) hphase fun j hj => ?_⟩
    refine ⟨b, ?_, hthrough⟩
    rcases hp with hp | ⟨hp, -⟩
    · rw [hp, Option.some.injEq] at hj
      rw [hb, ← hj]
      rfl
    · rw [hp] at hj
      cases hj

theorem Ended.atRest (h : p.Ended) (hb : p.boots = [b]) (hthrough : b.through = true) :
    p.AtRest := by
  obtain ⟨t, result, ht, -, hphase, -⟩ := h
  refine ⟨fun b' hmem => ?_, fun t' hmem => ⟨result, ?_⟩⟩
  · rw [hb, List.mem_singleton] at hmem
    rw [hmem]
    exact hthrough
  · rw [ht, List.mem_singleton] at hmem
    rw [hmem]
    exact hphase

/-- A drain ends: each runner has settled its jobs, or its timer can fire. -/
theorem drains_end (inFlight : List (List ℕ)) {timeout : Bool} {runners : List (Runner δ)}
    (h : timeout = true ∨ ∀ r ∈ runners, r.inFlight = []) :
    ∃ timedOut : List Bool, timedOut.length = inFlight.length ∧
      ∀ (i : ℕ) (r : Runner δ) (serials : List ℕ) (d : Bool), runners[i]? = some r →
        inFlight[i]? = some serials → timedOut[i]? = some d → Drains timeout r serials d := by
  refine ⟨inFlight.map fun serials => timeout && !serials.isEmpty, by simp, ?_⟩
  intro i r serials d hr hs hd
  rw [List.getElem?_map, hs] at hd
  cases hd
  unfold WorkerPool.Drains
  split
  · rename_i htrue
    simpa using htrue
  · rename_i hfalse
    intro e he
    rcases h with h | h
    · have hempty : serials = [] := by simpa [h] using hfalse
      simp [hempty]
    · rw [h r (List.mem_of_getElem? hr)] at he
      cases he

/-- A pool is at rest, or has a turn, or waits for its runners. -/
theorem Stage.turns (h : p.Stage) : p.AtRest ∨ (∃ p', Turn p p') ∨ p.WaitsForRunners := by
  have hzero : ∀ {b}, p.boots = [b] → p.boots[0]? = some b := fun hb => by rw [hb]; rfl
  have hfirst : ∀ {t}, p.teardowns = [t] → p.teardowns[0]? = some t := fun ht => by rw [ht]; rfl
  have hassoc : (p.AtRest ∨ ∃ p', Turn p p') →
      p.AtRest ∨ (∃ p', Turn p p') ∨ p.WaitsForRunners := by
    rintro (hr | ht)
    · exact Or.inl hr
    · exact Or.inr (Or.inl ht)
  cases h with
  | idle hs hb ht | unstarted hs hb ht =>
    refine Or.inl ⟨fun b hmem => ?_, fun t hmem => ?_⟩
    · rw [hb] at hmem
      cases hmem
    · rw [ht] at hmem
      cases hmem
  | starting hs b hb hu =>
    obtain ⟨b', hstep⟩ := Boot.Underway.steps hu
    exact Or.inr (Or.inl ⟨_, .boot 0 b b' (hzero hb) hstep⟩)
  | failed hs b hb e hf _ ht =>
    by_cases hthrough : b.through = true
    · rcases ht with ht | ht
      · exact hassoc (Undisturbed.turns ht hb hthrough)
      · exact Or.inl (Ended.atRest ht hb hthrough)
    · exact Or.inr (Or.inl ⟨_, .started 0 b (hzero hb) (by simpa using hthrough) _ hf.1⟩)
  | running hs b hb hsucc _ ht =>
    by_cases hthrough : b.through = true
    · exact hassoc (Undisturbed.turns ht hb hthrough)
    · exact Or.inr (Or.inl ⟨_, .started 0 b (hzero hb) (by simpa using hthrough) _ hsucc.1⟩)
  | stopped hs b hb _ hthrough _ _ _ _ ht => exact Or.inl (Ended.atRest ht hb hthrough)
  | stopping hs b hb _ _ _ t ht _ hw =>
    have hk := hfirst ht
    obtain ⟨hboot, hw⟩ := hw
    have hrunners : p.runnersOf t.boot = b.runners := by rw [hboot, runnersOf_zero hb]
    cases hphase : t.phase with
    | awaitsStart | settled result =>
      rw [hphase] at hw
      exact hw.elim
    | stops awaited =>
      rw [hphase] at hw
      by_cases hloops : ∀ r ∈ b.runners, r.loop = .exited
      · refine Or.inr (Or.inl ⟨_, .stopped 0 t hk awaited hphase fun i r hr _ => ?_⟩)
        rw [hrunners] at hr
        exact hloops r (List.mem_of_getElem? hr)
      · obtain ⟨r, hr, hl⟩ : ∃ r ∈ b.runners, r.loop ≠ .exited := by
          by_contra hno
          exact hloops fun r hr => not_not.mp fun hl => hno ⟨r, hr, hl⟩
        refine Or.inr (Or.inr ⟨t, by simp [ht], Or.inl ⟨⟨awaited, hphase⟩, r, ?_, ?_, hl⟩⟩)
        · rwa [hrunners]
        · exact (hw.2.1 r hr).2
    | drains inFlight =>
      by_cases hend : t.options.timeout = true ∨ ∀ r ∈ p.runnersOf t.boot, r.inFlight = []
      · obtain ⟨timedOut, hlength, hdrains⟩ := drains_end inFlight hend
        exact Or.inr (Or.inl ⟨_, .drained 0 t hk inFlight hphase timedOut hlength hdrains⟩)
      · have htimeout : t.options.timeout = false := by
          simpa using fun hy => hend (Or.inl hy)
        obtain ⟨r, hr, hne⟩ : ∃ r ∈ p.runnersOf t.boot, r.inFlight ≠ [] := by
          by_contra hno
          exact hend (Or.inr fun r hr => not_not.mp fun hl => hno ⟨r, hr, hl⟩)
        exact Or.inr (Or.inr ⟨t, by simp [ht],
          Or.inr ⟨⟨inFlight, hphase⟩, htimeout, r, hr, hne⟩⟩)
    | requeues timedOut inFlight =>
      refine Or.inr (Or.inl ⟨_, .requeued 0 t hk timedOut inFlight hphase
        (inFlight.map fun entries => entries.map fun e => (e, none)) ?_⟩)
      rw [List.map_map]
      refine (List.map_congr_left fun entries _ => ?_).trans (List.map_id inFlight)
      exact List.map_map.trans (List.map_id entries)
    | closes closing result =>
      by_cases hdone : closing = .done
      · subst hdone
        exact Or.inr (Or.inl ⟨_, .ended 0 t hk result hphase⟩)
      · exact Or.inr (Or.inl ⟨_, .closed 0 t hk closing result hphase hdone true⟩)

/-- A step between two calls on the pool. A turn of the pool shows, an input of
a runner does not. -/
inductive Uncalled (p : WorkerPool δ) : List Unit → WorkerPool δ → Prop
  | turn (p' : WorkerPool δ) (h : Turn p p') : Uncalled p [()] p'
  | runner (k i : ℕ) (b : Boot δ) (hb : p.boots[k]? = some b) (r : Runner δ)
      (hr : b.runners[i]? = some r) (x : RunnerInput δ) (hx : r.Admits x) (ho : Outside x) :
    Uncalled p [] (p.setBoot k { b with runners := b.runners.set i (r.step x) })

theorem Uncalled.step {es : List Unit} (h : Uncalled p es p') : Step p p' := by
  cases h with
  | turn _ h => exact .turn _ h
  | runner k i b hb r hr x hx ho => exact .runner k i b hb r hr x hx ho

/-- An input of a runner leaves the pool as many turns as before. -/
theorem Stage.runner_left (h : p.Stage) (hk : p.boots[k]? = some b) (runners : List (Runner δ)) :
    (p.setBoot k { b with runners }).left = p.left := by
  obtain ⟨rfl, hb⟩ := of_length_le_one h.results.1 hk
  simp only [WorkerPool.left, WorkerPool.setBoot, hb, List.set_cons_zero, List.map_cons,
    List.map_nil]
  rfl

/-- The step lemma between two calls: what shows is paid for. -/
theorem Stage.uncalled_left {es : List Unit} (h : p.Stage) (hs : Uncalled p es p') :
    es.length + p'.left ≤ p.left := by
  cases hs with
  | turn _ hturn =>
    have := h.turn_left hturn
    simp only [List.length_singleton]
    omega
  | runner k i b hk r _ x =>
    rw [h.runner_left hk]
    exact Nat.le_of_eq (Nat.zero_add _)

theorem turn_teardowns (hturn : Turn p p') : p'.teardowns.length = p.teardowns.length := by
  cases hturn with
  | boot =>
    unfold WorkerPool.afterBoot
    split <;> rfl
  | started => rfl
  | startAwaited =>
    unfold WorkerPool.beginTeardown WorkerPool.mapRunners
    split
    · exact List.length_set
    · split <;> exact List.length_set
  | stopped =>
    unfold WorkerPool.afterStops
    split <;> exact List.length_set
  | drained => exact List.length_set
  | requeued =>
    unfold WorkerPool.closeHeld
    split <;> exact List.length_set
  | closed =>
    unfold WorkerPool.closeHeldNext
    split <;> exact List.length_set
  | ended =>
    unfold WorkerPool.afterClose WorkerPool.mapRunners
    split <;> exact List.length_set

/-- Each boot and each teardown pays for its turns when it begins. -/
def Paid (p : WorkerPool δ) : Prop :=
  p.left ≤ p.boots.length * (6 + p.options.channels.length + p.options.limits.length) +
    p.teardowns.length * 8

theorem Paid.step (h : p.Paid) (hp : p.Stage) (hstep : Step p p') : p'.Paid := by
  cases hstep with
  | start =>
    unfold WorkerPool.start
    split
    · exact h
    · split
      · exact h
      · split
        · exact h
        · have hnew : Boot.left p.options ({} : Boot δ) =
              6 + p.options.channels.length + p.options.limits.length := rfl
          simp only [Paid, WorkerPool.left, List.map_append, List.map_singleton, List.sum_append,
            List.sum_singleton, List.length_append, List.length_singleton, hnew, Nat.add_mul,
            Nat.one_mul] at h ⊢
          omega
  | shutdown options =>
    unfold WorkerPool.shutdown
    split
    · exact h
    · split
      · exact h
      · simp only [Paid, WorkerPool.left, List.map_append, List.map_singleton, List.sum_append,
          List.sum_singleton, List.length_append, List.length_singleton, TeardownPhase.left] at h ⊢
        omega
  | turn _ hturn =>
    obtain ⟨-, hboots, hoptions, -⟩ := hp.turn_forward hturn
    have := hp.turn_left hturn
    unfold Paid at h ⊢
    rw [hboots, hoptions, turn_teardowns hturn]
    omega
  | runner k i b hk r _ x =>
    unfold Paid at h ⊢
    rw [hp.runner_left hk]
    simpa [WorkerPool.setBoot] using h

theorem Reachable.paid (h : Reachable o p) : p.Paid := by
  induction h with
  | refl => exact Nat.le_add_left _ _
  | tail hrun hstep ih => exact ih.step (Reachable.stage hrun) hstep

/-- The most turns that a pool ever has left: two for each definition, and fourteen. -/
theorem Reachable.left_le (h : Reachable o p) : p.left ≤ 2 * o.definitions.length + 14 := by
  have hpaid := h.paid
  obtain ⟨hboots, hteardowns, -⟩ := h.stage.results
  have hlimits : o.limits.length ≤ o.definitions.length := List.length_filterMap_le _ _
  have hchannels : o.channels.length = o.definitions.length := List.length_map _
  rw [Paid, h.options, hchannels] at hpaid
  have := Nat.mul_le_mul_right (6 + o.definitions.length + o.limits.length) hboots
  omega

/-- Between two calls on it a pool takes a bounded number of turns: two for each
definition and fourteen at most, and each turn leaves fewer. In each state its
promises have all settled, or it has a turn, or it waits for a claim loop that was
told to stop, or for jobs in a drain without a timeout. -/
theorem a_pool_waits_for_its_runners_only (h : Reachable o p) :
    (∀ es p', Reaches Uncalled p es p' → es.length + p'.left ≤ p.left) ∧
    p.left ≤ 2 * o.definitions.length + 14 ∧
    (p.AtRest ∨ (∃ p', Turn p p') ∨ p.WaitsForRunners) := by
  refine ⟨fun es p' hrun => ?_, h.left_le, h.stage.turns⟩
  have hinv : p'.Stage ∧ es.length + p'.left ≤ p.left := by
    induction hrun with
    | start => exact ⟨h.stage, by simp⟩
    | next _ hs ih =>
      obtain ⟨hstage, hle⟩ := ih
      have := hstage.uncalled_left hs
      refine ⟨hstage.step hs.step, ?_⟩
      rw [List.length_append]
      omega
  exact hinv.2

/-- The pool has no turn of its own while the claim loop has not ended. -/
theorem stoppingPool_has_no_turn {p : WorkerPool String} : ¬ Turn stoppingPool p := by
  intro hturn
  cases hturn with
  | boot k b b' hb hs =>
    obtain ⟨-, rfl⟩ := of_singleton rfl hb
    exact hs.unsettled (.ok ()) rfl
  | started k b hb ht =>
    obtain ⟨-, rfl⟩ := of_singleton rfl hb
    cases ht
  | stopped k t ht awaited hphase hloops =>
    obtain ⟨-, rfl⟩ := of_singleton rfl ht
    cases hphase
    have := hloops 0 _ rfl rfl
    revert this
    decide +kernel
  | startAwaited k t ht hphase | drained k t ht inFlight hphase | requeued k t ht _ _ hphase
  | closed k t ht _ _ hphase | ended k t ht _ hphase =>
    obtain ⟨-, rfl⟩ := of_singleton rfl ht
    cases hphase

/-- A forced shutdown waits for the claim loop, which has not seen the stop. -/
theorem stoppingPool_waits_for_its_runner : stoppingPool.left = 7 ∧ stoppingPool.WaitsForRunners ∧
    ∀ es p', Reaches Uncalled stoppingPool es p' → es.length ≤ 7 := by
  obtain ⟨hrun, -, hwaits⟩ := a_pool_waits_for_its_runners_only stoppingPool_reachable
  refine ⟨rfl, ?_, fun es p' h => Nat.le_trans (Nat.le_add_right _ _) (hrun es p' h)⟩
  rcases hwaits with hrest | ⟨p', hturn⟩ | hwaits
  · obtain ⟨result, hphase⟩ := hrest.2 _ (List.mem_singleton.mpr rfl)
    cases hphase
  · exact (stoppingPool_has_no_turn hturn).elim
  · exact hwaits
end WorkerPool

end Panqueue
