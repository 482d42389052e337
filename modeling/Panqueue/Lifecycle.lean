-- The lifecycle of a worker pool: it boots once and ends once, whatever is
-- called on it in whatever order, and what it opened it closes once.
import Panqueue.Handshake
import Panqueue.WorkerPool

namespace Panqueue

variable {δ : Type}

/-! ## Runners under a pool -/

namespace Runner

variable {r : Runner δ} {x : RunnerInput δ}

/-- Only the pool changes the state of its runners. -/
theorem state_outside (hn : r.Numbered) (hx : r.Admits x) (ho : WorkerPool.Outside x) :
    (r.step x).state = r.state := by
  cases x with
  | resume => exact (sameJobs_resume r).state
  | claimReply reply =>
    obtain ⟨n, hl, -⟩ := hx
    simp only [Runner.step, hl]
    exact (hn.onClaimReply n reply).2.2
  | wake => exact (sameJobs_wake r).state
  | pollTimer => exact (sameJobs_pollTimer r).state
  | handlerSettled serial settled => rfl
  | acknowledged e reply => exact (hn.acknowledged e reply).2.2
  | rejected e => exact (hn.settle e).2.2
  | start | stopClaiming | finalize => exact ho.elim

/-- A claim loop that has ended stays so, and nothing new comes in flight. -/
theorem exited_step (h : r.Reachable) (hl : r.loop = .exited) (hx : r.Admits x) :
    (r.step x).loop = .exited ∧
      ∀ e ∈ (r.step x).inFlight, e.serial ∈ r.inFlight.map InFlightEntry.serial := by
  obtain ⟨N, hb, hn, hf⟩ := h.books
  have hreply : ∀ reply, x ≠ .claimReply reply := by
    rintro reply rfl
    obtain ⟨n, hc, -⟩ := hx
    rw [hl] at hc
    cases hc
  refine ⟨(attentive_step hb hf hreply).stays hl trivial, fun e he => ?_⟩
  have hentry : (e.job, e.serial) ∈ r.entries := by
    have hmem := mem_entries he
    cases x with
    | acknowledged e' reply =>
      rw [Runner.step, acknowledged_entries hx.2] at hmem
      exact List.mem_of_mem_filter hmem
    | rejected e' =>
      rw [Runner.step, Runner.rejected, settle_entries] at hmem
      exact List.mem_of_mem_filter hmem
    | claimReply reply => exact absurd rfl (hreply reply)
    | _ =>
      rw [step_entries] at hmem
      · exact hmem
      · trivial
  obtain ⟨e', he', heq⟩ := List.mem_map.mp hentry
  rw [Prod.mk.injEq] at heq
  exact List.mem_map.mpr ⟨e', he', heq.2⟩

theorem state_stopClaiming (hs : r.state = .running) : r.stopClaiming.state = .stopping := by
  rw [Runner.stopClaiming, if_pos hs]
  split <;> exact (sameJobs_wake _).state

end Runner

/-! ## Connections -/

namespace WorkerConnection

variable {c : WorkerConnection}

/-- The raw client is connected, and no one disconnected it. -/
def Open (c : WorkerConnection) : Prop :=
  c.raw = .connected ∧ c.client = true ∧ c.disconnects = 0

/-- The raw client did not connect. -/
def Failed (c : WorkerConnection) : Prop :=
  c.raw = .failed ∧ c.client = false ∧ c.disconnects = 0

/-- The raw client was disconnected once. -/
def Shut (c : WorkerConnection) : Prop :=
  c.disconnects = 1 ∧ (c.raw = .disconnected ∨ c.raw = .disconnecting)

theorem open_connected : (connected {}).Open := ⟨rfl, rfl, rfl⟩

theorem Failed.disconnect (h : c.Failed) : c.disconnect = c := by
  rw [WorkerConnection.disconnect, h.2.1]
  rfl

theorem Open.disconnect (h : c.Open) : c.disconnect.Shut := by
  rw [WorkerConnection.disconnect, if_pos h.2.1]
  exact ⟨by simp [h.2.2], Or.inr rfl⟩

theorem Failed.disconnected (h : c.Failed) (ok : Bool) : c.disconnected ok = c := by
  rw [WorkerConnection.disconnected, h.2.1, if_neg (by simp)]

theorem Shut.disconnected (h : c.Shut) (ok : Bool) : (c.disconnected ok).Shut := by
  unfold WorkerConnection.disconnected
  split
  · exact ⟨h.1, Or.inl rfl⟩
  · exact h

end WorkerConnection

namespace Connections

variable {c : Connections} {channels : List String} {closing : CloseAwait} {ok : Bool}

/-- Both connections are open. -/
def Live (c : Connections) : Prop :=
  c.attached = true ∧ c.command.Open ∧ ∃ s, c.subscriber = some s ∧ s.Open

/-- Each connection is open, or never was. -/
def Closable (c : Connections) : Prop :=
  (c.command.Open ∨ c.command.Failed) ∧
    ∀ s, c.subscriber = some s → s.Open ∧ c.attached = true ∨ s.Failed ∧ c.attached = false

/-- Each connection that was open was disconnected once. -/
def Closed (c : Connections) : Prop :=
  (c.command.Shut ∨ c.command.Failed) ∧ ∀ s, c.subscriber = some s → s.Shut ∨ s.Failed

/-- What `closeConnections` has done at each of its awaits. -/
def At (c : Connections) : CloseAwait → Prop
  | .unsubscribes => c.Closable ∧ c.attached = true
  | .disconnectsSubscriber =>
    (c.command.Open ∨ c.command.Failed) ∧ ∀ s, c.subscriber = some s → s.Shut ∨ s.Failed
  | .disconnectsCommand => c.Closed
  | .done => c.Closed

theorem Live.closable (h : c.Live) : c.Closable := by
  obtain ⟨ha, hc, s, hs, ho⟩ := h
  refine ⟨Or.inl hc, fun s' hs' => ?_⟩
  rw [hs, Option.some.injEq] at hs'
  subst hs'
  exact Or.inl ⟨ho, ha⟩

theorem closeCommand_at (hc : c.command.Open ∨ c.command.Failed)
    (hs : ∀ s, c.subscriber = some s → s.Shut ∨ s.Failed) :
    c.closeCommand.2.At c.closeCommand.1 := by
  refine ⟨?_, hs⟩
  rcases hc with hc | hc
  · exact Or.inl hc.disconnect
  · right
    simpa only [closeCommand, hc.disconnect] using hc

theorem Closable.closeSubscriber (h : c.Closable) :
    c.closeSubscriber.2.At c.closeSubscriber.1 := by
  refine ⟨h.1, fun s hs => ?_⟩
  obtain ⟨s, hs', rfl⟩ := Option.map_eq_some_iff.mp hs
  rcases h.2 s hs' with ⟨ho, -⟩ | ⟨hf, -⟩
  · exact Or.inl ho.disconnect
  · right
    rwa [hf.disconnect]

theorem Closable.close (h : c.Closable) (channels : List String) :
    (c.close channels).2.At (c.close channels).1 := by
  unfold Connections.close
  split
  · rename_i ha
    split
    · exact h.closeSubscriber
    · exact ⟨h, ha⟩
  · rename_i ha
    refine closeCommand_at h.1 fun s hs => ?_
    rcases h.2 s hs with ⟨-, ht⟩ | ⟨hf, -⟩
    · exact absurd ht ha
    · exact Or.inr hf

theorem At.closeNext (h : c.At closing) (ok : Bool) :
    (c.closeNext ok closing).2.At (c.closeNext ok closing).1 := by
  cases closing with
  | unsubscribes => exact h.1.closeSubscriber
  | disconnectsSubscriber =>
    refine closeCommand_at h.1 fun s hs => ?_
    obtain ⟨s, hs', rfl⟩ := Option.map_eq_some_iff.mp hs
    rcases h.2 s hs' with hs | hf
    · exact Or.inl (hs.disconnected ok)
    · right
      rwa [hf.disconnected]
  | disconnectsCommand =>
    refine ⟨?_, h.2⟩
    rcases h.1 with hc | hf
    · exact Or.inl (hc.disconnected ok)
    · right
      simpa only [Connections.closeNext, hf.disconnected] using hf
  | done => exact h

theorem close_ne_done : (c.close channels).1 ≠ .done := by
  unfold Connections.close
  split
  · split <;> exact fun h => by cases h
  · exact fun h => by cases h

end Connections

/-! ## The boot -/

/-- Runners in one state of their lifecycle. -/
def AllIn (s : WorkerState) (runners : List (Runner δ)) : Prop :=
  ∀ r ∈ runners, r.Reachable ∧ r.state = s

theorem AllIn.map {s s' : WorkerState} {runners : List (Runner δ)} (h : AllIn s runners)
    {x : RunnerInput δ} (hx : ∀ r : Runner δ, r.Admits x)
    (hs : ∀ r : Runner δ, r.state = s → (r.step x).state = s') :
    AllIn s' (runners.map fun r => r.step x) := by
  intro r' hr'
  obtain ⟨r, hr, rfl⟩ := List.mem_map.mp hr'
  obtain ⟨hreach, hstate⟩ := h r hr
  exact ⟨hreach.step (hx r), hs r hstate⟩

/-- The runners that a pool makes are idle. -/
theorem newRunners_ok (o : PoolOptions) (definitions : List WorkerDefinition) :
    ∃ runners : List (Runner δ), o.newRunners δ definitions = .ok runners ∧
      AllIn .idle runners ∧ runners.length = definitions.length := by
  induction definitions with
  | nil => exact ⟨[], rfl, fun r hr => absurd hr List.not_mem_nil, rfl⟩
  | cons d definitions ih =>
    obtain ⟨runners, hnew, hidle, hlength⟩ := ih
    have hsem : Semaphore.new (ω := Unit) d.options.concurrency =
        .ok { max := d.options.concurrency } :=
      if_neg (Nat.not_lt.mpr d.one_le_concurrency)
    obtain ⟨r, hr, hstate⟩ : ∃ r : Runner δ,
        Runner.new d.options (o.retention d.queueId) = .ok r ∧ r.state = .idle := by
      rw [Runner.new, hsem]
      exact ⟨_, rfl, rfl⟩
    refine ⟨r :: runners, ?_, ?_, by simp [hlength]⟩
    · rw [PoolOptions.newRunners, hr, hnew]
      rfl
    · intro x hx
      rcases List.mem_cons.mp hx with rfl | hx
      · exact ⟨⟨d.options, o.retention d.queueId, x, [], hr, .start⟩, hstate⟩
      · exact hidle x hx

/-- Runners that are idle all start. -/
theorem startRunners_idle {runners : List (Runner δ)} (h : AllIn .idle runners) :
    startRunners runners = (runners.map fun r => r.step .start, .ok ()) := by
  induction runners with
  | nil => rfl
  | cons r runners ih =>
    have hr := (h r List.mem_cons_self).2
    rw [startRunners, if_pos hr, ih fun x hx => h x (List.mem_cons_of_mem _ hx)]
    rfl

theorem Runner.state_start {r : Runner δ} (hs : r.state = .idle) :
    (r.step .start).state = .running := by
  rw [Runner.step, Runner.start, if_pos hs]
  exact (sameJobs_loopTop _).state

namespace Boot

variable {o : PoolOptions} {b b' : Boot δ}

/-- What a boot has done at each of its awaits. No runner was started. -/
def Underway (o : PoolOptions) (b : Boot δ) : Prop :=
  AllIn .idle b.runners ∧
  match b.phase with
  | .connects => b.connections = {} ∧ b.subscribedChannels = []
  | .duplicates =>
    b.connections.command.Open ∧ b.connections.subscriber = some {} ∧
      b.connections.attached = false ∧ b.subscribedChannels = []
  | .declares limits =>
    b.connections.Live ∧ b.subscribedChannels = [] ∧ limits ≠ [] ∧
      ∃ declared, o.limits = declared ++ limits
  | .subscribes channels =>
    b.connections.Live ∧ b.subscribedChannels ++ channels = o.channels ∧ channels ≠ [] ∧
      b.runners.length = o.definitions.length
  | .closes closing _ => b.connections.At closing ∧ closing ≠ .done
  | .settled _ => False

/-- A boot that threw has closed what it opened, and started no runner. -/
def Fails (b : Boot δ) (e : PoolError) : Prop :=
  b.phase = .settled (.error e) ∧ b.connections.Closed ∧ AllIn .idle b.runners

/-- A boot that succeeded holds both connections, all subscriptions and running runners. -/
def Succeeds (o : PoolOptions) (b : Boot δ) : Prop :=
  b.phase = .settled (.ok ()) ∧ b.connections.Live ∧ AllIn .running b.runners ∧
    b.subscribedChannels = o.channels ∧ b.runners.length = o.definitions.length

/-- A boot after one of its awaits. -/
def Proceeds (o : PoolOptions) (b : Boot δ) : Prop :=
  b.through = false ∧ (b.Underway o ∨ (∃ e, b.Fails e) ∨ b.Succeeds o)

theorem caught_proceeds (ht : b.through = false) (hc : b.connections.Closable)
    (hr : AllIn .idle b.runners) (e : PoolError) : (b.caught e).Proceeds o :=
  ⟨ht, Or.inl ⟨hr, hc.close _, Connections.close_ne_done⟩⟩

theorem subscribeNext_proceeds (ht : b.through = false) (hl : b.connections.Live)
    (hr : AllIn .idle b.runners) (hn : b.runners.length = o.definitions.length)
    {channels : List String} (hs : b.subscribedChannels ++ channels = o.channels) :
    (b.subscribeNext channels).Proceeds o := by
  cases channels with
  | nil =>
    simp only [Boot.subscribeNext, startRunners_idle hr]
    rw [List.append_nil] at hs
    refine ⟨ht, Or.inr (Or.inr ⟨rfl, hl, ?_, hs, by simpa using hn⟩)⟩
    exact hr.map (fun _ => trivial) fun _ => Runner.state_start
  | cons channel channels => exact ⟨ht, Or.inl ⟨hr, hl, hs, List.cons_ne_nil _ _, hn⟩⟩

theorem attach_proceeds (ht : b.through = false) (hl : b.connections.Live)
    (hs : b.subscribedChannels = []) : (b.attach o).Proceeds o := by
  obtain ⟨runners, hnew, hidle, hlength⟩ := newRunners_ok (δ := δ) o o.definitions
  rw [Boot.attach, hnew]
  exact subscribeNext_proceeds (b := { b with runners }) ht hl hidle hlength (by simp [hs])

theorem declareNext_proceeds (ht : b.through = false) (hl : b.connections.Live)
    (hr : AllIn .idle b.runners) (hs : b.subscribedChannels = [])
    {limits : List (String × QueueConcurrencyLimit)}
    (hd : ∃ declared, o.limits = declared ++ limits) : (b.declareNext o limits).Proceeds o := by
  cases limits with
  | nil => exact attach_proceeds ht hl hs
  | cons limit limits => exact ⟨ht, Or.inl ⟨hr, hl, hs, List.cons_ne_nil _ _, hd⟩⟩

end Boot

/-- The step lemma of a boot. -/
theorem BootStep.proceeds {o : PoolOptions} {b b' : Boot δ} (h : BootStep o b b')
    (ht : b.through = false) (hb : b.Underway o) : b'.Proceeds o := by
  obtain ⟨hr, hb⟩ := hb
  cases h with
  | connected hphase =>
    rw [hphase] at hb
    obtain ⟨hc, hs⟩ := hb
    refine ⟨ht, Or.inl ⟨hr, ?_, rfl, ?_, hs⟩⟩
    · simp only [Boot.afterConnect, hc]
      exact WorkerConnection.open_connected
    · simp only [Boot.afterConnect, hc, Connections.connected]
  | connectFailed hphase detail =>
    rw [hphase] at hb
    obtain ⟨hc, -⟩ := hb
    have hclosable : b.connections.connectFailed.Closable := by
      rw [hc]
      exact ⟨Or.inr ⟨rfl, rfl, rfl⟩, fun s hs => by cases hs⟩
    exact Boot.caught_proceeds (b := { b with connections := b.connections.connectFailed }) ht
      hclosable hr _
  | duplicated hphase =>
    rw [hphase] at hb
    obtain ⟨hc, hsub, -, hs⟩ := hb
    have hlive : b.connections.duplicated.Live :=
      ⟨rfl, hc, _, by rw [Connections.duplicated, hsub]; rfl, ⟨rfl, rfl, rfl⟩⟩
    exact Boot.declareNext_proceeds (b := { b with connections := b.connections.duplicated }) ht
      hlive hr hs ⟨[], rfl⟩
  | duplicateFailed hphase detail =>
    rw [hphase] at hb
    obtain ⟨hc, hsub, ha, -⟩ := hb
    have hclosable : b.connections.duplicateFailed.Closable := by
      refine ⟨Or.inl hc, fun s hs => Or.inr ⟨?_, ha⟩⟩
      rw [Connections.duplicateFailed, hsub] at hs
      cases hs
      exact ⟨rfl, rfl, rfl⟩
    exact Boot.caught_proceeds (b := { b with connections := b.connections.duplicateFailed }) ht
      hclosable hr _
  | declared limit limits hphase r =>
    rw [hphase] at hb
    obtain ⟨hl, hs, -, declared, hd⟩ := hb
    cases r with
    | ok _ => exact Boot.declareNext_proceeds ht hl hr hs ⟨declared ++ [limit], by simp [hd]⟩
    | error e => exact Boot.caught_proceeds ht hl.closable hr _
  | subscribed channel channels hphase =>
    rw [hphase] at hb
    obtain ⟨hl, hs, -, hn⟩ := hb
    exact Boot.subscribeNext_proceeds
      (b := { b with subscribedChannels := b.subscribedChannels ++ [channel] }) ht hl hr hn
      (by simpa using hs)
  | subscribeFailed channels hphase detail =>
    rw [hphase] at hb
    exact Boot.caught_proceeds ht hb.1.closable hr _
  | closed closing e hphase ok =>
    rw [hphase] at hb
    have hat := hb.1.closeNext ok
    by_cases hdone : (b.connections.closeNext ok closing).1 = .done
    · rw [hdone] at hat
      refine ⟨ht, Or.inr (Or.inl ⟨e, ?_, hat, hr⟩)⟩
      simp only [Boot.closeNext, hdone, if_true]
    · refine ⟨ht, Or.inl ⟨hr, ?_⟩⟩
      simp only [Boot.closeNext, hdone, if_false]
      exact ⟨hat, hdone⟩

theorem BootStep.unsettled {o : PoolOptions} {b b' : Boot δ} (h : BootStep o b b')
    (outcome : Except PoolError Unit) : b.phase ≠ .settled outcome := by
  intro hs
  cases h with
  | connected hphase | connectFailed hphase | duplicated hphase | duplicateFailed hphase
  | declared _ _ hphase | subscribed _ _ hphase | subscribeFailed _ hphase
  | closed _ _ hphase =>
    rw [hs] at hphase
    cases hphase

/-! ## The teardown -/

/-- Runners in one state whose claim loops have ended. -/
def AllExited (s : WorkerState) (runners : List (Runner δ)) : Prop :=
  ∀ r ∈ runners, r.Reachable ∧ r.state = s ∧ r.loop = .exited

/-- What a result says of the options of its shutdown. -/
structure ShutdownResult.Fits (result : ShutdownResult) (options : ShutdownOptions) : Prop where
  mode : result.mode = options.mode
  timedOut : result.timedOut = true → options.mode = .drain ∧ options.timeout = true
  requeued : result.requeued ≤ result.unfinishedJobs
  drained : options.mode = .drain → result.timedOut = false → result.unfinishedJobs = 0

theorem ShutdownResult.fits_zero (options : ShutdownOptions) :
    ShutdownResult.Fits { mode := options.mode } options :=
  ⟨rfl, fun h => absurd h Bool.false_ne_true, Nat.le_refl 0, fun _ _ => rfl⟩

/-- The promise of the start call while its `finally` is still to run. -/
def Boot.promise (b : Boot δ) : Option ℕ := if b.through then none else some 0

namespace Teardown

/-- The teardown awaits the start promise, or has none to await. -/
def Waits (t : Teardown δ) (b : Boot δ) : Prop :=
  t.phase = .awaitsStart ∧ (t.startPromise = some 0 ∨ t.startPromise = none ∧ b.through = true)

/-- After a drain that was in time, no job is in flight. -/
def Drained (t : Teardown δ) (timedOut : Bool) (runners : List (Runner δ)) : Prop :=
  t.options.mode = .drain → timedOut = false → ∀ r ∈ runners, r.inFlight = []

/-- What a teardown has done at each of its awaits. -/
def Winds (t : Teardown δ) (b : Boot δ) : Prop :=
  t.boot = some 0 ∧
  match t.phase with
  | .awaitsStart => False
  | .stops awaited =>
    b.connections.Live ∧ AllIn .stopping b.runners ∧
      awaited = List.replicate b.runners.length true
  | .drains inFlight =>
    b.connections.Live ∧ AllExited .stopping b.runners ∧ t.options.mode = .drain ∧
      inFlight.length = b.runners.length ∧
      ∀ (i : ℕ) (r : Runner δ) (serials : List ℕ), b.runners[i]? = some r →
        inFlight[i]? = some serials → ∀ e ∈ r.inFlight, e.serial ∈ serials
  | .requeues timedOut inFlight =>
    b.connections.Live ∧ AllExited .stopping b.runners ∧ t.Drained timedOut b.runners ∧
      (timedOut = true → t.options.mode = .drain ∧ t.options.timeout = true) ∧
      (t.options.mode = .drain → timedOut = false → ∀ entries ∈ inFlight, entries = [])
  | .closes closing result =>
    b.connections.At closing ∧ AllExited .stopping b.runners ∧
      t.Drained result.timedOut b.runners ∧ result.Fits t.options
  | .settled _ => False

end Teardown

/-! ## The stages of a pool -/

namespace WorkerPool

/-- No teardown has begun its work. -/
def Undisturbed (p : WorkerPool δ) (b : Boot δ) : Prop :=
  p.teardowns = [] ∧ p.shutdownPromise = none ∨
    ∃ t, p.teardowns = [t] ∧ p.shutdownPromise = some (.teardown 0) ∧ t.Waits b

/-- The one teardown has ended. -/
def Ended (p : WorkerPool δ) : Prop :=
  ∃ t result, p.teardowns = [t] ∧ p.shutdownPromise = some (.teardown 0) ∧
    t.phase = .settled result ∧ result.Fits t.options

/-- The stages of a pool, with what its boot and its teardown have done. -/
inductive Stage (p : WorkerPool δ) : Prop
  | idle (hs : p.state = .idle) (hb : p.boots = []) (ht : p.teardowns = [])
      (hstart : p.startPromise = none) (hshut : p.shutdownPromise = none) (hh : p.held = none)
  | unstarted (hs : p.state = .stopped) (hb : p.boots = []) (ht : p.teardowns = [])
      (hstart : p.startPromise = none) (result : ShutdownResult)
      (hshut : p.shutdownPromise = some (.resolved result)) (hh : p.held = none)
  | starting (hs : p.state = .starting) (b : Boot δ) (hb : p.boots = [b])
      (hu : b.Underway p.options) (hthrough : b.through = false)
      (hstart : p.startPromise = b.promise) (ht : p.Undisturbed b) (hh : p.held = none)
  | failed (hs : p.state = .stopped) (b : Boot δ) (hb : p.boots = [b]) (e : PoolError)
      (hf : b.Fails e) (hstart : p.startPromise = b.promise) (ht : p.Undisturbed b ∨ p.Ended)
      (hh : p.held = none)
  | running (hs : p.state = .running) (b : Boot δ) (hb : p.boots = [b])
      (hsucc : b.Succeeds p.options) (hstart : p.startPromise = b.promise)
      (ht : p.Undisturbed b) (hh : p.held = some 0)
  | stopping (hs : p.state = .stopping) (b : Boot δ) (hb : p.boots = [b])
      (hphase : b.phase = .settled (.ok ())) (hthrough : b.through = true)
      (hstart : p.startPromise = none) (t : Teardown δ) (ht : p.teardowns = [t])
      (hshut : p.shutdownPromise = some (.teardown 0)) (hw : t.Winds b) (hh : p.held = some 0)
  | stopped (hs : p.state = .stopped) (b : Boot δ) (hb : p.boots = [b])
      (hphase : b.phase = .settled (.ok ())) (hthrough : b.through = true)
      (hstart : p.startPromise = none) (hc : b.connections.Closed)
      (hr : AllExited .stopped b.runners)
      (hd : ∀ t ∈ p.teardowns, ∀ result, t.phase = .settled result →
        t.Drained result.timedOut b.runners)
      (ht : p.Ended) (hh : p.held = none)

variable {p : WorkerPool δ} {b b' : Boot δ} {t : Teardown δ} {k : ℕ}

theorem of_singleton {α : Type} {l : List α} {a x : α} {k : ℕ} (hl : l = [a])
    (hk : l[k]? = some x) : k = 0 ∧ x = a := by
  subst hl
  cases k with
  | zero => exact ⟨rfl, (Option.some.inj hk).symm⟩
  | succ k => cases hk

theorem of_nil {α : Type} {l : List α} {x : α} {k : ℕ} (hl : l = []) (hk : l[k]? = some x) :
    False := by
  subst hl
  cases hk

theorem Undisturbed.through (h : p.Undisturbed b) (ht : b'.through = true) : p.Undisturbed b' := by
  rcases h with h | ⟨t, hts, hshut, hphase, hp⟩
  · exact Or.inl h
  · refine Or.inr ⟨t, hts, hshut, hphase, ?_⟩
    rcases hp with hp | ⟨hp, -⟩
    · exact Or.inl hp
    · exact Or.inr ⟨hp, ht⟩

theorem Undisturbed.congr (h : p.Undisturbed b) (ht : b'.through = b.through) :
    p.Undisturbed b' := by
  rcases h with h | ⟨t, hts, hshut, hphase, hp⟩
  · exact Or.inl h
  · exact Or.inr ⟨t, hts, hshut, hphase, ht ▸ hp⟩

/-- The list of the calls says nothing of the stage. -/
theorem Stage.calls (h : p.Stage) (starts : List StartCall) (shutdowns : List ShutdownCall) :
    Stage { p with starts, shutdowns } := by
  cases h with
  | idle hs hb ht hstart hshut hh => exact .idle hs hb ht hstart hshut hh
  | unstarted hs hb ht hstart result hshut hh =>
    exact .unstarted hs hb ht hstart result hshut hh
  | starting hs b hb hu hthrough hstart ht hh => exact .starting hs b hb hu hthrough hstart ht hh
  | failed hs b hb e hf hstart ht hh => exact .failed hs b hb e hf hstart ht hh
  | running hs b hb hsucc hstart ht hh => exact .running hs b hb hsucc hstart ht hh
  | stopping hs b hb hphase hthrough hstart t ht hshut hw hh =>
    exact .stopping hs b hb hphase hthrough hstart t ht hshut hw hh
  | stopped hs b hb hphase hthrough hstart hc hr hd ht hh =>
    exact .stopped hs b hb hphase hthrough hstart hc hr hd ht hh

/-! ### Calls on the pool -/

/-- A start call on a pool that is not idle begins nothing. -/
theorem start_again (hs : p.state ≠ .idle) : ∃ starts, p.start = { p with starts } := by
  unfold WorkerPool.start
  split
  · exact ⟨_, rfl⟩
  · split
    · exact ⟨_, rfl⟩
    · exact ⟨_, rfl⟩

theorem Stage.start (h : p.Stage) : p.start.Stage := by
  by_cases hidle : p.state = .idle
  · cases h with
    | idle hs hb ht hstart hshut hh =>
      rw [WorkerPool.start, if_neg (by simp [hs]), hstart]
      simp only [hs, hb, ne_eq, not_true_eq_false, if_false]
      refine .starting rfl {} rfl ⟨fun r hr => absurd hr List.not_mem_nil, rfl, rfl⟩ rfl rfl ?_ hh
      exact Or.inl ⟨ht, hshut⟩
    | unstarted hs | starting hs | failed hs | running hs | stopping hs | stopped hs =>
      rw [hs] at hidle
      cases hidle
  · obtain ⟨starts, heq⟩ := start_again hidle
    rw [heq]
    exact h.calls _ _

theorem shutdown_again {c : ShutdownCall} (hshut : p.shutdownPromise = some c)
    (options : ShutdownOptions) :
    p.shutdown options = { p with shutdowns := p.shutdowns ++ [c] } := by
  rw [WorkerPool.shutdown, hshut]

/-- A first shutdown call on a pool that is not idle begins the teardown. -/
theorem Undisturbed.shutdown (h : p.Undisturbed b) (hs : p.state ≠ .idle)
    (hstart : p.startPromise = b.promise) (options : ShutdownOptions) :
    ∃ teardowns shutdownPromise shutdowns,
      p.shutdown options = { p with teardowns, shutdownPromise, shutdowns } ∧
      Undisturbed { p with teardowns, shutdownPromise, shutdowns } b := by
  rcases h with ⟨ht, hshut⟩ | ⟨t, ht, hshut, hw⟩
  · rw [WorkerPool.shutdown, hshut]
    simp only [if_neg hs, ht]
    refine ⟨_, _, _, rfl, Or.inr ⟨_, rfl, rfl, rfl, ?_⟩⟩
    simp only [hstart, Boot.promise]
    split
    · rename_i hthrough
      exact Or.inr ⟨rfl, hthrough⟩
    · exact Or.inl rfl
  · exact ⟨_, _, _, shutdown_again hshut options, Or.inr ⟨t, ht, hshut, hw⟩⟩

theorem Stage.shutdown (h : p.Stage) (options : ShutdownOptions) : (p.shutdown options).Stage := by
  have hagain : ∀ c, p.shutdownPromise = some c → (p.shutdown options).Stage := by
    intro c hc
    rw [shutdown_again hc]
    exact h.calls _ _
  cases h with
  | idle hs hb ht hstart hshut hh =>
    rw [WorkerPool.shutdown, hshut]
    simp only [if_pos hs]
    exact .unstarted rfl hb ht hstart _ rfl hh
  | unstarted hs hb ht hstart result hshut hh => exact hagain _ hshut
  | starting hs b hb hu hthrough hstart ht hh =>
    obtain ⟨ts, c, cs, heq, hu'⟩ := ht.shutdown (by simp [hs]) hstart options
    rw [heq]
    exact .starting hs b hb hu hthrough hstart hu' hh
  | failed hs b hb e hf hstart ht hh =>
    rcases ht with ht | ⟨t, result, ht, hshut, -⟩
    · obtain ⟨ts, c, cs, heq, hu'⟩ := ht.shutdown (by simp [hs]) hstart options
      rw [heq]
      exact .failed hs b hb e hf hstart (Or.inl hu') hh
    · exact hagain _ hshut
  | running hs b hb hsucc hstart ht hh =>
    obtain ⟨ts, c, cs, heq, hu'⟩ := ht.shutdown (by simp [hs]) hstart options
    rw [heq]
    exact .running hs b hb hsucc hstart hu' hh
  | stopping hs b hb hphase hthrough hstart t ht hshut hw hh => exact hagain _ hshut
  | stopped hs b hb hphase hthrough hstart hc hr hd ht hh =>
    obtain ⟨t, result, -, hshut, -⟩ := ht
    exact hagain _ hshut

/-! ### The steps of the boot -/

theorem setBoot_boots (hb : p.boots = [b]) : (p.setBoot 0 b').boots = [b'] := by
  rw [WorkerPool.setBoot, hb]
  rfl

theorem afterBoot_underway (hu : b.Underway p.options) : p.afterBoot k b = p.setBoot k b := by
  obtain ⟨-, hu⟩ := hu
  unfold WorkerPool.afterBoot
  split
  · rename_i hphase
    rw [hphase] at hu
    exact hu.elim
  · rename_i hphase
    rw [hphase] at hu
    exact hu.elim
  · rfl

theorem Stage.boot (h : p.Stage) (hk : p.boots[k]? = some b) (hstep : BootStep p.options b b') :
    (p.afterBoot k b').Stage := by
  cases h with
  | idle hs hb | unstarted hs hb => exact (of_nil hb hk).elim
  | starting hs b₀ hb hu hthrough hstart ht hh =>
    obtain ⟨rfl, rfl⟩ := of_singleton hb hk
    obtain ⟨hthrough', hproceeds⟩ := hstep.proceeds hthrough hu
    have hstart' : p.startPromise = b'.promise := by
      rw [hstart, Boot.promise, Boot.promise, hthrough, hthrough']
    have ht' : p.Undisturbed b' := ht.congr (hthrough'.trans hthrough.symm)
    rcases hproceeds with hu' | ⟨e, hf⟩ | hsucc
    · rw [afterBoot_underway hu']
      exact .starting hs b' (setBoot_boots hb) hu' hthrough' hstart' ht' hh
    · rw [WorkerPool.afterBoot, hf.1]
      exact .failed rfl b' (setBoot_boots hb) e hf hstart' (Or.inl ht') hh
    · rw [WorkerPool.afterBoot, hsucc.1]
      exact .running rfl b' (setBoot_boots hb) hsucc hstart' ht' rfl
  | failed hs b₀ hb e hf =>
    obtain ⟨rfl, rfl⟩ := of_singleton hb hk
    exact (hstep.unsettled _ hf.1).elim
  | running hs b₀ hb hsucc =>
    obtain ⟨rfl, rfl⟩ := of_singleton hb hk
    exact (hstep.unsettled _ hsucc.1).elim
  | stopping hs b₀ hb hphase | stopped hs b₀ hb hphase =>
    obtain ⟨rfl, rfl⟩ := of_singleton hb hk
    exact (hstep.unsettled _ hphase).elim

theorem Stage.started (h : p.Stage) (hk : p.boots[k]? = some b) (ht : b.through = false)
    {outcome : Except PoolError Unit} (hphase : b.phase = .settled outcome) :
    (p.afterStart k b).Stage := by
  cases h with
  | idle hs hb | unstarted hs hb => exact (of_nil hb hk).elim
  | starting hs b₀ hb hu =>
    obtain ⟨rfl, rfl⟩ := of_singleton hb hk
    obtain ⟨-, hu⟩ := hu
    rw [hphase] at hu
    exact hu.elim
  | failed hs b₀ hb e hf hstart hu hh =>
    obtain ⟨rfl, rfl⟩ := of_singleton hb hk
    refine .failed hs _ (setBoot_boots hb) e hf rfl ?_ hh
    rcases hu with hu | hended
    · exact Or.inl (hu.through rfl)
    · exact Or.inr hended
  | running hs b₀ hb hsucc hstart hu hh =>
    obtain ⟨rfl, rfl⟩ := of_singleton hb hk
    exact .running hs _ (setBoot_boots hb) hsucc rfl (hu.through rfl) hh
  | stopping hs b₀ hb hphase hthrough | stopped hs b₀ hb hphase hthrough =>
    obtain ⟨rfl, rfl⟩ := of_singleton hb hk
    rw [ht] at hthrough
    cases hthrough

/-! ### The runners -/

theorem AllIn.set {s : WorkerState} {runners : List (Runner δ)} {i : ℕ} {r : Runner δ}
    {x : RunnerInput δ} (h : AllIn s runners) (hr : runners[i]? = some r) (hx : r.Admits x)
    (ho : Outside x) : AllIn s (runners.set i (r.step x)) := by
  intro r' hr'
  rcases List.mem_or_eq_of_mem_set hr' with hr' | rfl
  · exact h r' hr'
  · obtain ⟨hreach, hstate⟩ := h r (List.mem_of_getElem? hr)
    obtain ⟨N, -, hn, -⟩ := hreach.books
    exact ⟨hreach.step hx, (Runner.state_outside hn hx ho).trans hstate⟩

theorem AllExited.set {s : WorkerState} {runners : List (Runner δ)} {i : ℕ} {r : Runner δ}
    {x : RunnerInput δ} (h : AllExited s runners) (hr : runners[i]? = some r) (hx : r.Admits x)
    (ho : Outside x) : AllExited s (runners.set i (r.step x)) := by
  intro r' hr'
  rcases List.mem_or_eq_of_mem_set hr' with hr' | rfl
  · exact h r' hr'
  · obtain ⟨hreach, hstate, hl⟩ := h r (List.mem_of_getElem? hr)
    obtain ⟨N, -, hn, -⟩ := hreach.books
    exact ⟨hreach.step hx, (Runner.state_outside hn hx ho).trans hstate,
      (Runner.exited_step hreach hl hx).1⟩

/-- A drained runner stays drained. -/
theorem drained_set {t : Teardown δ} {s : WorkerState} {timedOut : Bool}
    {runners : List (Runner δ)} {i : ℕ} {r : Runner δ} {x : RunnerInput δ}
    (h : t.Drained timedOut runners) (he : AllExited s runners) (hr : runners[i]? = some r)
    (hx : r.Admits x) : t.Drained timedOut (runners.set i (r.step x)) := by
  intro hm hd r' hr'
  rcases List.mem_or_eq_of_mem_set hr' with hr' | rfl
  · exact h hm hd r' hr'
  · have hmem := List.mem_of_getElem? hr
    obtain ⟨hreach, -, hl⟩ := he r hmem
    have hnone := h hm hd r hmem
    refine List.eq_nil_iff_forall_not_mem.mpr fun e hin => ?_
    have := (Runner.exited_step hreach hl hx).2 e hin
    simp [hnone] at this

/-- The inputs of a runner change nothing that a teardown has done. -/
theorem winds_set {i : ℕ} {r : Runner δ} {x : RunnerInput δ} (h : t.Winds b)
    (hr : b.runners[i]? = some r) (hx : r.Admits x) (ho : Outside x) :
    t.Winds { b with runners := b.runners.set i (r.step x) } := by
  obtain ⟨hboot, h⟩ := h
  refine ⟨hboot, ?_⟩
  cases hphase : t.phase with
  | awaitsStart | settled result =>
    rw [hphase] at h
    exact h.elim
  | stops awaited =>
    rw [hphase] at h
    obtain ⟨hl, hin, ha⟩ := h
    exact ⟨hl, AllIn.set hin hr hx ho, by rw [ha, List.length_set]⟩
  | drains inFlight =>
    rw [hphase] at h
    obtain ⟨hl, he, hm, hlength, hserials⟩ := h
    refine ⟨hl, AllExited.set he hr hx ho, hm, by rw [hlength, List.length_set], ?_⟩
    intro j r' serials hj hs e hin
    simp only [List.getElem?_set] at hj
    split at hj
    · rename_i hij
      subst hij
      split at hj
      · cases hj
        obtain ⟨hreach, -, hloop⟩ := he r (List.mem_of_getElem? hr)
        obtain ⟨e', he', heq⟩ := List.mem_map.mp ((Runner.exited_step hreach hloop hx).2 e hin)
        exact heq ▸ hserials i r serials hr hs e' he'
      · cases hj
    · exact hserials j r' serials hj hs e hin
  | requeues timedOut inFlight =>
    rw [hphase] at h
    obtain ⟨hl, he, hd, htimeout, hnone⟩ := h
    exact ⟨hl, AllExited.set he hr hx ho, drained_set hd he hr hx, htimeout, hnone⟩
  | closes closing result =>
    rw [hphase] at h
    obtain ⟨hat, he, hd, hfits⟩ := h
    exact ⟨hat, AllExited.set he hr hx ho, drained_set hd he hr hx, hfits⟩

theorem Stage.runner (h : p.Stage) (hk : p.boots[k]? = some b) {i : ℕ} {r : Runner δ}
    {x : RunnerInput δ} (hr : b.runners[i]? = some r) (hx : r.Admits x) (ho : Outside x) :
    (p.setBoot k { b with runners := b.runners.set i (r.step x) }).Stage := by
  cases h with
  | idle hs hb | unstarted hs hb => exact (of_nil hb hk).elim
  | starting hs b₀ hb hu hthrough hstart ht hh =>
    obtain ⟨rfl, rfl⟩ := of_singleton hb hk
    refine .starting hs _ (setBoot_boots hb) ?_ hthrough hstart (ht.congr rfl) hh
    obtain ⟨hidle, hu⟩ := hu
    refine ⟨AllIn.set hidle hr hx ho, ?_⟩
    cases hphase : b.phase with
    | subscribes channels =>
      rw [hphase] at hu
      obtain ⟨hl, hsub, hne, hlength⟩ := hu
      exact ⟨hl, hsub, hne, List.length_set.trans hlength⟩
    | _ =>
      rw [hphase] at hu
      exact hu
  | failed hs b₀ hb e hf hstart ht hh =>
    obtain ⟨rfl, rfl⟩ := of_singleton hb hk
    obtain ⟨hphase, hc, hidle⟩ := hf
    refine .failed hs _ (setBoot_boots hb) e ⟨hphase, hc, AllIn.set hidle hr hx ho⟩ hstart ?_ hh
    rcases ht with ht | hended
    · exact Or.inl (ht.congr rfl)
    · exact Or.inr hended
  | running hs b₀ hb hsucc hstart ht hh =>
    obtain ⟨rfl, rfl⟩ := of_singleton hb hk
    obtain ⟨hphase, hl, hrun, hsub, hlength⟩ := hsucc
    exact .running hs _ (setBoot_boots hb)
      ⟨hphase, hl, AllIn.set hrun hr hx ho, hsub, List.length_set.trans hlength⟩ hstart
      (ht.congr rfl) hh
  | stopping hs b₀ hb hphase hthrough hstart t ht hshut hw hh =>
    obtain ⟨rfl, rfl⟩ := of_singleton hb hk
    exact .stopping hs _ (setBoot_boots hb) hphase hthrough hstart t ht hshut
      (winds_set hw hr hx ho) hh
  | stopped hs b₀ hb hphase hthrough hstart hc he hd ht hh =>
    obtain ⟨rfl, rfl⟩ := of_singleton hb hk
    exact .stopped hs _ (setBoot_boots hb) hphase hthrough hstart hc (AllExited.set he hr hx ho)
      (fun t hmem result hsettled => drained_set (hd t hmem result hsettled) he hr hx) ht hh

/-! ### The steps of the teardown -/

theorem setTeardown_teardowns {t' : Teardown δ} (ht : p.teardowns = [t]) :
    (p.setTeardown 0 t').teardowns = [t'] := by
  rw [WorkerPool.setTeardown, ht]
  rfl

theorem runnersOf_zero (hb : p.boots = [b]) : p.runnersOf (some 0) = b.runners := by
  simp [WorkerPool.runnersOf, hb]

/-- A teardown that still waits is the one of the shutdown promise. -/
theorem Undisturbed.waits (h : p.Undisturbed b) (hk : p.teardowns[k]? = some t) :
    k = 0 ∧ p.teardowns = [t] ∧ p.shutdownPromise = some (.teardown 0) ∧ t.Waits b := by
  rcases h with ⟨ht, -⟩ | ⟨t', ht, hshut, hw⟩
  · exact (of_nil ht hk).elim
  · obtain ⟨rfl, rfl⟩ := of_singleton ht hk
    exact ⟨rfl, ht, hshut, hw⟩

/-- An ended teardown takes no step. -/
theorem Ended.settled (h : p.Ended) (hk : p.teardowns[k]? = some t) :
    ∃ result, t.phase = .settled result := by
  obtain ⟨t', result, ht, -, hphase, -⟩ := h
  obtain ⟨-, rfl⟩ := of_singleton ht hk
  exact ⟨result, hphase⟩

/-- A teardown at work belongs to a pool that is stopping. -/
theorem Stage.winds (h : p.Stage) (hk : p.teardowns[k]? = some t)
    (hne : t.phase ≠ .awaitsStart) (hns : ∀ result, t.phase ≠ .settled result) :
    p.state = .stopping ∧ p.startPromise = none ∧ p.held = some 0 ∧ k = 0 ∧
      p.teardowns = [t] ∧ p.shutdownPromise = some (.teardown 0) ∧
      ∃ b, p.boots = [b] ∧ b.phase = .settled (.ok ()) ∧ b.through = true ∧ t.Winds b := by
  cases h with
  | idle hs hb ht | unstarted hs hb ht => exact (of_nil ht hk).elim
  | starting hs b hb hu hthrough hstart ht => exact (hne (ht.waits hk).2.2.2.1).elim
  | running hs b hb hsucc hstart ht => exact (hne (ht.waits hk).2.2.2.1).elim
  | failed hs b hb e hf hstart ht =>
    rcases ht with ht | hended
    · exact (hne (ht.waits hk).2.2.2.1).elim
    · obtain ⟨result, hphase⟩ := hended.settled hk
      exact (hns result hphase).elim
  | stopping hs b hb hphase hthrough hstart t' ht hshut hw hh =>
    obtain ⟨rfl, rfl⟩ := of_singleton ht hk
    exact ⟨hs, hstart, hh, rfl, ht, hshut, b, hb, hphase, hthrough, hw⟩
  | stopped hs b hb hphase hthrough hstart hc hr hd ht =>
    obtain ⟨result, hphase⟩ := Ended.settled ht hk
    exact (hns result hphase).elim

theorem awaited_eq {runners : List (Runner δ)} (h : AllIn .running runners) :
    (runners.map fun r => decide (r.state = .running)) =
      List.replicate runners.length true := by
  induction runners with
  | nil => rfl
  | cons r runners ih =>
    rw [List.map_cons, ih fun x hx => h x (List.mem_cons_of_mem _ hx),
      decide_eq_true (h r List.mem_cons_self).2]
    rfl

theorem Stage.startAwaited (h : p.Stage) (hk : p.teardowns[k]? = some t)
    (hphase : t.phase = .awaitsStart)
    (hstart : ∀ j, t.startPromise = some j → ∃ b, p.boots[j]? = some b ∧ b.through = true) :
    (p.beginTeardown k t).Stage := by
  cases h with
  | idle hs hb ht | unstarted hs hb ht => exact (of_nil ht hk).elim
  | starting hs b hb hu hthrough _ ht =>
    obtain ⟨-, -, -, -, hp | ⟨-, hp⟩⟩ := ht.waits hk
    · obtain ⟨b', hb', ht'⟩ := hstart 0 hp
      obtain ⟨-, rfl⟩ := of_singleton hb hb'
      rw [hthrough] at ht'
      cases ht'
    · rw [hthrough] at hp
      cases hp
  | failed hs b hb e hf hstart' ht hh =>
    rcases ht with ht | hended
    · obtain ⟨rfl, hts, hshut, -⟩ := ht.waits hk
      rw [WorkerPool.beginTeardown, if_pos (by simp [hs])]
      refine .failed rfl b hb e hf hstart' (Or.inr ?_) hh
      exact ⟨_, _, setTeardown_teardowns hts, hshut, rfl, ShutdownResult.fits_zero _⟩
    · obtain ⟨result, hsettled⟩ := hended.settled hk
      rw [hphase] at hsettled
      cases hsettled
  | running hs b hb hsucc hpromise ht hh =>
    obtain ⟨rfl, hts, hshut, -, hp⟩ := ht.waits hk
    obtain ⟨hbphase, hl, hrun, -⟩ := hsucc
    have hthrough : b.through = true := by
      rcases hp with hp | ⟨-, hp⟩
      · obtain ⟨b', hb', ht'⟩ := hstart 0 hp
        obtain ⟨-, rfl⟩ := of_singleton hb hb'
        exact ht'
      · exact hp
    rw [WorkerPool.beginTeardown, if_neg (by simp [hs]), hh, runnersOf_zero hb, awaited_eq hrun]
    refine .stopping rfl { b with runners := b.runners.map fun r => r.step .stopClaiming } ?_
      hbphase hthrough ?_ _ (setTeardown_teardowns hts) hshut ⟨rfl, hl, ?_, ?_⟩ hh
    · simp only [WorkerPool.mapRunners, WorkerPool.setTeardown, hb]
      rfl
    · rw [Boot.promise, hthrough] at hpromise
      exact hpromise
    · exact hrun.map (fun _ => trivial) fun _ => Runner.state_stopClaiming
    · rw [List.length_map]
  | stopping hs b hb _ _ _ t' ht _ hw =>
    obtain ⟨-, rfl⟩ := of_singleton ht hk
    obtain ⟨-, hw⟩ := hw
    rw [hphase] at hw
    exact hw.elim
  | stopped hs b hb _ _ _ hc hr hd ht =>
    obtain ⟨result, hsettled⟩ := Ended.settled ht hk
    rw [hphase] at hsettled
    cases hsettled

/-- The next phase of a teardown at work. -/
theorem Stage.next (h : p.Stage) (hk : p.teardowns[k]? = some t)
    (hne : t.phase ≠ .awaitsStart) (hns : ∀ result, t.phase ≠ .settled result)
    {t' : Teardown δ} (hw : ∀ b, t.Winds b → p.boots = [b] → t'.Winds b) :
    (p.setTeardown k t').Stage := by
  obtain ⟨hs, hstart, hh, rfl, ht, hshut, b, hb, hphase, hthrough, hwinds⟩ := h.winds hk hne hns
  exact .stopping hs b hb hphase hthrough hstart t' (setTeardown_teardowns ht) hshut
    (hw b hwinds hb) hh

theorem Stage.stops (h : p.Stage) (hk : p.teardowns[k]? = some t) {awaited : List Bool}
    (hphase : t.phase = .stops awaited)
    (hloops : ∀ (i : ℕ) (r : Runner δ), (p.runnersOf t.boot)[i]? = some r →
      awaited[i]? = some true → r.loop = .exited) :
    (p.afterStops k t).Stage := by
  have hexit : ∀ b, t.Winds b → p.boots = [b] →
      t.boot = some 0 ∧ b.connections.Live ∧ AllExited .stopping b.runners := by
    rintro b ⟨hboot, hw⟩ hb
    rw [hphase] at hw
    obtain ⟨hl, hin, ha⟩ := hw
    refine ⟨hboot, hl, fun r hr => ⟨(hin r hr).1, (hin r hr).2, ?_⟩⟩
    obtain ⟨i, hi⟩ := List.mem_iff_getElem?.mp hr
    rw [hboot, runnersOf_zero hb] at hloops
    apply hloops i r hi
    rw [ha, List.getElem?_replicate, if_pos (List.getElem?_eq_some_iff.mp hi).1]
  unfold WorkerPool.afterStops
  split
  · rename_i hm
    refine h.next hk (by simp [hphase]) (by simp [hphase]) fun b hw hb => ?_
    obtain ⟨hboot, hl, he⟩ := hexit b hw hb
    refine ⟨hboot, hl, he, hm, ?_, ?_⟩
    · rw [hboot, runnersOf_zero hb, List.length_map]
    · intro i r serials hr hs e he
      rw [hboot, runnersOf_zero hb, List.getElem?_map, hr] at hs
      cases hs
      exact List.mem_map_of_mem he
  · rename_i hm
    refine h.next hk (by simp [hphase]) (by simp [hphase]) fun b hw hb => ?_
    obtain ⟨hboot, hl, he⟩ := hexit b hw hb
    exact ⟨hboot, hl, he, fun hd => absurd hd hm, fun hf => absurd hf Bool.false_ne_true,
      fun hd => absurd hd hm⟩

theorem Stage.drains (h : p.Stage) (hk : p.teardowns[k]? = some t) {inFlight : List (List ℕ)}
    (hphase : t.phase = .drains inFlight) {timedOut : List Bool}
    (hlength : timedOut.length = inFlight.length)
    (hdrains : ∀ (i : ℕ) (r : Runner δ) (serials : List ℕ) (d : Bool),
      (p.runnersOf t.boot)[i]? = some r → inFlight[i]? = some serials → timedOut[i]? = some d →
      Drains t.options.timeout r serials d) :
    (p.requeueRunners k t (timedOut.any id)).Stage := by
  apply h.next hk (by simp [hphase]) (by simp [hphase])
  rintro b ⟨hboot, hw⟩ hb
  rw [hphase] at hw
  obtain ⟨hl, he, hm, hcount, hserials⟩ := hw
  rw [hboot, runnersOf_zero hb] at hdrains
  -- the snapshot and the outcome of one runner
  have hrunner : ∀ i (hi : i < b.runners.length), ∃ serials d, inFlight[i]? = some serials ∧
      timedOut[i]? = some d ∧ Drains t.options.timeout b.runners[i] serials d := by
    intro i hi
    have hi1 : i < inFlight.length := by omega
    have hi2 : i < timedOut.length := by omega
    refine ⟨_, _, List.getElem?_eq_getElem hi1, List.getElem?_eq_getElem hi2, ?_⟩
    exact hdrains i _ _ _ (List.getElem?_eq_getElem hi) (List.getElem?_eq_getElem hi1)
      (List.getElem?_eq_getElem hi2)
  have hnone : timedOut.any id = false → ∀ r ∈ b.runners, r.inFlight = [] := by
    intro hany r hr
    obtain ⟨i, hi, rfl⟩ := List.mem_iff_getElem.mp hr
    obtain ⟨serials, d, hs, hd, hdr⟩ := hrunner i hi
    have hfalse : d = false := by
      simpa using List.any_eq_false.mp hany d (List.mem_of_getElem? hd)
    subst hfalse
    refine List.eq_nil_iff_forall_not_mem.mpr fun e hin => ?_
    exact hdr e hin (hserials i _ serials (List.getElem?_eq_getElem hi) hs e hin)
  refine ⟨hboot, hl, he, fun _ hd => hnone hd, ?_, ?_⟩
  · intro hany
    obtain ⟨d, hd, htrue⟩ := List.any_eq_true.mp hany
    obtain ⟨i, hi⟩ := List.mem_iff_getElem?.mp hd
    have hlt := (List.getElem?_eq_some_iff.mp hi).1
    obtain ⟨serials, d', -, hd', hdr⟩ := hrunner i (by omega)
    rw [hi, Option.some.injEq] at hd'
    subst hd'
    have hd : d = true := htrue
    rw [Drains, if_pos hd] at hdr
    exact ⟨hm, hdr.1⟩
  · intro _ hany entries hentries
    rw [hboot, runnersOf_zero hb] at hentries
    obtain ⟨r, hr, rfl⟩ := List.mem_map.mp hentries
    exact hnone hany r hr

theorem requeued_le (results : List ForceRequeueResult)
    (h : ∀ x ∈ results, x.requeued ≤ x.unfinishedJobs) (mode : ShutdownMode) (timedOut : Bool) :
    (totals mode timedOut results).requeued ≤ (totals mode timedOut results).unfinishedJobs := by
  simp only [totals]
  induction results with
  | nil => exact Nat.le_refl 0
  | cons x results ih =>
    have hx := h x List.mem_cons_self
    have hrest := ih fun y hy => h y (List.mem_cons_of_mem _ hy)
    simp only [List.map_cons, List.sum_cons]
    omega

theorem unfinished_zero {results : List ForceRequeueResult}
    (h : ∀ x ∈ results, x.unfinishedJobs = 0) (mode : ShutdownMode) (timedOut : Bool) :
    (totals mode timedOut results).unfinishedJobs = 0 := by
  simp only [totals]
  induction results with
  | nil => rfl
  | cons x results ih =>
    rw [List.map_cons, List.sum_cons, h x List.mem_cons_self,
      ih fun y hy => h y (List.mem_cons_of_mem _ hy)]

/-- The totals of the handover say what the options allow. -/
theorem totals_fit (calls : List (List (InFlightEntry δ × Option Reply))) {timedOut : Bool}
    {options : ShutdownOptions}
    (htimeout : timedOut = true → options.mode = .drain ∧ options.timeout = true)
    (hnone : options.mode = .drain → timedOut = false → ∀ entries ∈ calls, entries = []) :
    (totals options.mode timedOut (calls.map forceRequeueResult)).Fits options := by
  refine ⟨rfl, htimeout, requeued_le _ ?_ _ _, fun hm hd => unfinished_zero ?_ _ _⟩
  · intro x hx
    obtain ⟨entries, -, rfl⟩ := List.mem_map.mp hx
    exact List.countP_le_length
  · intro x hx
    obtain ⟨entries, hentries, rfl⟩ := List.mem_map.mp hx
    rw [hnone hm hd entries hentries]
    rfl

theorem held_boot (hh : p.held = some 0) (hb : p.boots = [b]) :
    (p.held.bind fun j => p.boots[j]?.map (j, ·)) = some (0, b) := by
  rw [hh, hb]
  rfl

theorem Stage.requeued (h : p.Stage) (hk : p.teardowns[k]? = some t) {timedOut : Bool}
    {inFlight : List (List (InFlightEntry δ))} (hphase : t.phase = .requeues timedOut inFlight)
    {calls : List (List (InFlightEntry δ × Option Reply))}
    (hcalls : calls.map (List.map Prod.fst) = inFlight) :
    (p.closeHeld k t
      (totals t.options.mode timedOut (calls.map forceRequeueResult))).Stage := by
  obtain ⟨hs, hstart, hh, rfl, ht, hshut, b, hb, hbphase, hthrough, hboot, hw⟩ :=
    h.winds hk (by simp [hphase]) (by simp [hphase])
  rw [hphase] at hw
  obtain ⟨hl, he, hd, htimeout, hnone⟩ := hw
  have hfits := totals_fit calls htimeout (by
    intro hm hf entries hentries
    have hmem : entries.map Prod.fst ∈ inFlight := hcalls ▸ List.mem_map_of_mem hentries
    exact List.map_eq_nil_iff.mp (hnone hm hf _ hmem))
  rw [WorkerPool.closeHeld, held_boot hh hb]
  refine .stopping hs { b with connections := (b.connections.close p.options.channels).2 }
    (setBoot_boots hb) hbphase hthrough hstart _ (setTeardown_teardowns ht) hshut ⟨hboot, ?_⟩ hh
  exact ⟨hl.closable.close _, he, hd, hfits⟩

theorem Stage.closed (h : p.Stage) (hk : p.teardowns[k]? = some t) {closing : CloseAwait}
    {result : ShutdownResult} (hphase : t.phase = .closes closing result) (ok : Bool) :
    (p.closeHeldNext k t closing result ok).Stage := by
  obtain ⟨hs, hstart, hh, rfl, ht, hshut, b, hb, hbphase, hthrough, hboot, hw⟩ :=
    h.winds hk (by simp [hphase]) (by simp [hphase])
  rw [hphase] at hw
  obtain ⟨hat, he, hd, hfits⟩ := hw
  rw [WorkerPool.closeHeldNext, held_boot hh hb]
  refine .stopping hs { b with connections := (b.connections.closeNext ok closing).2 }
    (setBoot_boots hb) hbphase hthrough hstart _ (setTeardown_teardowns ht) hshut ⟨hboot, ?_⟩ hh
  exact ⟨hat.closeNext ok, he, hd, hfits⟩

theorem Stage.ended (h : p.Stage) (hk : p.teardowns[k]? = some t) {result : ShutdownResult}
    (hphase : t.phase = .closes .done result) : (p.afterClose k t result).Stage := by
  obtain ⟨hs, hstart, hh, rfl, ht, hshut, b, hb, hbphase, hthrough, hboot, hw⟩ :=
    h.winds hk (by simp [hphase]) (by simp [hphase])
  rw [hphase] at hw
  obtain ⟨hat, he, hd, hfits⟩ := hw
  rw [WorkerPool.afterClose, hboot]
  refine .stopped rfl { b with runners := b.runners.map fun r => r.step .finalize } ?_ hbphase
    hthrough hstart hat ?_ ?_ ⟨_, result, setTeardown_teardowns ht, hshut, rfl, hfits⟩ rfl
  · simp only [WorkerPool.mapRunners, WorkerPool.setTeardown, hb]
    rfl
  · intro r' hr'
    obtain ⟨r, hr, rfl⟩ := List.mem_map.mp hr'
    obtain ⟨hreach, -, hl⟩ := he r hr
    exact ⟨hreach.step trivial, rfl, hl⟩
  · intro t' ht' result' hsettled hm hf r' hr'
    obtain ⟨r, hr, rfl⟩ := List.mem_map.mp hr'
    simp only [WorkerPool.mapRunners, WorkerPool.setTeardown, ht, List.set_cons_zero,
      List.mem_singleton] at ht'
    subst ht'
    cases hsettled
    exact hd hm hf r hr

theorem Stage.turn {p' : WorkerPool δ} (h : p.Stage) (hturn : Turn p p') : p'.Stage := by
  cases hturn with
  | boot k b b' hb hs => exact h.boot hb hs
  | started k b hb ht outcome hphase => exact h.started hb ht hphase
  | startAwaited k t ht hphase hstart => exact h.startAwaited ht hphase hstart
  | stopped k t ht awaited hphase hloops => exact h.stops ht hphase hloops
  | drained k t ht inFlight hphase timedOut hlength hdrains =>
    exact h.drains ht hphase hlength hdrains
  | requeued k t ht timedOut inFlight hphase calls hcalls => exact h.requeued ht hphase hcalls
  | closed k t ht closing result hphase hc ok => exact h.closed ht hphase ok
  | ended k t ht result hphase => exact h.ended ht hphase

/-- The step lemma of a pool. -/
theorem Stage.step {p' : WorkerPool δ} (h : p.Stage) (hstep : Step p p') : p'.Stage := by
  cases hstep with
  | start => exact h.start
  | shutdown options => exact h.shutdown options
  | turn _ hturn => exact h.turn hturn
  | runner k i b hb r hr x hx ho => exact h.runner hb hr hx ho

/-- Every pool is at one of the stages. -/
theorem Reachable.stage {o : PoolOptions} (h : Reachable o p) : p.Stage := by
  induction h with
  | refl => exact .idle rfl rfl rfl rfl rfl rfl
  | tail _ hstep ih => exact ih.step hstep

end WorkerPool

end Panqueue
