-- worker-runner.ts: one call of `#processJob`, with the exceptions that code
-- of the user can throw on its way. Of the events, only the handlers that are
-- called are kept here: `processJobTail` has the data.
import Panqueue.ClaimLoop
import Panqueue.Lib.Script

namespace Panqueue

variable {δ ω ε α : Type}

/-! ## The code of the user -/

/-- A key of `WorkerEventHandlers`. -/
inductive HandlerName
  | onJobStarted
  | onJobCompleted
  | onJobError
  | onJobRetry
  | onJobFailed
  | onJobStale
  | onJobAckError
  | onWorkerError
  deriving DecidableEq

/-- The handler that gets an event. -/
def WorkerEvent.handler : WorkerEvent δ → HandlerName
  | .onJobStarted _ => .onJobStarted
  | .onJobCompleted _ => .onJobCompleted
  | .onJobError _ _ _ => .onJobError
  | .onJobRetry _ _ _ _ => .onJobRetry
  | .onJobFailed _ _ _ => .onJobFailed
  | .onJobStale _ _ => .onJobStale
  | .onJobAckError _ _ _ => .onJobAckError
  | .onWorkerError _ _ => .onWorkerError

/-- What the runner reads where it expects a string. It can be any other value. -/
abbrev TextValue (ε : Type) := String ⊕ ε

/-- A call of `scheduler.complete` or `scheduler.fail`. -/
inductive AckCall (ε : Type)
  | complete (jobId lockToken : TextValue ε)
  | fail (jobId error lockToken : TextValue ε)

/-- The call of a script that an acknowledgement sends. -/
def AckCall.call (retention : QueueRetention) : AckCall ε → Option Call
  | .complete (.inl jobId) (.inl lockToken) =>
    some (.complete { jobId, lockToken, retention := retention.completed })
  | .fail (.inl jobId) (.inl error) (.inl lockToken) =>
    some (.fail { jobId, error, lockToken, retention := retention.failed })
  | _ => none

/-- What a call of `#processJob` reads and writes: the objects that it shares
with code of the user, the handlers that it called and the acknowledgements that
it issued, in order, and the rejections of handlers that are not reported yet. -/
structure JobRun (ω ε : Type) where
  heap : ω
  called : List HandlerName := []
  acks : List (AckCall ε) := []
  rejected : List (HandlerName × ε) := []

abbrev JobScript (ω ε : Type) := Script ε (JobRun ω ε)

/-- Code of the user: it returns or throws, and leaves the shared objects as it
likes. Any JavaScript value can be thrown. -/
abbrev UserCode (ω ε α : Type) := JobRun ω ε → Except ε α × ω

/-- Everything that `#processJob` calls. The handlers and the processor get the
job object itself, so each read of a property of it may run a getter of theirs. -/
structure JobEnvironment (ω ε : Type) where
  /-- The registered handlers. `some err` is a promise that rejects with `err`. -/
  handlers : HandlerName → Option (UserCode ω ε (Option ε))
  processor : UserCode ω ε Unit
  /-- `v instanceof Error`. A proxy can throw here. -/
  instanceofError : ε → UserCode ω ε Bool
  /-- `v.message`. A getter can throw here. -/
  message : ε → UserCode ω ε (TextValue ε)
  /-- `String(v)`. The value's own `toString` can throw here. -/
  string : ε → UserCode ω ε String
  /-- `jobData.id`. -/
  jobId : UserCode ω ε (TextValue ε)
  /-- `jobData.lockToken ?? ""`. -/
  lockToken : UserCode ω ε (TextValue ε)
  /-- `settledSnapshot(jobData, result)`, which reads all properties. -/
  settledSnapshot : UserCode ω ε Unit
  /-- `jobData.failures + 1`, which throws for a bigint. -/
  failures : UserCode ω ε Unit
  /-- `Math.max(0, job.maxRetries - failures)`, on the snapshot that `onJobError` got. -/
  retriesLeft : UserCode ω ε Unit
  /-- The scheduler's answer to a call. Other code runs before it comes. -/
  acknowledge : AckCall ε → UserCode ω ε AckResult

namespace JobRun

/-- Before the call, for a job that the claim loop dispatches. -/
def start (heap : ω) : JobRun ω ε := { heap }

/-- After code of the user. -/
def leave (s : JobRun ω ε) (f : UserCode ω ε α) : JobRun ω ε := { s with heap := (f s).2 }

/-- Code of the user runs. -/
def user (f : UserCode ω ε α) : JobScript ω ε α := fun s =>
  match (f s).1 with
  | .ok a => .ok a (s.leave f)
  | .error e => .error e (s.leave f)

def call (name : HandlerName) : JobScript ω ε Unit := fun s =>
  .ok () { s with called := s.called ++ [name] }

/-- The rejection of a promise is reported later, not in this call. -/
def reject (name : HandlerName) (err : ε) : JobScript ω ε Unit := fun s =>
  .ok () { s with rejected := s.rejected ++ [(name, err)] }

def issue (c : AckCall ε) : JobScript ω ε Unit := fun s => .ok () { s with acks := s.acks ++ [c] }

end JobRun

/-! ## The code of the runner -/

namespace JobEnvironment

open JobRun

variable (env : JobEnvironment ω ε)

/-- `#emitWorkerError`: what its own handler throws is dropped. -/
def emitWorkerError : JobScript ω ε Unit :=
  match env.handlers .onWorkerError with
  | none => pure ()
  | some handler => do
    call .onWorkerError
    tryCatch
      (do
        let _ ← user handler
        pure ())
      fun _ => pure ()

/-- `#safeEmit`: what the handler throws is reported to `onWorkerError`. -/
def safeEmit (name : HandlerName) : JobScript ω ε Unit :=
  match env.handlers name with
  | none => pure ()
  | some handler => do
    call name
    tryCatch
      (do
        let result ← user handler
        match result with
        | some err => reject name err
        | none => pure ())
      fun _ => env.emitWorkerError

/-- The thunk that acknowledges the job. It reads the id when it runs. -/
def acknowledgement (c : TextValue ε → AckCall ε) : JobScript ω ε AckResult := do
  let jobId ← user env.jobId
  issue (c jobId)
  user (env.acknowledge (c jobId))

/-- The `catch` of `#acknowledgeJob`. It reads the id once more, unguarded. -/
def ackError : JobScript ω ε (Option AckResult) := do
  let _ ← user env.jobId
  env.emitWorkerError
  env.safeEmit .onJobAckError
  pure none

/-- `#acknowledgeJob`. -/
def acknowledgeJob (phase : JobAckPhase) (acknowledge : JobScript ω ε AckResult) :
    JobScript ω ε (Option AckResult) :=
  tryCatch
    (do
      let result ← acknowledge
      if result = .stale then do
        env.safeEmit .onJobStale
        pure none
      else if phase = .complete ∧ result = .completed ∨
          phase = .fail ∧ (result = .waiting ∨ result = .failed) then
        pure (some result)
      else do
        env.safeEmit .onJobAckError
        pure none)
    fun _ => env.ackError

/-- How the processor settles: `some err` when it throws or rejects. -/
def settle : JobScript ω ε (Option ε) :=
  tryCatch
    (do
      user env.processor
      pure none)
    fun err => pure (some err)

/-- `handlerError instanceof Error ? handlerError.message : String(handlerError)`. -/
def messageOf (err : ε) : JobScript ω ε (TextValue ε) := do
  let isError ← user (env.instanceofError err)
  if isError then user (env.message err)
  else do
    let text ← user (env.string err)
    pure (.inl text)

/-- The part of `#processJob` after a processor that returned. -/
def complete (lockToken : TextValue ε) : JobScript ω ε Unit := do
  let result ← env.acknowledgeJob .complete (env.acknowledgement (.complete · lockToken))
  if result = some .completed then do
    user env.settledSnapshot
    env.safeEmit .onJobCompleted
  else pure ()

/-- The part after a processor that threw a value with this message. -/
def fail (message lockToken : TextValue ε) : JobScript ω ε Unit := do
  let result ← env.acknowledgeJob .fail (env.acknowledgement (.fail · message lockToken))
  if result = some .waiting then do
    user env.failures
    user env.settledSnapshot
    env.safeEmit .onJobError
    user env.retriesLeft
    env.safeEmit .onJobRetry
  else if result = some .failed then do
    user env.failures
    user env.settledSnapshot
    env.safeEmit .onJobError
    env.safeEmit .onJobFailed
  else pure ()

/-- `#processJob`. The token is read before the processor runs. -/
def processJob : JobScript ω ε Unit := do
  env.safeEmit .onJobStarted
  let lockToken ← user env.lockToken
  match ← env.settle with
  | none => env.complete lockToken
  | some err => do
    let message ← env.messageOf err
    env.fail message lockToken

/-! ## What each part leaves alone -/

/-- Every handler is registered, and none throws or returns a promise that rejects. -/
def Registered : Prop := ∀ name, ∃ f, env.handlers name = some f ∧ ∀ s, (f s).1 = .ok none

/-- No acknowledgement is issued. These handlers are called in this order, when
all are registered and none fails. -/
def Quiet (names : List HandlerName) (s t : JobRun ω ε) : Prop :=
  t.acks = s.acks ∧ (env.Registered → t.called = s.called ++ names)

variable {env}

theorem Quiet.refl (s : JobRun ω ε) : env.Quiet [] s s := ⟨rfl, fun _ => (List.append_nil _).symm⟩

theorem Quiet.trans {names names' : List HandlerName} {s t u : JobRun ω ε}
    (h : env.Quiet names s t) (h' : env.Quiet names' t u) : env.Quiet (names ++ names') s u :=
  ⟨h'.1.trans h.1, fun hr => by rw [h'.2 hr, h.2 hr, List.append_assoc]⟩

theorem quiet_leave (s : JobRun ω ε) (f : UserCode ω ε α) : env.Quiet [] s (s.leave f) :=
  ⟨rfl, fun _ => (List.append_nil _).symm⟩

theorem user_ok {f : UserCode ω ε α} {s : JobRun ω ε} {a : α} (h : (f s).1 = .ok a) :
    user f s = .ok a (s.leave f) := by
  unfold user
  rw [h]

theorem user_error {f : UserCode ω ε α} {s : JobRun ω ε} {e : ε} (h : (f s).1 = .error e) :
    user f s = .error e (s.leave f) := by
  unfold user
  rw [h]

theorem after_user (f : UserCode ω ε α) (s : JobRun ω ε) : Script.after (user f) s = s.leave f := by
  rcases h : (f s).1 with e | a
  · exact Script.after_error (user_error h)
  · exact Script.after_ok (user_ok h)

theorem quiet_user (env : JobEnvironment ω ε) (f : UserCode ω ε α) :
    Script.Keeps (fun _ => True) (env.Quiet []) (user f) := by
  intro s _
  rw [after_user]
  exact ⟨trivial, quiet_leave s f⟩

/-- `#emitWorkerError` returns, whatever its handler does. -/
theorem run_emitWorkerError (env : JobEnvironment ω ε) (s : JobRun ω ε) :
    ∃ t, env.emitWorkerError s = .ok () t ∧ env.Quiet [.onWorkerError] s t := by
  unfold emitWorkerError
  rcases h : env.handlers .onWorkerError with _ | handler
  · refine ⟨s, rfl, rfl, fun hr => ?_⟩
    obtain ⟨f, hf, -⟩ := hr .onWorkerError
    rw [h] at hf
    cases hf
  · let s' : JobRun ω ε := { s with called := s.called ++ [.onWorkerError] }
    refine ⟨s'.leave handler, ?_, rfl, fun _ => rfl⟩
    simp only
    rw [Script.bind_ok (show call .onWorkerError s = .ok () s' from rfl), Script.run_tryCatch]
    rcases hx : (handler s').1 with e | x
    · rw [Script.bind_error (user_error hx)]
      rfl
    · rw [Script.bind_ok (user_ok hx)]
      rfl

theorem quiet_emitWorkerError (env : JobEnvironment ω ε) :
    Script.Keeps (fun _ => True) (env.Quiet [.onWorkerError]) env.emitWorkerError := by
  intro s _
  obtain ⟨t, ht, hq⟩ := env.run_emitWorkerError s
  rw [Script.after_ok ht]
  exact ⟨trivial, hq⟩

/-- `#safeEmit` returns, whatever its handler does. -/
theorem run_safeEmit (env : JobEnvironment ω ε) (name : HandlerName) (s : JobRun ω ε) :
    ∃ t, env.safeEmit name s = .ok () t ∧ env.Quiet [name] s t := by
  unfold safeEmit
  rcases h : env.handlers name with _ | handler
  · refine ⟨s, rfl, rfl, fun hr => ?_⟩
    obtain ⟨f, hf, -⟩ := hr name
    rw [h] at hf
    cases hf
  · let s' : JobRun ω ε := { s with called := s.called ++ [name] }
    -- a registered handler returns with no promise that rejects
    have hquiet : env.Registered → (handler s').1 = .ok none := by
      intro hr
      obtain ⟨f, hf, hok⟩ := hr name
      rw [h] at hf
      cases hf
      exact hok s'
    simp only
    rw [Script.bind_ok (show call name s = .ok () s' from rfl), Script.run_tryCatch]
    rcases hx : (handler s').1 with e | (_ | err)
    · rw [Script.bind_error (user_error hx)]
      obtain ⟨t, ht, hq⟩ := env.run_emitWorkerError (s'.leave handler)
      exact ⟨t, ht, hq.1, fun hr => by rw [hquiet hr] at hx; cases hx⟩
    · rw [Script.bind_ok (user_ok hx)]
      exact ⟨s'.leave handler, rfl, rfl, fun _ => rfl⟩
    · rw [Script.bind_ok (user_ok hx)]
      exact ⟨_, rfl, rfl, fun hr => by rw [hquiet hr] at hx; cases hx⟩

theorem quiet_safeEmit (env : JobEnvironment ω ε) (name : HandlerName) :
    Script.Keeps (fun _ => True) (env.Quiet [name]) (env.safeEmit name) := by
  intro s _
  obtain ⟨t, ht, hq⟩ := env.run_safeEmit name s
  rw [Script.after_ok ht]
  exact ⟨trivial, hq⟩

theorem quiet_messageOf (env : JobEnvironment ω ε) (err : ε) :
    Script.Keeps (fun _ => True) (env.Quiet []) (env.messageOf err) := by
  unfold messageOf
  refine Script.Keeps.seq (env.quiet_user _) ?_ (fun _ _ _ => Quiet.trans) fun _ _ => id
  intro isError
  apply Script.Keeps.ite
  · intro _
    exact env.quiet_user _
  · intro _
    exact (env.quiet_user _).seq (fun _ => (Script.Does.pure _ Quiet.refl).keeps)
      (fun _ _ _ => Quiet.trans) fun _ _ => id

/-! ## The acknowledgement -/

variable (env)

/-- The state in which a call is sent: the id has been read. -/
def issued (c : AckCall ε) (s : JobRun ω ε) : JobRun ω ε :=
  { s.leave env.jobId with acks := s.acks ++ [c] }

/-- The answer to a call. -/
def answer (c : AckCall ε) (s : JobRun ω ε) : Except ε AckResult :=
  (env.acknowledge c (env.issued c s)).1

/-- The state in which the answer comes. -/
def answered (c : AckCall ε) (s : JobRun ω ε) : JobRun ω ε :=
  (env.issued c s).leave (env.acknowledge c)

/-- An answer as the events tell it. -/
def told (reply : Except ε AckResult) : Except String AckResult := reply.mapError fun _ => "error"

variable {env} {phase : JobAckPhase} {c : TextValue ε → AckCall ε} {v : TextValue ε}
  {s t u : JobRun ω ε} {e : ε}

theorem acknowledgement_run (h : (env.jobId s).1 = .ok v) :
    env.acknowledgement c s = user (env.acknowledge (c v)) (env.issued (c v) s) := by
  unfold acknowledgement
  rw [Script.bind_ok (user_ok h)]
  rfl

/-- Without an id nothing is issued. -/
theorem acknowledgeJob_unissued (h : (env.jobId s).1 = .error e) {result : Option AckResult}
    (hrun : env.acknowledgeJob phase (env.acknowledgement c) s = .ok result t) :
    result = none ∧ t.acks = s.acks := by
  have hack : env.acknowledgement c s = .error e (s.leave env.jobId) := by
    unfold acknowledgement
    exact Script.bind_error (user_error h)
  unfold acknowledgeJob at hrun
  rw [Script.run_tryCatch, Script.bind_error hack] at hrun
  simp only at hrun
  unfold ackError at hrun
  obtain ⟨w, s1, h1, hrun⟩ := Script.bind_eq_ok.mp hrun
  obtain ⟨_, s2, h2, hrun⟩ := Script.bind_eq_ok.mp hrun
  obtain ⟨_, s3, h3, hrun⟩ := Script.bind_eq_ok.mp hrun
  cases hrun
  have q1 := (env.quiet_user env.jobId).of_ok h1 trivial
  have q2 := (env.quiet_emitWorkerError).of_ok h2 trivial
  have q3 := (env.quiet_safeEmit .onJobAckError).of_ok h3 trivial
  exact ⟨rfl, (q1.trans (q2.trans q3)).1⟩

/-- A call that fails is reported. -/
theorem acknowledgeJob_error (phase : JobAckPhase) (h : (env.jobId s).1 = .ok v)
    (hanswer : env.answer (c v) s = .error e) :
    env.acknowledgeJob phase (env.acknowledgement c) s = env.ackError (env.answered (c v) s) := by
  unfold acknowledgeJob
  rw [Script.run_tryCatch, Script.bind_error ((acknowledgement_run h).trans (user_error hanswer))]
  rfl

/-- What `#acknowledgeJob` makes of an answer. -/
theorem acknowledgeJob_ok {result : AckResult} (phase : JobAckPhase) (h : (env.jobId s).1 = .ok v)
    (hanswer : env.answer (c v) s = .ok result) :
    env.acknowledgeJob phase (env.acknowledgement c) s =
      (if result = .stale then do
        env.safeEmit .onJobStale
        pure none
      else if phase = .complete ∧ result = .completed ∨
          phase = .fail ∧ (result = .waiting ∨ result = .failed) then
        pure (some result)
      else do
        env.safeEmit .onJobAckError
        pure none : JobScript ω ε (Option AckResult)) (env.answered (c v) s) := by
  have hrun : env.acknowledgement c s = .ok result (env.answered (c v) s) :=
    (acknowledgement_run h).trans (user_ok hanswer)
  obtain ⟨t, hstale, -⟩ := env.run_safeEmit .onJobStale (env.answered (c v) s)
  obtain ⟨u, hother, -⟩ := env.run_safeEmit .onJobAckError (env.answered (c v) s)
  unfold acknowledgeJob
  rw [Script.run_tryCatch, Script.bind_ok hrun]
  by_cases h1 : result = .stale
  · simp only [if_pos h1, Script.bind_ok hstale, Script.run_pure]
  · by_cases h2 : phase = .complete ∧ result = .completed ∨
        phase = .fail ∧ (result = .waiting ∨ result = .failed)
    · simp only [if_neg h1, if_pos h2, Script.run_pure]
    · simp only [if_neg h1, if_neg h2, Script.bind_ok hother, Script.run_pure]

/-! ## After the acknowledgement -/

/-- What the runner reads of the job object once it has the answer to its call. -/
def reads (env : JobEnvironment ω ε) : Settled → Except ε AckResult → JobScript ω ε Unit
  | _, .error _ => do
    let _ ← user env.jobId
    pure ()
  | .returned, .ok .completed => user env.settledSnapshot
  | .threw _, .ok .waiting => do
    user env.failures
    user env.settledSnapshot
    env.safeEmit .onJobError
    user env.retriesLeft
  | .threw _, .ok .failed => do
    user env.failures
    user env.settledSnapshot
  | _, _ => pure ()

/-- The handlers that it calls after that. -/
def emits (env : JobEnvironment ω ε) : Settled → Except ε AckResult → JobScript ω ε Unit
  | _, .error _ => do
    env.emitWorkerError
    env.safeEmit .onJobAckError
  | _, .ok .stale => env.safeEmit .onJobStale
  | .returned, .ok .completed => env.safeEmit .onJobCompleted
  | .threw _, .ok .waiting => env.safeEmit .onJobRetry
  | .threw _, .ok .failed => do
    env.safeEmit .onJobError
    env.safeEmit .onJobFailed
  | _, _ => env.safeEmit .onJobAckError

variable {lockToken message : TextValue ε} {text : String} {how : Settled}
  {reply : Except ε AckResult}

theorem complete_answered (h : (env.jobId s).1 = .ok v) : env.complete lockToken s =
    (env.reads .returned (env.answer (.complete v lockToken) s) >>= fun _ =>
      env.emits .returned (env.answer (.complete v lockToken) s))
        (env.answered (.complete v lockToken) s) := by
  rcases hanswer : env.answer (.complete v lockToken) s with e | result
  · have hrun := acknowledgeJob_error (c := (.complete · lockToken)) .complete h hanswer
    apply (Script.bind_congr hrun _).trans
    simp only [ackError, reads, emits, bind_assoc, pure_bind, bind_pure_unit, reduceCtorEq,
      if_false]
  · have hrun := acknowledgeJob_ok (c := (.complete · lockToken)) .complete h hanswer
    apply (Script.bind_congr hrun _).trans
    cases result <;> simp only [reads, emits, bind_assoc, pure_bind, bind_pure_unit,
      reduceCtorEq, if_true, if_false, and_self, and_true, and_false, or_self, or_true, or_false]

theorem fail_answered (text : String) (h : (env.jobId s).1 = .ok v) :
    env.fail message lockToken s =
      (env.reads (.threw text) (env.answer (.fail v message lockToken) s) >>= fun _ =>
        env.emits (.threw text) (env.answer (.fail v message lockToken) s))
          (env.answered (.fail v message lockToken) s) := by
  rcases hanswer : env.answer (.fail v message lockToken) s with e | result
  · have hrun := acknowledgeJob_error (c := (.fail · message lockToken)) .fail h hanswer
    apply (Script.bind_congr hrun _).trans
    simp only [ackError, reads, emits, bind_assoc, pure_bind, bind_pure_unit, reduceCtorEq,
      if_false]
  · have hrun := acknowledgeJob_ok (c := (.fail · message lockToken)) .fail h hanswer
    apply (Script.bind_congr hrun _).trans
    cases result <;> simp only [reads, emits, bind_assoc, pure_bind, bind_pure_unit,
      reduceCtorEq, if_true, if_false, and_self, and_true, and_false, or_self, or_true, or_false,
      Option.some.injEq]

/-- When nothing that is read throws, the handlers of the events of `processJobTail`
are called. -/
theorem quiet_tail (job : JobData δ) (hreads : env.reads how reply s = .ok () u) :
    ∃ t, (env.reads how reply >>= fun _ => env.emits how reply) s = .ok () t ∧
      env.Quiet ((processJobTail job how (told reply)).map WorkerEvent.handler) s t := by
  rw [Script.bind_ok hreads]
  have hone : ∀ name, env.Quiet [] s u →
      ∃ t, env.safeEmit name u = .ok () t ∧ env.Quiet [name] s t := by
    intro name hq
    obtain ⟨t, ht, hq'⟩ := env.run_safeEmit name u
    exact ⟨t, ht, hq.trans hq'⟩
  rcases reply with e | result
  · obtain ⟨w, s1, h1, h2⟩ := Script.bind_eq_ok.mp
      (show (user env.jobId >>= fun _ => pure ()) s = .ok () u by cases how <;> exact hreads)
    cases h2
    have q1 := (env.quiet_user env.jobId).of_ok h1 trivial
    obtain ⟨t1, ht1, q2⟩ := env.run_emitWorkerError u
    obtain ⟨t2, ht2, q3⟩ := env.run_safeEmit .onJobAckError t1
    refine ⟨t2, ?_, ?_⟩
    · cases how <;> exact (Script.bind_ok ht1).trans ht2
    · cases how <;> exact q1.trans (q2.trans q3)
  · cases how with
    | returned =>
      cases result with
      | completed => exact hone _ ((env.quiet_user env.settledSnapshot).of_ok hreads trivial)
      | _ =>
        cases hreads
        exact hone _ (Quiet.refl _)
    | threw text =>
      cases result with
      | waiting =>
        obtain ⟨_, s1, h1, hreads⟩ := Script.bind_eq_ok.mp hreads
        obtain ⟨_, s2, h2, hreads⟩ := Script.bind_eq_ok.mp hreads
        obtain ⟨_, s3, h3, h4⟩ := Script.bind_eq_ok.mp hreads
        have q1 := (env.quiet_user env.failures).of_ok h1 trivial
        have q2 := (env.quiet_user env.settledSnapshot).of_ok h2 trivial
        have q3 := (env.quiet_safeEmit .onJobError).of_ok h3 trivial
        have q4 := (env.quiet_user env.retriesLeft).of_ok h4 trivial
        obtain ⟨t, ht, q5⟩ := env.run_safeEmit .onJobRetry u
        exact ⟨t, ht, q1.trans (q2.trans (q3.trans (q4.trans q5)))⟩
      | failed =>
        obtain ⟨_, s1, h1, h2⟩ := Script.bind_eq_ok.mp hreads
        have q1 := (env.quiet_user env.failures).of_ok h1 trivial
        have q2 := (env.quiet_user env.settledSnapshot).of_ok h2 trivial
        obtain ⟨t1, ht1, q3⟩ := env.run_safeEmit .onJobError u
        obtain ⟨t2, ht2, q4⟩ := env.run_safeEmit .onJobFailed t1
        exact ⟨t2, (Script.bind_ok ht1).trans ht2, q1.trans (q2.trans (q3.trans q4))⟩
      | _ =>
        cases hreads
        exact hone _ (Quiet.refl _)

/-- Without an id nothing is issued. -/
theorem complete_unissued (h : (env.jobId s).1 = .error e)
    (hrun : env.complete lockToken s = .ok () t) : t.acks = s.acks := by
  obtain ⟨result, s1, h1, h2⟩ := Script.bind_eq_ok.mp hrun
  obtain ⟨rfl, hacks⟩ := acknowledgeJob_unissued (c := (.complete · lockToken)) h h1
  cases h2
  exact hacks

theorem fail_unissued (h : (env.jobId s).1 = .error e)
    (hrun : env.fail message lockToken s = .ok () t) : t.acks = s.acks := by
  obtain ⟨result, s1, h1, h2⟩ := Script.bind_eq_ok.mp hrun
  obtain ⟨rfl, hacks⟩ := acknowledgeJob_unissued (c := (.fail · message lockToken)) h h1
  cases h2
  exact hacks

/-! ## How a run ends -/

variable (env)

/-- The state after `onJobStarted`. -/
def started (heap : ω) : JobRun ω ε := Script.after (env.safeEmit .onJobStarted) (.start heap)

/-- The state in which the processor is called: the token has been read. -/
def ready (heap : ω) : JobRun ω ε := (env.started heap).leave env.lockToken

/-- How the processor settles: it returns, or throws or rejects with a value. -/
def settlement (heap : ω) : Except ε Unit := (env.processor (env.ready heap)).1

/-- The state in which the processor settled. -/
def settled (heap : ω) : JobRun ω ε := (env.ready heap).leave env.processor

/-- The state before the acknowledgement: a thrown value has been converted. -/
def concluded (heap : ω) : JobRun ω ε :=
  match env.settlement heap with
  | .ok _ => env.settled heap
  | .error err => Script.after (env.messageOf err) (env.settled heap)

variable {env} {heap : ω} {job : JobData δ}

theorem quiet_started : env.Quiet [.onJobStarted] (.start heap) (env.started heap) :=
  (env.quiet_safeEmit .onJobStarted (.start heap) trivial).2

theorem quiet_settled : env.Quiet [.onJobStarted] (.start heap) (env.settled heap) :=
  quiet_started.trans ((quiet_leave _ env.lockToken).trans (quiet_leave _ env.processor))

theorem quiet_concluded : env.Quiet [.onJobStarted] (.start heap) (env.concluded heap) := by
  unfold concluded
  rcases env.settlement heap with err | _
  · exact quiet_settled.trans (env.quiet_messageOf err _ trivial).2
  · exact quiet_settled

/-- Without a token the processor is not called. -/
theorem processJob_unready (h : (env.lockToken (env.started heap)).1 = .error e) :
    env.processJob (.start heap) = .error e (env.ready heap) := by
  obtain ⟨s, hrun, -⟩ := env.run_safeEmit .onJobStarted (.start heap)
  have hs : env.started heap = s := Script.after_ok hrun
  unfold processJob ready
  rw [hs] at h ⊢
  rw [Script.bind_ok hrun, Script.bind_error (user_error h)]

/-- The run from the end of the processor on. -/
theorem processJob_ready (h : (env.lockToken (env.started heap)).1 = .ok lockToken) :
    env.processJob (.start heap) =
      (match env.settlement heap with
        | .ok _ => env.complete lockToken
        | .error err => do
          let message ← env.messageOf err
          env.fail message lockToken) (env.settled heap) := by
  obtain ⟨s, hrun, -⟩ := env.run_safeEmit .onJobStarted (.start heap)
  have hs : env.started heap = s := Script.after_ok hrun
  unfold settlement settled ready
  rw [hs] at h ⊢
  unfold processJob
  rw [Script.bind_ok hrun, Script.bind_ok (user_ok h)]
  have hsettle : env.settle (s.leave env.lockToken) =
      .ok (match (env.processor (s.leave env.lockToken)).1 with
        | .ok _ => none
        | .error err => some err) ((s.leave env.lockToken).leave env.processor) := by
    unfold settle
    rw [Script.run_tryCatch]
    rcases hx : (env.processor (s.leave env.lockToken)).1 with err | x
    · rw [Script.bind_error (user_error hx)]
      rfl
    · rw [Script.bind_ok (user_ok hx)]
      rfl
  rw [Script.bind_ok hsettle]
  rcases (env.processor (s.leave env.lockToken)).1 with err | x <;> rfl

/-! ## Which handlers are acknowledged -/

/-- What the runner makes of the way in which the processor settled. -/
def Settles (env : JobEnvironment ω ε) (heap : ω) : Settled → Prop
  | .returned => ∃ x, env.settlement heap = .ok x
  | .threw text => ∃ err s, env.settlement heap = .error err ∧
      env.messageOf err (env.settled heap) = .ok (.inl text) s

/-- The acknowledgement of a job that settled so. -/
def ackOf (job : JobData δ) : Settled → AckCall ε
  | .returned => .complete (.inl job.id) (.inl (job.lockToken.getD ""))
  | .threw text => .fail (.inl job.id) (.inl text) (.inl (job.lockToken.getD ""))

theorem Settles.unique {how how' : Settled} (h : env.Settles heap how)
    (h' : env.Settles heap how') : how = how' := by
  cases how with
  | returned =>
    obtain ⟨x, hx⟩ := h
    cases how' with
    | returned => rfl
    | threw text =>
      obtain ⟨err, s, he, -⟩ := h'
      rw [hx] at he
      cases he
  | threw text =>
    obtain ⟨err, s, he, hm⟩ := h
    cases how' with
    | returned =>
      obtain ⟨x, hx⟩ := h'
      rw [hx] at he
      cases he
    | threw text' =>
      obtain ⟨err', s', he', hm'⟩ := h'
      rw [he] at he'
      cases he'
      rw [hm] at hm'
      cases hm'
      rfl

/-- The promise of `#processJob` resolves, and one acknowledgement was issued, for
the id of the job and with its token: a complete when the processor returned, and
a fail with a string when it threw. -/
def Acknowledges (env : JobEnvironment ω ε) (heap : ω) (job : JobData δ) : Prop :=
  ∃ t, env.processJob (.start heap) = .ok () t ∧
    match env.settlement heap with
    | .ok _ => t.acks = [ackOf job .returned]
    | .error _ => ∃ text, t.acks = [ackOf job (.threw text)]

/-- The reads of the job object find what the runner made of the job: its token
before the processor, its id for the call, and nothing that throws after the answer. -/
structure ReadsJob (env : JobEnvironment ω ε) (heap : ω) (job : JobData δ) : Prop where
  lockToken : (env.lockToken (env.started heap)).1 = .ok (.inl (job.lockToken.getD ""))
  jobId : (env.jobId (env.concluded heap)).1 = .ok (.inl job.id)
  rest : ∀ settled, env.Settles heap settled →
    ∃ u, env.reads settled (env.answer (ackOf job settled) (env.concluded heap))
      (env.answered (ackOf job settled) (env.concluded heap)) = .ok () u

/-- No code of the user writes into the job object. -/
structure LeavesJob (env : JobEnvironment ω ε) (job : JobData δ) : Prop where
  jobId : ∀ s, (env.jobId s).1 = .ok (.inl job.id)
  lockToken : ∀ s, (env.lockToken s).1 = .ok (.inl (job.lockToken.getD ""))
  settledSnapshot : ∀ s, (env.settledSnapshot s).1 = .ok ()
  failures : ∀ s, (env.failures s).1 = .ok ()
  retriesLeft : ∀ s, (env.retriesLeft s).1 = .ok ()

theorem acks_concluded : (env.concluded heap).acks = [] := quiet_concluded.1

/-- A run that ends has issued at most one call, under the id that it read, and
nothing that it read afterwards threw. -/
theorem complete_acks (job : JobData δ) (hs : s.acks = [])
    (hrun : env.complete lockToken s = .ok () t) (hne : t.acks ≠ []) :
    ∃ v, (env.jobId s).1 = .ok v ∧ t.acks = [.complete v lockToken] ∧
      ∃ u, env.reads .returned (env.answer (.complete v lockToken) s)
        (env.answered (.complete v lockToken) s) = .ok () u := by
  rcases h : (env.jobId s).1 with e | v
  · exact absurd ((complete_unissued h hrun).trans hs) hne
  · rw [complete_answered h] at hrun
    obtain ⟨_, u, hreads, -⟩ := Script.bind_eq_ok.mp hrun
    obtain ⟨t', ht', hq⟩ := quiet_tail job hreads
    rw [hrun] at ht'
    cases ht'
    refine ⟨v, rfl, hq.1.trans ?_, u, hreads⟩
    change s.acks ++ [_] = _
    rw [hs, List.nil_append]

theorem fail_acks (job : JobData δ) (text : String) (hs : s.acks = [])
    (hrun : env.fail message lockToken s = .ok () t) (hne : t.acks ≠ []) :
    ∃ v, (env.jobId s).1 = .ok v ∧ t.acks = [.fail v message lockToken] ∧
      ∃ u, env.reads (.threw text) (env.answer (.fail v message lockToken) s)
        (env.answered (.fail v message lockToken) s) = .ok () u := by
  rcases h : (env.jobId s).1 with e | v
  · exact absurd ((fail_unissued h hrun).trans hs) hne
  · rw [fail_answered text h] at hrun
    obtain ⟨_, u, hreads, -⟩ := Script.bind_eq_ok.mp hrun
    obtain ⟨t', ht', hq⟩ := quiet_tail job hreads
    rw [hrun] at ht'
    cases ht'
    refine ⟨v, rfl, hq.1.trans ?_, u, hreads⟩
    change s.acks ++ [_] = _
    rw [hs, List.nil_append]

/-- A settled processor that is acknowledged had a message, and the job was found. -/
theorem Acknowledges.reads (h : env.Acknowledges heap job) :
    env.ReadsJob heap job ∧ ∃ how, env.Settles heap how := by
  obtain ⟨t, hrun, hacks⟩ := h
  rcases htoken : (env.lockToken (env.started heap)).1 with e | lockToken
  · rw [processJob_unready htoken] at hrun
    cases hrun
  rw [processJob_ready htoken] at hrun
  rcases hset : env.settlement heap with err | x
  · rw [hset] at hrun hacks
    obtain ⟨message, s, hm, hfail⟩ := Script.bind_eq_ok.mp hrun
    obtain ⟨text, hacks⟩ := hacks
    have hs : env.concluded heap = s := by
      unfold concluded
      rw [hset]
      exact Script.after_ok hm
    rw [← hs] at hfail
    obtain ⟨v, hv, hcall, hrest⟩ := fail_acks job text acks_concluded hfail (by simp [hacks])
    -- the call shows what was read
    rw [hacks] at hcall
    cases hcall
    have hsettles : env.Settles heap (.threw text) := ⟨err, s, hset, hm⟩
    refine ⟨⟨htoken, hv, fun how hhow => ?_⟩, _, hsettles⟩
    obtain rfl := hhow.unique hsettles
    exact hrest
  · rw [hset] at hrun hacks
    have hs : env.concluded heap = env.settled heap := by
      unfold concluded
      rw [hset]
    rw [← hs] at hrun
    obtain ⟨v, hv, hcall, hrest⟩ := complete_acks job acks_concluded hrun (by simp [hacks])
    rw [hacks] at hcall
    cases hcall
    have hsettles : env.Settles heap .returned := ⟨x, hset⟩
    refine ⟨⟨htoken, hv, fun how hhow => ?_⟩, _, hsettles⟩
    obtain rfl := hhow.unique hsettles
    exact hrest

/-- When the job is found, the run ends with its acknowledgement. -/
theorem ReadsJob.run (h : env.ReadsJob heap job) (hs : env.Settles heap how) :
    ∃ t, env.processJob (.start heap) = .ok () t ∧ t.acks = [ackOf job how] ∧
      (env.Registered → t.called = .onJobStarted ::
        (processJobTail job how (told (env.answer (ackOf job how)
          (env.concluded heap)))).map WorkerEvent.handler) := by
  obtain ⟨u, hreads⟩ := h.rest how hs
  obtain ⟨t, ht, hq⟩ := quiet_tail job hreads
  have hrun : env.processJob (.start heap) = .ok () t := by
    rw [processJob_ready h.lockToken, ← ht]
    have hid := h.jobId
    cases how with
    | returned =>
      obtain ⟨x, hx⟩ := hs
      unfold concluded at hid ⊢
      rw [hx] at hid ⊢
      exact complete_answered hid
    | threw text =>
      obtain ⟨err, s, herr, hm⟩ := hs
      unfold concluded at hid ⊢
      rw [herr] at hid ⊢
      simp only [Script.after_ok hm] at hid ⊢
      rw [Script.bind_ok hm]
      exact fail_answered text hid
  refine ⟨t, hrun, ?_, fun hr => ?_⟩
  · rw [hq.1]
    change (env.concluded heap).acks ++ [_] = _
    rw [acks_concluded, List.nil_append]
  · rw [hq.2 hr]
    change (env.concluded heap).called ++ _ = _
    rw [quiet_concluded.2 hr]
    rfl

theorem LeavesJob.reads (h : env.LeavesJob job) (how : Settled) (reply : Except ε AckResult)
    (s : JobRun ω ε) : ∃ u, env.reads how reply s = .ok () u := by
  rcases reply with e | result
  · have hid := user_ok (h.jobId s)
    cases how <;> exact ⟨_, Script.bind_ok hid⟩
  · have h1 := user_ok (h.failures s)
    have h2 := user_ok (h.settledSnapshot (s.leave env.failures))
    cases how with
    | returned =>
      cases result with
      | completed => exact ⟨_, user_ok (h.settledSnapshot s)⟩
      | _ => exact ⟨s, rfl⟩
    | threw text =>
      cases result with
      | failed => exact ⟨_, (Script.bind_ok h1).trans h2⟩
      | waiting =>
        obtain ⟨t, h3, -⟩ := env.run_safeEmit .onJobError
          ((s.leave env.failures).leave env.settledSnapshot)
        exact ⟨_, (Script.bind_ok h1).trans ((Script.bind_ok h2).trans
          ((Script.bind_ok h3).trans (user_ok (h.retriesLeft t))))⟩
      | _ => exact ⟨s, rfl⟩

end JobEnvironment

end Panqueue
