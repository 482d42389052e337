-- The events of a worker: what a runner emits when a job was acknowledged and
-- when a recovery sweep came back. Every handler is taken to be registered.
import Panqueue.Scripts

namespace Panqueue

variable {δ : Type}

/-! ## Events -/

inductive JobAckPhase
  | complete
  | fail
  deriving DecidableEq, Repr

inductive WorkerErrorKind
  | claim
  | leaseRenew
  | leaseLost
  | recoverySweep
  | ack
  | requeue
  | eventHandler
  | corrupt
  deriving DecidableEq, Repr

/-- Outcome of a complete or a fail call. -/
inductive AckResult
  | completed
  | waiting
  | failed
  | stale
  | missing
  deriving DecidableEq, Repr

/-- One call of an event handler, with the data of its event. -/
inductive WorkerEvent (δ : Type)
  | onJobStarted (job : JobData δ)
  | onJobCompleted (job : JobData δ)
  | onJobError (job : JobData δ) (error : String) (willRetry : Bool)
  | onJobRetry (job : JobData δ) (error : String) (retriesLeft : Double) (cause : FailureKind)
  | onJobFailed (job : JobData δ) (error : String) (cause : FailureKind)
  | onJobStale (job : JobData δ) (phase : JobAckPhase)
  | onJobAckError (job : JobData δ) (phase : JobAckPhase) (error : Except String AckResult)
  | onWorkerError (kind : WorkerErrorKind) (jobId : Option String)

/-! ## Acknowledgements -/

/-- `settledSnapshot`: the view of a claim after its acknowledgement, without the lease. -/
def settledSnapshot (job : JobData δ) (status : JobStatus) : JobData δ :=
  { job with
    status
    lockToken := none
    numeric := Function.update job.numeric .leaseDeadline none }

/-- `#acknowledgeJob`: the result, when it is one of the phase, and the events. -/
def acknowledgeJob (job : JobData δ) (phase : JobAckPhase) (reply : Except String AckResult) :
    Option AckResult × List (WorkerEvent δ) :=
  match reply with
  | .error error =>
    (none, [.onWorkerError .ack (some job.id), .onJobAckError job phase (.error error)])
  | .ok .stale => (none, [.onJobStale job phase])
  | .ok result =>
    if phase = .complete ∧ result = .completed ∨
        phase = .fail ∧ (result = .waiting ∨ result = .failed) then
      (some result, [])
    else (none, [.onJobAckError job phase (.ok result)])

/-- How a processor settled, when `#processJob` goes on to its acknowledgement.
A thrown value shows as its message; without one the promise rejects. -/
inductive Settled
  | returned
  | threw (message : String)
  deriving DecidableEq

/-- The call that `#processJob` acknowledges a settled job with. -/
def acknowledgeCall (retention : ResolvedRetention) (job : JobData δ) : Settled → Call
  | .returned =>
    .complete { jobId := job.id, lockToken := job.lockToken.getD "", retention }
  | .threw message =>
    .fail { jobId := job.id, error := message, lockToken := job.lockToken.getD "", retention }

/-- The snapshot of a failure, with the writes of the fail script folded in. -/
def failedSnapshot (job : JobData δ) (status : JobStatus) (message : String) : JobData δ :=
  { settledSnapshot job status with
    numeric := Function.update (settledSnapshot job status).numeric .failures
      (some (((job.numeric .failures).getD .nan).addRat 1))
    failureKind := some .handler
    failedReason := some message
    lastError := some message }

/-- `Math.max(0, budget - used)`. -/
def retriesLeft (budget used : Option Double) : Double :=
  Double.max (.ofNat 0) ((budget.getD .nan).sub (used.getD .nan))

/-- The part of `#processJob` after the processor settled: the events that the
reply of the acknowledgement call leads to. -/
def processJobTail (job : JobData δ) (settled : Settled) (reply : Except String AckResult) :
    List (WorkerEvent δ) :=
  match settled with
  | .returned =>
    let (result, events) := acknowledgeJob job .complete reply
    if result = some .completed then
      events ++ [.onJobCompleted (settledSnapshot job .completed)]
    else events
  | .threw message =>
    let (result, events) := acknowledgeJob job .fail reply
    if result = some .waiting then
      let failed := failedSnapshot job .waiting message
      events ++
        [.onJobError failed message true,
          .onJobRetry failed message
            (retriesLeft (failed.numeric .maxRetries) (failed.numeric .failures)) .handler]
    else if result = some .failed then
      let failed := failedSnapshot job .failed message
      events ++ [.onJobError failed message false, .onJobFailed failed message .handler]
    else events

/-- What `scheduler.complete` or `scheduler.fail` makes of the reply of its script. -/
def Reply.ack : Reply → Except String AckResult
  | .complete .completed => .ok .completed
  | .complete .stale => .ok .stale
  | .complete .missing => .ok .missing
  | .fail .waiting => .ok .waiting
  | .fail .failed => .ok .failed
  | .fail .stale => .ok .stale
  | .fail .missing => .ok .missing
  | .error _ => .error "Redis error"
  | _ => .error "Unexpected result"

/-! ## Recovery sweeps -/

/-- A stalled job of a sweep: its outcome with a snapshot, or a corrupt pointer. -/
inductive RecoveredJob (δ : Type)
  | job (outcome : RecoverOutcome) (j : JobData δ)
  | corrupt (jobId : String)

/-- `parseRecoveredJobs`: one entry that does not decode fails the whole reply. -/
def parseRecoveredJobs (parse : String → Except String δ) :
    List RecoverEntry → Except String (List (RecoveredJob δ))
  | [] => .ok []
  | .corrupt jobId :: entries => do
    let jobs ← parseRecoveredJobs parse entries
    .ok (.corrupt jobId :: jobs)
  | .job outcome h :: entries => do
    let job ← deserializeJobHash parse h.hgetall
    let jobs ← parseRecoveredJobs parse entries
    .ok (.job outcome job :: jobs)

/-- The body of `#handleRecovered` for one job. -/
def RecoveredJob.events : RecoveredJob δ → List (WorkerEvent δ)
  | .corrupt jobId => [.onWorkerError .corrupt (some jobId)]
  | .job .waiting j =>
    [.onJobRetry j (j.failedReason.getD "lease expired")
      (retriesLeft (j.numeric .maxStalls) (j.numeric .stalls)) .stalled]
  | .job .failed j => [.onJobFailed j (j.failedReason.getD "lease expired") .stalled]

/-- `#handleRecovered`. -/
def handleRecovered (jobs : List (RecoveredJob δ)) : List (WorkerEvent δ) :=
  jobs.flatMap RecoveredJob.events

/-- What `scheduler.recover` makes of the reply of its script. -/
def Reply.recovered (parse : String → Except String δ) :
    Reply → Except String (List (RecoveredJob δ))
  | .recover entries => parseRecoveredJobs parse entries
  | .error _ => .error "Redis error"
  | _ => .error "Unexpected recover result"

/-- `StalledRecoverySweep.run`, after its call. -/
def sweepEvents (recovered : Except String (List (RecoveredJob δ))) : List (WorkerEvent δ) :=
  match recovered with
  | .error _ => [.onWorkerError .recoverySweep none]
  | .ok jobs => if jobs.isEmpty then [] else handleRecovered jobs

end Panqueue
