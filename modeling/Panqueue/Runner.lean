-- worker-runner.ts: the claim loop of one runner, its in-flight jobs and its
-- wake handshake. The code between two awaits runs without interruption, so
-- it is one function here, and the await at which the loop stands is its phase.
import Panqueue.Semaphore
import Panqueue.WorkerEvents

namespace Panqueue

variable {δ : Type}

/-! ## Claim results -/

/-- What `claimBatch` makes of one entry of a claim reply. -/
inductive ClaimResult (δ : Type)
  | job (j : JobData δ)
  | corrupt (jobId : String)

/-- `decodeClaimEntry`: a hash that does not decode is reported as corrupt. -/
def decodeClaimEntry (parse : String → Except String δ) : ClaimEntry → ClaimResult δ
  | .corrupt jobId => .corrupt jobId
  | .job h =>
    match deserializeJobHash parse h.hgetall with
    | .ok job => .job job
    | .error _ => .corrupt (h.id.getD "unknown")

/-- What `scheduler.claimBatch` makes of the reply of its script. -/
def Reply.claimed (parse : String → Except String δ) :
    Reply → Except String (List (ClaimResult δ))
  | .claimGlobalBatch entries => .ok (entries.map (decodeClaimEntry parse))
  | .error _ => .error "Redis error"
  | _ => .error "Unexpected claim result"

/-- The job of a healthy entry. -/
def ClaimResult.healthy : ClaimResult δ → Option (JobData δ)
  | job j => some j
  | corrupt _ => none

/-! ## The state of a runner -/

inductive WorkerState
  | idle
  | running
  | stopping
  | stopped
  deriving DecidableEq, Repr

/-- Where the claim loop stands: at the acquire of its permit, before the
resumption after a settled await, in a claim call with `n` permits, parked in
`#waitForNotification`, or after its end. -/
inductive LoopPhase
  | notStarted
  | acquiring
  | granted
  | rejected
  | claiming (n : ℕ)
  | parked
  | woken
  | exited
  deriving DecidableEq

/-- How far the promise of an in-flight job is: its processor runs, or its
acknowledgement call is on its way. -/
inductive JobStage
  | handling
  | acknowledging (settled : Settled)
  deriving DecidableEq

/-- An `InFlightEntry`. The serial number stands for the identity of the object. -/
structure InFlightEntry (δ : Type) where
  serial : ℕ
  job : JobData δ
  stage : JobStage

def InFlightEntry.jobId (e : InFlightEntry δ) : String := e.job.id

def InFlightEntry.lockToken (e : InFlightEntry δ) : String := e.job.lockToken.getD ""

/-- Resolved retention policies for both terminal states of a queue. -/
structure QueueRetention where
  completed : ResolvedRetention
  failed : ResolvedRetention

/-- The options that the claim loop reads. -/
structure WorkerDefinitionOptions where
  concurrency : ℕ := 1
  leaseMs : Option Double := none
  claimBatchCap : Option Double := none

structure Runner (δ : Type) where
  leaseMs : Double
  claimBatchCap : Double
  retention : QueueRetention
  semaphore : Semaphore Unit
  state : WorkerState := .idle
  aborted : Bool := false
  loop : LoopPhase := .notStarted
  wakeResolve : Bool := false
  wakePending : Bool := false
  inFlight : List (InFlightEntry δ) := []
  /-- The calls of the processor, in order. -/
  invoked : List (JobData δ) := []
  /-- The events so far, in order. -/
  emitted : List (WorkerEvent δ) := []

namespace Runner

/-- The constructor. The batch cap is clamped to [1, 64]. -/
def new (options : WorkerDefinitionOptions) (retention : QueueRetention) :
    Except String (Runner δ) :=
  (Semaphore.new options.concurrency).map fun semaphore =>
    { leaseMs := options.leaseMs.getD (.ofNat 30000)
      claimBatchCap :=
        Double.min (.ofNat 64) (Double.max (.ofNat 1) (options.claimBatchCap.getD (.ofNat 16)))
      retention
      semaphore }

def emit (r : Runner δ) (events : List (WorkerEvent δ)) : Runner δ :=
  { r with emitted := r.emitted ++ events }

/-! ## Permits -/

/-- `#semaphore.release()`. A waiter is always the claim loop at its acquire. -/
def release (r : Runner δ) : Runner δ :=
  match r.semaphore.release with
  | (some (), semaphore) => { r with semaphore, loop := .granted }
  | (none, semaphore) => { r with semaphore }

/-- `#releasePermits`. -/
def releasePermits : ℕ → Runner δ → Runner δ
  | 0, r => r
  | count + 1, r => releasePermits count r.release

/-- The top-up loop: `n` permits are held, up to `target` as far as they are
free. Each round takes a permit, so `fuel` rounds are enough when no more than
`fuel` permits are free. -/
def topUp (target : Double) : ℕ → ℕ → Semaphore Unit → ℕ × Semaphore Unit
  | 0, n, s => (n, s)
  | fuel + 1, n, s =>
    if .ofNat n < target then
      match s.tryAcquire with
      | (true, s') => topUp target fuel (n + 1) s'
      | (false, _) => (n, s)
    else (n, s)

/-! ## The claim loop -/

/-- The head of the loop, up to its acquire. -/
def loopTop (r : Runner δ) : Runner δ :=
  if r.state = .running then
    match r.semaphore.acquire r.aborted () with
    | (.rejected, semaphore) => { r with semaphore, loop := .rejected }
    | (.granted, semaphore) => { r with semaphore, loop := .granted }
    | (.waiting, semaphore) => { r with semaphore, loop := .acquiring }
  else { r with loop := .exited }

/-- From the granted permit to the claim call. -/
def claimBatch (r : Runner δ) : Runner δ :=
  if r.state = .running then
    let target := Double.min r.claimBatchCap (.ofInt (r.semaphore.available + 1))
    let (n, semaphore) := topUp target r.semaphore.available.toNat 1 r.semaphore
    { r with semaphore, loop := .claiming n }
  else { r.release with loop := .exited }

/-- `#waitForNotification`. -/
def waitForNotification (r : Runner δ) : Runner δ :=
  if r.wakePending then { r with wakePending := false, loop := .woken }
  else { r with wakeResolve := true, loop := .parked }

/-- The body of the loop over the claimed jobs. -/
def dispatch (r : Runner δ) : ClaimResult δ → Runner δ
  | .corrupt jobId => (r.emit [.onWorkerError .corrupt (some jobId)]).release
  | .job job =>
    { r.emit [.onJobStarted job] with
      inFlight := r.inFlight ++ [{ serial := r.invoked.length, job, stage := .handling }]
      invoked := r.invoked ++ [job] }

/-- From the reply of the claim call for `n` jobs to the next await. -/
def onClaimReply (r : Runner δ) (n : ℕ) : Except String (List (ClaimResult δ)) → Runner δ
  | .error _ => ((releasePermits n r).emit [.onWorkerError .claim none]).waitForNotification
  | .ok [] => (releasePermits n r).waitForNotification
  | .ok jobs => (releasePermits (n - jobs.length) (jobs.foldl dispatch r)).loopTop

/-! ## Calls from outside -/

/-- `start`. A runner that is not idle throws. -/
def start (r : Runner δ) : Runner δ :=
  if r.state = .idle then loopTop { r with state := .running } else r

/-- `wake`. -/
def wake (r : Runner δ) : Runner δ :=
  if r.wakeResolve then { r with wakeResolve := false, loop := .woken }
  else { r with wakePending := true }

/-- The poll timer of a parked loop. -/
def pollTimer (r : Runner δ) : Runner δ :=
  if r.loop = .parked then { r with wakeResolve := false, loop := .woken } else r

/-- `stopClaiming`, up to its await. -/
def stopClaiming (r : Runner δ) : Runner δ :=
  if r.state = .running then
    match r.semaphore.abort () with
    | (true, semaphore) =>
      wake { r with state := .stopping, aborted := true, semaphore, loop := .rejected }
    | (false, semaphore) => wake { r with state := .stopping, aborted := true, semaphore }
  else r

/-- `finalize`. -/
def finalize (r : Runner δ) : Runner δ := { r with state := .stopped }

/-- The processor of an entry settles, and its acknowledgement call is sent. -/
def handlerSettled (r : Runner δ) (serial : ℕ) (settled : Settled) : Runner δ :=
  { r with
    inFlight := r.inFlight.map fun e =>
      if e.serial = serial ∧ e.stage = .handling then { e with stage := .acknowledging settled }
      else e }

/-- The acknowledgement call that an entry has sent. -/
def acknowledgement (r : Runner δ) (e : InFlightEntry δ) : Option Call :=
  match e.stage with
  | .handling => none
  | .acknowledging .returned => some (acknowledgeCall r.retention.completed e.job .returned)
  | .acknowledging (.threw message) =>
    some (acknowledgeCall r.retention.failed e.job (.threw message))

/-- The `finally` of an entry: it leaves `#inFlight`, and its permit is released. -/
def settle (r : Runner δ) (e : InFlightEntry δ) : Runner δ :=
  release { r with inFlight := r.inFlight.filter fun x => x.serial ≠ e.serial }

/-- The acknowledgement call of `e` settles: the rest of `#processJob` and its
`finally`. -/
def acknowledged (r : Runner δ) (e : InFlightEntry δ) (reply : Except String AckResult) :
    Runner δ :=
  match e.stage with
  | .handling => r
  | .acknowledging settled => settle (r.emit (processJobTail e.job settled reply)) e

/-- The promise of `#processJob` for `e` rejects, before its acknowledgement or
after it. Only its `finally` runs on. -/
def rejected (r : Runner δ) (e : InFlightEntry δ) : Runner δ := r.settle e

end Runner

/-! ## Inputs -/

/-- What happens to a runner between two resumptions of its own code. -/
inductive RunnerInput (δ : Type)
  | start
  | resume
  | claimReply (reply : Except String (List (ClaimResult δ)))
  | wake
  | pollTimer
  | stopClaiming
  | finalize
  | handlerSettled (serial : ℕ) (settled : Settled)
  | acknowledged (e : InFlightEntry δ) (reply : Except String AckResult)
  | rejected (e : InFlightEntry δ)

namespace Runner

/-- The code that an input runs. -/
def step (r : Runner δ) : RunnerInput δ → Runner δ
  | .start => r.start
  | .resume =>
    match r.loop with
    | .granted => r.claimBatch
    | .rejected => { r with loop := .exited }
    | .woken => r.loopTop
    | _ => r
  | .claimReply reply =>
    match r.loop with
    | .claiming n => r.onClaimReply n reply
    | _ => r
  | .wake => r.wake
  | .pollTimer => r.pollTimer
  | .stopClaiming => r.stopClaiming
  | .finalize => r.finalize
  | .handlerSettled serial settled => r.handlerSettled serial settled
  | .acknowledged e reply => r.acknowledged e reply
  | .rejected e => r.rejected e

/-- The inputs that can happen: a claim reply answers a claim call, with at
most as many entries as the call asked for, an acknowledgement settles for an
entry that is in flight and has sent it, and the promise of one in flight may
reject. -/
def Admits (r : Runner δ) : RunnerInput δ → Prop
  | .claimReply reply => ∃ n, r.loop = .claiming n ∧ ∀ jobs, reply = .ok jobs → jobs.length ≤ n
  | .acknowledged e _ => e ∈ r.inFlight ∧ e.stage ≠ .handling
  | .rejected e => e ∈ r.inFlight
  | _ => True

end Runner

end Panqueue
