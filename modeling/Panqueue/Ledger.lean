-- What the queue is for, job by job: a ledger of each job's place, and the
-- steps that a place can take. The scripts appear only by the acts that
-- their calls and replies show.
import Panqueue.Lib.Runs
import Panqueue.Scripts

namespace Panqueue

/-! ## A job -/

/-- What is known of a job, apart from its place. -/
structure Job where
  queueId : String
  payload : String
  maxRetries : Double
  maxStalls : Double
  createdAt : ℕ
  runs : ℕ := 0
  failures : ℕ := 0
  stalls : ℕ := 0
  lastStartedAt : Option ℕ := none
  lastFailedAt : Option ℕ := none
  lastStalledAt : Option ℕ := none
  lastRequeuedAt : Option ℕ := none
  lastRequeueReason : Option String := none
  failureKind : Option FailureKind := none
  failedReason : Option String := none
  lastError : Option String := none

namespace Job

def enqueued (a : EnqueueArgs) (now : ℕ) : Job where
  queueId := a.queueId
  payload := a.payload
  maxRetries := a.maxRetries
  maxStalls := a.maxStalls
  createdAt := now

def claimed (j : Job) (now : ℕ) : Job :=
  { j with runs := j.runs + 1, lastStartedAt := some now }

/-- A handler failed. -/
def failed (j : Job) (error : String) (now : ℕ) : Job :=
  { j with
    failures := j.failures + 1
    failureKind := some .handler
    failedReason := some error
    lastError := some error
    lastFailedAt := some now }

/-- A lease ran out. -/
def stalled (j : Job) (reason : String) (now : ℕ) : Job :=
  { j with
    stalls := j.stalls + 1
    failureKind := some .stalled
    failedReason := some reason
    lastStalledAt := some now }

/-- A worker gave the job back. -/
def requeued (j : Job) (reason : String) (now : ℕ) : Job :=
  { j with lastRequeuedAt := some now, lastRequeueReason := some reason }

/-- The retry budget still covers the failures. -/
def MayRetry (j : Job) : Prop := Double.ofNat j.failures ≤ j.maxRetries

/-- The stall budget still covers the stalls. -/
def MayStall (j : Job) : Prop := Double.ofNat j.stalls ≤ j.maxStalls

/-- The hash of job `i` in a status, with no field of a place. -/
def hash (i : String) (j : Job) (status : JobStatus) : JobHash where
  id := some i
  queueId := some j.queueId
  payload := some j.payload
  status := some status
  runs := some (.int j.runs)
  failures := some (.int j.failures)
  stalls := some (.int j.stalls)
  maxRetries := some (.ofDouble j.maxRetries)
  maxStalls := some (.ofDouble j.maxStalls)
  createdAt := some (.int j.createdAt)
  lastStartedAt := j.lastStartedAt.map Numeral.ofNat
  lastFailedAt := j.lastFailedAt.map Numeral.ofNat
  lastStalledAt := j.lastStalledAt.map Numeral.ofNat
  lastRequeuedAt := j.lastRequeuedAt.map Numeral.ofNat
  lastRequeueReason := j.lastRequeueReason
  failureKind := j.failureKind
  failedReason := j.failedReason
  lastError := j.lastError

end Job

/-! ## Places -/

/-- The place of a job. There is no sixth one. -/
inductive Place
  | gone
  | waiting (j : Job)
  | active (j : Job) (token : String) (deadline : Score)
  | finished (s : FinalStatus) (j : Job) (endedAt : ℕ)

/-- The hash of a job at its place. -/
def Place.hash (i : String) : Place → Option JobHash
  | gone => none
  | waiting j => some (j.hash i .waiting)
  | active j token deadline =>
    some { j.hash i .active with
      lockToken := some token, leaseDeadline := some (.ofLua (.val deadline)) }
  | finished s j endedAt => some { j.hash i s.status with finishedAt := some (.int endedAt) }

/-- All that a queue shows of one job: its key, how often it waits, its score
in the active set, and its scores in the finished indexes. -/
@[ext]
structure Sight where
  key : Option JobKey
  waits : ℕ
  lease : Option Score
  finishedAt : FinalStatus → Option Score

def Queue.sight (q : Queue) (i : String) : Sight where
  key := q.jobs i
  waits := q.waiting.count i
  lease := q.active.score i
  finishedAt s := (q.index s).score i

/-- What a queue shows of a job at a place. -/
def Place.sight (i : String) (p : Place) : Sight where
  key := (p.hash i).map .hash
  waits := match p with
    | waiting _ => 1
    | _ => 0
  lease := match p with
    | active _ _ deadline => some deadline
    | _ => none
  finishedAt := match p with
    | finished s _ endedAt => Function.update (fun _ => none) s (some (Score.ofNat endedAt))
    | _ => fun _ => none

/-- Job `i` stands at place `p`, and nowhere else. -/
def At (q : Queue) (i : String) (p : Place) : Prop := q.sight i = p.sight i

/-- Each job stands at one place. -/
def Sound (q : Queue) : Prop := ∀ i, ∃ p, At q i p

/-! ## Acts -/

/-- What a call did to one job. -/
inductive Act
  | enqueue (a : EnqueueArgs) (now : ℕ)
  | claim (token : String) (now : ℕ) (deadline : Double)
  | extend (token : String) (deadline : Double)
  | complete (token : String) (now : ℕ)
  | retry (token : String) (error : String) (now : ℕ)
  | fail (token : String) (error : String) (now : ℕ)
  | stall (reason : String) (now : ℕ)
  | stallOut (reason : String) (now : ℕ)
  | requeue (token : String) (reason : String) (now : ℕ)
  deriving DecidableEq

/-- What one entry of a claim reply did to job `i`. -/
def ClaimEntry.acts (i : String) (t : RedisTime) (leaseMs : Double) : ClaimEntry → List Act
  | .job h =>
    if h.id = some i then
      (h.lockToken.map fun token => Act.claim token t.now (leaseMs.plus t.now)).toList
    else []
  | .corrupt _ => []

/-- What one entry of a recover reply did to job `i`. -/
def RecoverEntry.acts (i : String) (t : RedisTime) (reason : String) : RecoverEntry → List Act
  | .job .waiting h => if h.id = some i then [.stall reason t.now] else []
  | .job .failed h => if h.id = some i then [.stallOut reason t.now] else []
  | .corrupt _ => []

/-- What a call with its reply did to job `i`. -/
def actsOf (i : String) : (Call × RedisTime) × Reply → List Act
  | ((.enqueue a, t), .enqueue (.enqueued _)) =>
    if a.jobId = i then [.enqueue a t.now] else []
  | ((.claimGlobalBatch a, t), .claimGlobalBatch es) => es.flatMap (·.acts i t a.leaseMs)
  | ((.complete a, t), .complete .completed) =>
    if a.jobId = i then [.complete a.lockToken t.now] else []
  | ((.fail a, t), .fail .waiting) =>
    if a.jobId = i then [.retry a.lockToken a.error t.now] else []
  | ((.fail a, t), .fail .failed) =>
    if a.jobId = i then [.fail a.lockToken a.error t.now] else []
  | ((.recover a, t), .recover es) => es.flatMap (·.acts i t a.reason)
  | ((.extendLock a, t), .extendLock .extended) =>
    if a.jobId = i then [.extend a.lockToken (a.leaseMs.plus t.now)] else []
  | ((.requeueActive a, t), .requeueActive .waiting) =>
    if a.jobId = i then [.requeue a.lockToken a.reason t.now] else []
  | _ => []

/-! ## Steps -/

/-- The steps of a job between its places, with the acts that they show.
`issue now runs` is the token of the claim at `now` that makes `runs` claims. -/
inductive JobStep (issue : ℕ → ℕ → String) : Place → List Act → Place → Prop
  | enqueue (a : EnqueueArgs) (now : ℕ) :
      JobStep issue .gone [.enqueue a now] (.waiting (.enqueued a now))
  | claim (j : Job) (now : ℕ) (d : Score) :
      JobStep issue (.waiting j) [.claim (issue now (j.runs + 1)) now (.val d)]
        (.active (j.claimed now) (issue now (j.runs + 1)) d)
  | extend (j : Job) (token : String) (d d' : Score) :
      JobStep issue (.active j token d) [.extend token (.val d')] (.active j token d')
  | complete (j : Job) (token : String) (d : Score) (now : ℕ) :
      JobStep issue (.active j token d) [.complete token now] (.finished .completed j now)
  | retry (j : Job) (token : String) (d : Score) (error : String) (now : ℕ)
      (h : (j.failed error now).MayRetry) :
      JobStep issue (.active j token d) [.retry token error now] (.waiting (j.failed error now))
  | fail (j : Job) (token : String) (d : Score) (error : String) (now : ℕ)
      (h : ¬ (j.failed error now).MayRetry) :
      JobStep issue (.active j token d) [.fail token error now]
        (.finished .failed (j.failed error now) now)
  | stall (j : Job) (token : String) (d : Score) (reason : String) (now : ℕ)
      (hd : d ≤ Score.ofNat now) (h : (j.stalled reason now).MayStall) :
      JobStep issue (.active j token d) [.stall reason now] (.waiting (j.stalled reason now))
  | stallOut (j : Job) (token : String) (d : Score) (reason : String) (now : ℕ)
      (hd : d ≤ Score.ofNat now) (h : ¬ (j.stalled reason now).MayStall) :
      JobStep issue (.active j token d) [.stallOut reason now]
        (.finished .failed (j.stalled reason now) now)
  | requeue (j : Job) (token : String) (d : Score) (reason : String) (now : ℕ) :
      JobStep issue (.active j token d) [.requeue token reason now]
        (.waiting (j.requeued reason now))
  | evict (s : FinalStatus) (j : Job) (now : ℕ) : JobStep issue (.finished s j now) [] .gone

/-- The token that a claim of job `i` gets. -/
def issued (sha1hex : String → String) (i : String) (now runs : ℕ) : String :=
  sha1hex (tokenText i now runs)

end Panqueue
