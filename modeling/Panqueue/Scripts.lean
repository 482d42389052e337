-- The Lua scripts of packages/client and packages/worker, command by command,
-- and the calls that a client or a worker sends.
import Panqueue.Commands
import Panqueue.Lib.Rounding

namespace Panqueue

variable {m : Type → Type} [Monad m] (R : Commands m)

/-! ## Retention -/

/-- Retention for one terminal job state: keep all, keep none, or bounds. -/
inductive RetentionRule
  | all (keep : Bool)
  | bounds (ttl count : Option ℤ)
  deriving DecidableEq

inductive RetentionMode
  | delete
  | keep
  | trim
  deriving DecidableEq

/-- A rule as the scripts get it. A bound of -1 is no bound. -/
structure ResolvedRetention where
  mode : RetentionMode
  ttl : ℤ
  count : ℤ
  deriving DecidableEq

/-- Completed jobs are deleted by default. -/
def DEFAULT_COMPLETED_RETENTION : RetentionRule := .all false

/-- Failed jobs are kept 7 days by default, at most 1000. -/
def DEFAULT_FAILED_RETENTION : RetentionRule := .bounds (some 604800000) (some 1000)

def resolveRetention (rule : Option RetentionRule) (fallback : RetentionRule) :
    ResolvedRetention :=
  match rule.getD fallback with
  | .all false => { mode := .delete, ttl := -1, count := -1 }
  | .all true => { mode := .keep, ttl := -1, count := -1 }
  | .bounds ttl? count? =>
    let ttl := ttl?.getD (-1)
    let count := count?.getD (-1)
    if ttl < 0 ∧ count < 0 then { mode := .keep, ttl := -1, count := -1 }
    else { mode := .trim, ttl, count }

/-- The age bound of `retentionLua`: the jobs that finished at the cutoff or
before it go, hash and index entry. -/
def Lua.trimByTtl (s : FinalStatus) (ttl : ℤ) (now : ℕ) : m Unit :=
  if 0 ≤ ttl then do
    let cutoff := Score.ofRat (now - ttl : ℤ)
    let ids ← R.zrangebyscoreIndex s (Score.ofNat 0) cutoff
    Script.forEach ids R.del
    R.zremrangebyscoreIndex s (Score.ofNat 0) cutoff
  else pure ()

/-- The count bound of `retentionLua`: the oldest jobs past the bound go. -/
def Lua.trimByCount (s : FinalStatus) (count : ℤ) : m Unit :=
  if 0 ≤ count then do
    let overflow : ℤ := (← R.zcardIndex s) - count
    if 0 < overflow then do
      let ids ← R.zrangeIndex s overflow.toNat
      Script.forEach ids R.del
      R.zremrangebyrankIndex s overflow.toNat
    else pure ()
  else pure ()

/-- The fragment `retentionLua` that complete, fail and recover share. -/
def Lua.retentionLua (s : FinalStatus) (r : ResolvedRetention) (now : ℕ) (jobId : String) :
    m Unit :=
  if r.mode = .delete then R.del jobId
  else do
    R.hset jobId fun h => { h with status := some s.status, finishedAt := some (.int now) }
    R.zaddIndex s (Score.ofNat now) jobId
    if r.mode = .trim then do
      trimByTtl R s r.ttl now
      trimByCount R s r.count
    else pure ()

/-- A freed permit wakes the blocked claimers: with a limit, and with work waiting. -/
def Lua.publishFreed (limited : Bool) (jobId : String) : m Unit := do
  let waiting ← R.llen
  if limited = true ∧ 0 < waiting then R.publish jobId else pure ()

/-! ## enqueue -/

structure EnqueueArgs where
  jobId : String
  payload : String
  queueId : String
  maxRetries : Double
  maxStalls : Double
  deriving DecidableEq

inductive EnqueueResult
  | enqueued (jobId : String)
  | collision (jobId : String)
  deriving DecidableEq

/-- `ENQUEUE_SCRIPT`. -/
def Lua.enqueue (t : RedisTime) (a : EnqueueArgs) : m EnqueueResult := do
  let fresh ← R.hsetnxId a.jobId
  if fresh = false then pure (.collision a.jobId)
  else do
    R.hset a.jobId fun h =>
      { h with
        queueId := some a.queueId
        payload := some a.payload
        status := some .waiting
        runs := some (.int 0)
        failures := some (.int 0)
        stalls := some (.int 0)
        maxRetries := some (.ofDouble a.maxRetries)
        maxStalls := some (.ofDouble a.maxStalls)
        createdAt := some (.int t.now) }
    R.lpush a.jobId
    R.publish a.jobId
    pure (.enqueued a.jobId)

/-! ## claim-global-batch -/

structure ClaimGlobalBatchArgs where
  leaseMs : Double
  count : ℕ
  deriving DecidableEq

/-- One entry of a claim reply: a job hash, or a pointer with no hash. -/
inductive ClaimEntry
  | job (h : JobHash)
  | corrupt (jobId : String)
  deriving DecidableEq

/-- The text whose hash is the lock token of a claim. -/
def tokenText (jobId : String) (now : ℕ) (runs : ℤ) : String :=
  jobId ++ ":" ++ toString now ++ ":" ++ toString runs

/-- The body of the claim loop, for one popped job. -/
def Lua.claimOne (sha1hex : String → String) (now : ℕ) (deadline : Double) (jobId : String) :
    m ClaimEntry := do
  let found ← R.keyExists jobId
  if found = false then pure (.corrupt jobId)
  else do
    let runs ← R.hincrby jobId JobHash.runs fun v h => { h with runs := some v }
    let token := sha1hex (tokenText jobId now runs)
    R.hset jobId fun h =>
      { h with
        status := some .active
        lastStartedAt := some (.int now)
        lockToken := some token
        leaseDeadline := some (.ofLua deadline) }
    R.zaddActive deadline jobId
    let h ← R.hgetall jobId
    pure (.job h)

/-- The claim loop, with what it does for each popped job. It stops early when
the waiting list is empty. -/
def Lua.claimEach {α : Type} (one : String → m α) : ℕ → m (List α)
  | 0 => pure []
  | n + 1 => do
    let popped ← R.rpop
    match popped with
    | none => pure []
    | some jobId => do
      let entry ← one jobId
      let claimed ← claimEach one n
      pure (entry :: claimed)

/-- The jobs that a claim may take: the count it asks for, clamped to the free
capacity when a limit is stored. -/
def claimCount (limit : Option Double) (active count : ℕ) : ℕ :=
  match limit with
  | none => count
  | some limit =>
    let free := limit.addRat (-active)
    if free < .ofNat 1 then 0
    else if free < .ofNat count then free.rounds else count

/-- `CLAIM_GLOBAL_BATCH_SCRIPT`, with what it does for each popped job under the
deadline of the call. -/
def Lua.claimBatch {α : Type} (one : Double → String → m α) (t : RedisTime)
    (a : ClaimGlobalBatchArgs) : m (List α) := do
  let limit ← R.hgetLimit
  let active ← R.zcardActive
  claimEach R (one (a.leaseMs.plus t.now)) (claimCount limit active a.count)

/-- `CLAIM_GLOBAL_BATCH_SCRIPT`. -/
def Lua.claimGlobalBatch (sha1hex : String → String) (t : RedisTime) (a : ClaimGlobalBatchArgs) :
    m (List ClaimEntry) :=
  claimBatch R (claimOne R sha1hex t.now) t a

/-! ## complete -/

structure CompleteArgs where
  jobId : String
  lockToken : String
  retention : ResolvedRetention
  deriving DecidableEq

inductive CompleteResult
  | completed
  | stale
  | missing
  deriving DecidableEq

/-- `COMPLETE_SCRIPT`, with what stands for its retention. -/
def Lua.completeWith (retain : FinalStatus → ResolvedRetention → ℕ → String → m Unit)
    (t : RedisTime) (a : CompleteArgs) : m CompleteResult := do
  let found ← R.keyExists a.jobId
  if found = false then pure .missing
  else do
    let token ← R.hget a.jobId JobHash.lockToken
    if token ≠ some a.lockToken then pure .stale
    else do
      let _ ← R.zremActive a.jobId
      R.hdelLease a.jobId
      retain .completed a.retention t.now a.jobId
      let limit ← R.hgetLimit
      publishFreed R limit.isSome a.jobId
      pure .completed

/-- `COMPLETE_SCRIPT`. -/
def Lua.complete (t : RedisTime) (a : CompleteArgs) : m CompleteResult :=
  completeWith R (retentionLua R) t a

/-! ## fail -/

structure FailArgs where
  jobId : String
  error : String
  lockToken : String
  retention : ResolvedRetention
  deriving DecidableEq

inductive FailResult
  | waiting
  | failed
  | stale
  | missing
  deriving DecidableEq

/-- `FAIL_SCRIPT`, with what stands for its retention. -/
def Lua.failWith (retain : FinalStatus → ResolvedRetention → ℕ → String → m Unit)
    (t : RedisTime) (a : FailArgs) : m FailResult := do
  let found ← R.keyExists a.jobId
  if found = false then pure .missing
  else do
    let token ← R.hget a.jobId JobHash.lockToken
    if token ≠ some a.lockToken then pure .stale
    else do
      let _ ← R.zremActive a.jobId
      let failures ← R.hincrby a.jobId JobHash.failures fun v h => { h with failures := some v }
      R.hset a.jobId fun h =>
        { h with
          failureKind := some .handler
          failedReason := some a.error
          lastError := some a.error
          lastFailedAt := some (.int t.now) }
      R.hdelLease a.jobId
      let stored ← R.hget a.jobId JobHash.maxRetries
      let maxRetries := (stored.bind Numeral.tonumber).getD (.ofNat 0)
      if Double.ofInt failures ≤ maxRetries then do
        R.hset a.jobId fun h => { h with status := some .waiting }
        R.lpush a.jobId
        R.publish a.jobId
        pure .waiting
      else do
        retain .failed a.retention t.now a.jobId
        let limit ← R.hgetLimit
        publishFreed R limit.isSome a.jobId
        pure .failed

/-- `FAIL_SCRIPT`. -/
def Lua.fail (t : RedisTime) (a : FailArgs) : m FailResult := failWith R (retentionLua R) t a

/-! ## recover -/

structure RecoverArgs where
  batchSize : ℤ
  reason : String
  retention : ResolvedRetention
  deriving DecidableEq

inductive RecoverOutcome
  | waiting
  | failed
  deriving DecidableEq

/-- One entry of a recover reply: an outcome with the job hash as it stood
before retention, or a pointer with no hash. -/
inductive RecoverEntry
  | job (outcome : RecoverOutcome) (h : JobHash)
  | corrupt (jobId : String)
  deriving DecidableEq

/-- The body of the recover loop after the ZREM of one candidate, with what
stands for its retention. -/
def Lua.recoverRemovedWith (retain : FinalStatus → ResolvedRetention → ℕ → String → m Unit)
    (t : RedisTime) (a : RecoverArgs) (limited : Bool) (jobId : String) : m RecoverEntry := do
  let found ← R.keyExists jobId
  if found = false then do
    publishFreed R limited jobId
    pure (.corrupt jobId)
  else do
    let stalls ← R.hincrby jobId JobHash.stalls fun v h => { h with stalls := some v }
    R.hset jobId fun h =>
      { h with
        failureKind := some .stalled
        failedReason := some a.reason
        lastStalledAt := some (.int t.now) }
    R.hdelLease jobId
    let stored ← R.hget jobId JobHash.maxStalls
    let maxStalls := (stored.bind Numeral.tonumber).getD (.ofNat 5)
    if Double.ofInt stalls ≤ maxStalls then do
      R.hset jobId fun h => { h with status := some .waiting }
      R.lpush jobId
      R.publish jobId
      let h ← R.hgetall jobId
      pure (.job .waiting h)
    else do
      R.hset jobId fun h =>
        { h with status := some .failed, finishedAt := some (.int t.now) }
      let h ← R.hgetall jobId
      retain .failed a.retention t.now jobId
      publishFreed R limited jobId
      pure (.job .failed h)

/-- The body of the recover loop after the ZREM of one candidate. -/
def Lua.recoverRemoved (t : RedisTime) (a : RecoverArgs) (limited : Bool) (jobId : String) :
    m RecoverEntry := recoverRemovedWith R (retentionLua R) t a limited jobId

/-- The body of the recover loop, with what it does for a candidate that it took
from the active set. A candidate that was renewed meanwhile, or that another
sweep took, is left alone. -/
def Lua.recoverTaken {α : Type} (taken : String → m α) (t : RedisTime) (jobId : String) :
    m (List α) := do
  let score ← R.zscoreActive jobId
  if score.any (fun s => decide (s ≤ Score.ofNat t.now)) then do
    let removed ← R.zremActive jobId
    if removed then do
      let entry ← taken jobId
      pure [entry]
    else pure []
  else pure []

/-- The body of the recover loop. -/
def Lua.recoverOne (t : RedisTime) (a : RecoverArgs) (limited : Bool) (jobId : String) :
    m (List RecoverEntry) := recoverTaken R (recoverRemoved R t a limited) t jobId

/-- The recover loop over the candidates, with what it does for each. -/
def Lua.recoverEach {α : Type} (one : String → m (List α)) : List String → m (List α)
  | [] => pure []
  | jobId :: ids => do
    let entry ← one jobId
    let recovered ← recoverEach one ids
    pure (entry ++ recovered)

/-- `RECOVER_SCRIPT`, with what it does for each candidate. -/
def Lua.recoverBatch {α : Type} (one : Bool → String → m (List α)) (t : RedisTime)
    (a : RecoverArgs) : m (List α) := do
  let limit ← R.hgetLimit
  let candidates ← R.zrangebyscoreActive (Score.ofNat 0) (Score.ofNat t.now) a.batchSize
  recoverEach (one limit.isSome) candidates

/-- `RECOVER_SCRIPT`. -/
def Lua.recover (t : RedisTime) (a : RecoverArgs) : m (List RecoverEntry) :=
  recoverBatch R (recoverOne R t a) t a

/-! ## extend-lock -/

structure ExtendLockArgs where
  jobId : String
  lockToken : String
  leaseMs : Double
  deriving DecidableEq

inductive ExtendLockResult
  | extended
  | stale
  | missing
  deriving DecidableEq

/-- `EXTEND_LOCK_SCRIPT`. -/
def Lua.extendLock (t : RedisTime) (a : ExtendLockArgs) : m ExtendLockResult := do
  let found ← R.keyExists a.jobId
  if found = false then pure .missing
  else do
    let token ← R.hget a.jobId JobHash.lockToken
    if token ≠ some a.lockToken then pure .stale
    else do
      let newDeadline := a.leaseMs.plus t.now
      R.zaddActiveXX newDeadline a.jobId
      let score ← R.zscoreActive a.jobId
      if score.isNone then pure .stale
      else do
        R.hset a.jobId fun h => { h with leaseDeadline := some (.ofLua newDeadline) }
        pure .extended

/-! ## requeue-active -/

structure RequeueActiveArgs where
  jobId : String
  lockToken : String
  reason : String
  deriving DecidableEq

inductive RequeueActiveResult
  | waiting
  | stale
  | missing
  deriving DecidableEq

/-- `REQUEUE_ACTIVE_SCRIPT`. -/
def Lua.requeueActive (t : RedisTime) (a : RequeueActiveArgs) : m RequeueActiveResult := do
  let found ← R.keyExists a.jobId
  if found = false then pure .missing
  else do
    let token ← R.hget a.jobId JobHash.lockToken
    if token ≠ some a.lockToken then pure .stale
    else do
      let _ ← R.zremActive a.jobId
      R.hset a.jobId fun h =>
        { h with
          lastRequeuedAt := some (.int t.now)
          lastRequeueReason := some a.reason
          status := some .waiting }
      R.hdelLease a.jobId
      R.lpush a.jobId
      R.publish a.jobId
      pure .waiting

/-! ## declare-concurrency-limit -/

structure DeclareConcurrencyLimitArgs where
  limit : Double
  version : Double
  deriving DecidableEq

inductive DeclareStatus
  | written
  | ignored
  | unchanged
  | conflict
  deriving DecidableEq

/-- `DECLARE_CONCURRENCY_LIMIT_SCRIPT`. The second part of the reply is the
limit that is stored after the call. A stored version that is no number fails
the comparison. -/
def Lua.declareConcurrencyLimit (a : DeclareConcurrencyLimitArgs) :
    m (DeclareStatus × Option Double) := do
  let stored ← R.hmgetConcurrency
  let declared : Concurrency :=
    { limit := some (.ofDouble a.limit), version := some (.ofDouble a.version) }
  match stored.version with
  | none => do
    R.hsetConcurrency declared
    pure (.written, some a.limit)
  | some v => do
    let storedLimit := stored.limit.bind Numeral.tonumber
    match v.tonumber with
    | none => R.raise .luaError
    | some storedVersion =>
      if storedVersion < a.version then do
        R.hsetConcurrency declared
        pure (.written, some a.limit)
      else if a.version < storedVersion then pure (.ignored, storedLimit)
      else if storedLimit.any (fun l => decide (a.limit.NumEq l)) then
        pure (.unchanged, storedLimit)
      else pure (.conflict, storedLimit)

/-! ## Calls -/

/-- A call of one of the queue's scripts. -/
inductive Call
  | enqueue (a : EnqueueArgs)
  | claimGlobalBatch (a : ClaimGlobalBatchArgs)
  | complete (a : CompleteArgs)
  | fail (a : FailArgs)
  | recover (a : RecoverArgs)
  | extendLock (a : ExtendLockArgs)
  | requeueActive (a : RequeueActiveArgs)
  | declareConcurrencyLimit (a : DeclareConcurrencyLimitArgs)
  deriving DecidableEq

inductive Reply
  | enqueue (r : EnqueueResult)
  | claimGlobalBatch (r : List ClaimEntry)
  | complete (r : CompleteResult)
  | fail (r : FailResult)
  | recover (r : List RecoverEntry)
  | extendLock (r : ExtendLockResult)
  | requeueActive (r : RequeueActiveResult)
  | declareConcurrencyLimit (r : DeclareStatus × Option Double)
  | error (e : RedisError)
  deriving DecidableEq

/-- The reply of a script, and the store it leaves, also after an error. -/
def runScript {σ α : Type} (x : Script RedisError σ α) (reply : α → Reply) (s : σ) : Reply × σ :=
  match x s with
  | .ok a s' => (reply a, s')
  | .error e s' => (.error e, s')

/-- One script execution over some commands. The scripts are atomic, so the clock
stands still in one. -/
def Lua.exec {σ : Type} (R : Commands (Script RedisError σ)) (sha1hex : String → String)
    (op : Call × RedisTime) : σ → Reply × σ :=
  match op.1 with
  | .enqueue a => runScript (enqueue R op.2 a) .enqueue
  | .claimGlobalBatch a => runScript (claimGlobalBatch R sha1hex op.2 a) .claimGlobalBatch
  | .complete a => runScript (complete R op.2 a) .complete
  | .fail a => runScript (fail R op.2 a) .fail
  | .recover a => runScript (recover R op.2 a) .recover
  | .extendLock a => runScript (extendLock R op.2 a) .extendLock
  | .requeueActive a => runScript (requeueActive R op.2 a) .requeueActive
  | .declareConcurrencyLimit a =>
    runScript (declareConcurrencyLimit R a) .declareConcurrencyLimit

/-! ## The scripts on one queue -/

abbrev trimByTtl := Lua.trimByTtl Redis.commands

abbrev trimByCount := Lua.trimByCount Redis.commands

abbrev retentionLua := Lua.retentionLua Redis.commands

abbrev publishFreed := Lua.publishFreed Redis.commands

abbrev enqueue := Lua.enqueue Redis.commands

abbrev claimOne := Lua.claimOne Redis.commands

abbrev claimLoop (sha1hex : String → String) (now : ℕ) (deadline : Double) :
    ℕ → QueueScript (List ClaimEntry) :=
  Lua.claimEach Redis.commands (claimOne sha1hex now deadline)

abbrev claimGlobalBatch := Lua.claimGlobalBatch Redis.commands

abbrev complete := Lua.complete Redis.commands

abbrev fail := Lua.fail Redis.commands

abbrev recoverRemoved := Lua.recoverRemoved Redis.commands

abbrev recoverOne := Lua.recoverOne Redis.commands

abbrev recoverLoop (t : RedisTime) (a : RecoverArgs) (limited : Bool) :
    List String → QueueScript (List RecoverEntry) :=
  Lua.recoverEach (recoverOne t a limited)

abbrev recover := Lua.recover Redis.commands

abbrev extendLock := Lua.extendLock Redis.commands

abbrev requeueActive := Lua.requeueActive Redis.commands

abbrev declareConcurrencyLimit := Lua.declareConcurrencyLimit Redis.commands

/-- One script execution on the queue, with counters of a kind. -/
def execOf (w : Counters) (sha1hex : String → String) (op : Call × RedisTime) :
    Queue → Reply × Queue :=
  Lua.exec (Redis.commandsOf w) sha1hex op

/-- One script execution on the queue. -/
def exec (sha1hex : String → String) (op : Call × RedisTime) : Queue → Reply × Queue :=
  Lua.exec Redis.commands sha1hex op

end Panqueue
