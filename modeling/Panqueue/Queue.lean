-- One queue in Redis: the keys of its bundle, the job hashes, and the
-- commands that the Lua scripts run on them. A job key is named by its job
-- id; `keys.ts` gives each id of a queue its own key.
import Mathlib.Data.String.Basic
import Mathlib.Tactic.Simps.Basic
import Panqueue.JobHash
import Panqueue.Lib.Script
import Panqueue.Lib.SortedSet

namespace Panqueue

/-- The reply of TIME. -/
structure RedisTime where
  sec : ℕ
  usec : ℕ
  deriving DecidableEq

/-- The Unix time in milliseconds, as each script computes it from TIME. -/
def RedisTime.now (t : RedisTime) : ℕ := t.sec * 1000 + t.usec / 1000

/-- The value of a job key: a hash, or a value of another type. -/
inductive JobKey
  | hash (h : JobHash)
  | other
  deriving DecidableEq

/-- The concurrency hash. -/
structure Concurrency where
  limit : Option Numeral := none
  version : Option Numeral := none
  deriving DecidableEq

/-- The two terminal states, each with a sorted set of its own. -/
inductive FinalStatus
  | completed
  | failed
  deriving DecidableEq

def FinalStatus.status : FinalStatus → JobStatus
  | .completed => .completed
  | .failed => .failed

/-- The state of one queue. The head of `waiting` is its left end. `notify`
lists the messages that were published on the notify channel, oldest first. -/
structure Queue where
  waiting : List String := []
  active : SortedSet Score String := .empty
  completed : SortedSet Score String := .empty
  failed : SortedSet Score String := .empty
  concurrency : Concurrency := {}
  jobs : String → Option JobKey := fun _ => none
  notify : List String := []

namespace Queue

/-- The finished index of a terminal state. -/
def index (q : Queue) : FinalStatus → SortedSet Score String
  | .completed => q.completed
  | .failed => q.failed

def setIndex (q : Queue) (z : SortedSet Score String) : FinalStatus → Queue
  | .completed => { q with completed := z }
  | .failed => { q with failed := z }

@[simps] def setJob (q : Queue) (i : String) (v : Option JobKey) : Queue :=
  { q with jobs := Function.update q.jobs i v }

@[simps] def setHash (q : Queue) (i : String) (h : JobHash) : Queue :=
  { q with jobs := Function.update q.jobs i (some (.hash h)) }

@[simps] def setActive (q : Queue) (z : SortedSet Score String) : Queue := { q with active := z }

@[simps] def setWaiting (q : Queue) (l : List String) : Queue := { q with waiting := l }

@[simps] def publish (q : Queue) (i : String) : Queue :=
  { q with notify := q.notify ++ [i] }

/-- The stored global limit, as the scripts read it: text that is no number is no limit. -/
def limit (q : Queue) : Option Double := q.concurrency.limit.bind Numeral.tonumber

/-- The job keys `ids` are deleted, one after the other. -/
def forget (q : Queue) (ids : List String) : Queue := ids.foldl (fun q i => q.setJob i none) q

/-! ## What the updates leave alone -/

variable (q : Queue) (i : String) (v : Option JobKey) (h : JobHash) (l : List String)
  (z : SortedSet Score String) (s : FinalStatus)

@[simp] theorem setIndex_waiting : (q.setIndex z s).waiting = q.waiting := by cases s <;> rfl

@[simp] theorem setIndex_active : (q.setIndex z s).active = q.active := by cases s <;> rfl

@[simp] theorem setIndex_jobs : (q.setIndex z s).jobs = q.jobs := by cases s <;> rfl

@[simp] theorem setIndex_notify : (q.setIndex z s).notify = q.notify := by cases s <;> rfl

@[simp] theorem setIndex_concurrency : (q.setIndex z s).concurrency = q.concurrency := by
  cases s <;> rfl

theorem setIndex_index (s' : FinalStatus) :
    (q.setIndex z s).index s' = if s' = s then z else q.index s' := by
  cases s <;> cases s' <;> rfl

@[simp] theorem setHash_index : (q.setHash i h).index s = q.index s := by cases s <;> rfl

theorem forget_eq (ids : List String) :
    q.forget ids = { q with jobs := fun k => if k ∈ ids then none else q.jobs k } := by
  induction ids generalizing q with
  | nil => simp [forget]
  | cons i ids ih =>
    change (q.setJob i none).forget ids = _
    rw [ih]
    simp only [setJob, Queue.mk.injEq, true_and, and_true]
    funext k
    by_cases hk : k = i
    · simp [hk]
    · simp [hk]

end Queue

inductive RedisError
  | wrongType
  | notAnInteger
  | overflow
  | notAFloat
  | luaError
  deriving DecidableEq, Repr

/-- How far HINCRBY counts: without a bound, or to the end of 64 bits as the one
of Redis. -/
inductive Counters
  | unbounded
  | bits64
  deriving DecidableEq

/-- The count after `n`. -/
def Counters.next : Counters → ℤ → Except RedisError ℤ
  | unbounded, n => .ok (n + 1)
  | bits64, n =>
    if n < -2 ^ 63 ∨ 2 ^ 63 ≤ n then .error .notAnInteger
    else if n + 1 = 2 ^ 63 then .error .overflow
    else .ok (n + 1)

abbrev QueueScript := Script RedisError Queue

/-! ## Commands on a job key -/

namespace Redis

/-- EXISTS. -/
def keyExists (i : String) : QueueScript Bool := fun q => .ok (q.jobs i).isSome q

/-- DEL. -/
def del (i : String) : QueueScript Unit := fun q => .ok () (q.setJob i none)

/-- HGET. -/
def hget {β : Type} (i : String) (get : JobHash → Option β) : QueueScript (Option β) := fun q =>
  match q.jobs i with
  | none => .ok none q
  | some (.hash h) => .ok (get h) q
  | some .other => .error .wrongType q

/-- HSET, with the writes to the hash as a function. An absent key is an empty hash. -/
def hset (i : String) (put : JobHash → JobHash) : QueueScript Unit := fun q =>
  match q.jobs i with
  | none => .ok () (q.setHash i (put {}))
  | some (.hash h) => .ok () (q.setHash i (put h))
  | some .other => .error .wrongType q

/-- HSETNX on the field `id`. -/
def hsetnxId (i : String) : QueueScript Bool := fun q =>
  match q.jobs i with
  | none => .ok true (q.setHash i { id := some i })
  | some (.hash h) =>
    if h.id.isSome then .ok false q else .ok true (q.setHash i { h with id := some i })
  | some .other => .error .wrongType q

/-- HDEL of `lockToken` and `leaseDeadline`. A hash that loses its last field is gone. -/
def hdelLease (i : String) : QueueScript Unit := fun q =>
  match q.jobs i with
  | none => .ok () q
  | some (.hash h) =>
    let h' := { h with lockToken := none, leaseDeadline := none }
    .ok () (if h'.isEmpty then q.setJob i none else q.setHash i h')
  | some .other => .error .wrongType q

/-- HINCRBY by 1, on counters of a kind. An absent field counts as 0. -/
def hincrbyOf (w : Counters) (i : String) (get : JobHash → Option Numeral)
    (put : Numeral → JobHash → JobHash) : QueueScript ℤ := fun q =>
  match q.jobs i with
  | none => .ok 1 (q.setHash i (put (.int 1) {}))
  | some (.hash h) =>
    match get h with
    | none => .ok 1 (q.setHash i (put (.int 1) h))
    | some (.int n) =>
      match w.next n with
      | .ok n' => .ok n' (q.setHash i (put (.int n') h))
      | .error e => .error e q
    | some _ => .error .notAnInteger q
  | some .other => .error .wrongType q

/-- HINCRBY on counters without a bound. -/
abbrev hincrby := hincrbyOf .unbounded

/-- HGETALL, with the fields kept as the hash they list. -/
def hgetall (i : String) : QueueScript JobHash := fun q =>
  match q.jobs i with
  | none => .ok {} q
  | some (.hash h) => .ok h q
  | some .other => .error .wrongType q

/-! ## Commands on the waiting list -/

/-- LPUSH. -/
def lpush (i : String) : QueueScript Unit := fun q => .ok () (q.setWaiting (i :: q.waiting))

/-- RPOP. -/
def rpop : QueueScript (Option String) := fun q =>
  match q.waiting.getLast? with
  | none => .ok none q
  | some i => .ok (some i) (q.setWaiting q.waiting.dropLast)

/-- LLEN. -/
def llen : QueueScript ℕ := fun q => .ok q.waiting.length q

/-! ## Commands on the active set -/

/-- ZADD. A score that is NaN is refused. -/
def zaddActive (d : Double) (i : String) : QueueScript Unit := fun q =>
  match d with
  | .nan => .error .notAFloat q
  | .val s => .ok () (q.setActive (q.active.add s i))

/-- ZADD XX: only a member of the set gets the score. -/
def zaddActiveXX (d : Double) (i : String) : QueueScript Unit := fun q =>
  match d with
  | .nan => .error .notAFloat q
  | .val s =>
    if (q.active.score i).isSome then .ok () (q.setActive (q.active.add s i)) else .ok () q

/-- ZSCORE. -/
def zscoreActive (i : String) : QueueScript (Option Score) := fun q => .ok (q.active.score i) q

/-- ZREM, true when the member was there. -/
def zremActive (i : String) : QueueScript Bool := fun q =>
  .ok (q.active.score i).isSome (q.setActive (q.active.remove i))

/-- ZCARD. -/
def zcardActive : QueueScript ℕ := fun q => .ok q.active.card q

/-- ZRANGEBYSCORE with LIMIT 0. A negative limit asks for all members. -/
def zrangebyscoreActive (lo hi : Score) (limit : ℤ) : QueueScript (List String) := fun q =>
  let ids := q.active.rangeByScore lo hi
  .ok (if limit < 0 then ids else ids.take limit.toNat) q

/-! ## Commands on a finished index -/

/-- ZADD. -/
def zaddIndex (s : FinalStatus) (score : Score) (i : String) : QueueScript Unit := fun q =>
  .ok () (q.setIndex ((q.index s).add score i) s)

/-- ZCARD. -/
def zcardIndex (s : FinalStatus) : QueueScript ℕ := fun q => .ok (q.index s).card q

/-- ZRANGEBYSCORE. -/
def zrangebyscoreIndex (s : FinalStatus) (lo hi : Score) : QueueScript (List String) := fun q =>
  .ok ((q.index s).rangeByScore lo hi) q

/-- ZREMRANGEBYSCORE. -/
def zremrangebyscoreIndex (s : FinalStatus) (lo hi : Score) : QueueScript Unit := fun q =>
  .ok () (q.setIndex ((q.index s).removeByScore lo hi) s)

/-- ZRANGE for the first `k` members. -/
def zrangeIndex (s : FinalStatus) (k : ℕ) : QueueScript (List String) := fun q =>
  .ok ((q.index s).firstMembers k) q

/-- ZREMRANGEBYRANK for the first `k` members. -/
def zremrangebyrankIndex (s : FinalStatus) (k : ℕ) : QueueScript Unit := fun q =>
  .ok () (q.setIndex ((q.index s).dropFirst k) s)

/-! ## The concurrency hash and the notify channel -/

/-- HGET of the limit, then `tonumber`. -/
def hgetLimit : QueueScript (Option Double) := fun q => .ok q.limit q

/-- HMGET of the limit and the version. -/
def hmgetConcurrency : QueueScript Concurrency := fun q => .ok q.concurrency q

/-- HSET of the limit and the version. -/
def hsetConcurrency (c : Concurrency) : QueueScript Unit := fun q =>
  .ok () { q with concurrency := c }

/-- PUBLISH on the notify channel. -/
def publish (i : String) : QueueScript Unit := fun q => .ok () (q.publish i)

end Redis

end Panqueue
