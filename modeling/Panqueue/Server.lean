-- The Redis server that all queues share: its keys and channels by name, and
-- its commands.
import Panqueue.Keys
import Panqueue.Scripts

namespace Panqueue

/-! ## Keys and channels -/

/-- The fields of a hash: those of a job, and those of the concurrency hash. -/
structure HashValue where
  job : JobHash := {}
  concurrency : Concurrency := {}
  deriving DecidableEq

def HashValue.isEmpty (h : HashValue) : Bool := h.job.isEmpty && decide (h.concurrency = {})

/-- The value of a key. -/
inductive Value
  | list (l : List String)
  | zset (z : SortedSet Score String)
  | hash (h : HashValue)
  | other

namespace Value

/-- The key of a list, a sorted set or a hash that is empty is gone. -/
def ofList (l : List String) : Option Value := if l = [] then none else some (list l)

@[inherit_doc ofList]
def ofZset (z : SortedSet Score String) : Option Value := if z.card = 0 then none else some (zset z)

@[inherit_doc ofList]
def ofHash (h : HashValue) : Option Value := if h.isEmpty then none else some (hash h)

end Value

/-- The server. A channel lists the messages that were published on it, oldest first. -/
structure Server where
  keys : String → Option Value := fun _ => none
  channels : String → List String := fun _ => []

abbrev ServerScript := Script RedisError Server

namespace Server

@[simps] def set (s : Server) (key : String) (v : Option Value) : Server :=
  { s with keys := Function.update s.keys key v }

/-! ## Reading and writing a key -/

/-- A list. An absent key is an empty one. -/
def readList (key : String) : ServerScript (List String) := fun s =>
  match s.keys key with
  | none => .ok [] s
  | some (.list l) => .ok l s
  | some _ => .error .wrongType s

/-- A sorted set. An absent key is an empty one. -/
def readZset (key : String) : ServerScript (SortedSet Score String) := fun s =>
  match s.keys key with
  | none => .ok .empty s
  | some (.zset z) => .ok z s
  | some _ => .error .wrongType s

/-- A hash, or no key. -/
def readHash (key : String) : ServerScript (Option HashValue) := fun s =>
  match s.keys key with
  | none => .ok none s
  | some (.hash h) => .ok (some h) s
  | some _ => .error .wrongType s

def write (key : String) (v : Option Value) : ServerScript Unit := fun s => .ok () (s.set key v)

/-! ## Commands on hashes -/

/-- EXISTS. -/
def keyExists (key : String) : ServerScript Bool := fun s => .ok (s.keys key).isSome s

/-- DEL. -/
def del (key : String) : ServerScript Unit := write key none

/-- HGET. -/
def hget {β : Type} (key : String) (get : JobHash → Option β) : ServerScript (Option β) := do
  let h ← readHash key
  pure (h.bind fun h => get h.job)

/-- HSET, with the writes to the hash as a function. -/
def hset (key : String) (put : JobHash → JobHash) : ServerScript Unit := do
  let h ← readHash key
  let h := h.getD {}
  write key (some (.hash { h with job := put h.job }))

/-- HSETNX on the field `id`. -/
def hsetnxId (key i : String) : ServerScript Bool := do
  let h ← readHash key
  let h := h.getD {}
  if h.job.id.isSome then pure false
  else do
    write key (some (.hash { h with job := { h.job with id := some i } }))
    pure true

/-- HDEL of `lockToken` and `leaseDeadline`. -/
def hdelLease (key : String) : ServerScript Unit := do
  let h ← readHash key
  match h with
  | none => pure ()
  | some h =>
    write key (Value.ofHash { h with
      job := { h.job with lockToken := none, leaseDeadline := none } })

/-- HINCRBY by 1, on counters of a kind. An absent field counts as 0. -/
def hincrbyOf (w : Counters) (key : String) (get : JobHash → Option Numeral)
    (put : Numeral → JobHash → JobHash) : ServerScript ℤ := do
  let h ← readHash key
  let old := h.bind fun h => get h.job
  let h := h.getD {}
  match old with
  | none => do
    write key (some (.hash { h with job := put (.int 1) h.job }))
    pure 1
  | some (.int n) =>
    match w.next n with
    | .ok n' => do
      write key (some (.hash { h with job := put (.int n') h.job }))
      pure n'
    | .error e => throw e
  | some _ => throw .notAnInteger

/-- HGETALL, with the fields of a job. -/
def hgetall (key : String) : ServerScript JobHash := do
  let h ← readHash key
  pure (h.getD {}).job

/-- HGET of the limit, then `tonumber`. -/
def hgetLimit (key : String) : ServerScript (Option Double) := do
  let h ← readHash key
  pure ((h.getD {}).concurrency.limit.bind Numeral.tonumber)

/-- HMGET of the limit and the version. -/
def hmgetConcurrency (key : String) : ServerScript Concurrency := do
  let h ← readHash key
  pure (h.getD {}).concurrency

/-- HSET of the limit and the version. -/
def hsetConcurrency (key : String) (c : Concurrency) : ServerScript Unit := do
  let h ← readHash key
  write key (some (.hash { h.getD {} with concurrency := c }))

/-! ## Commands on lists and channels -/

/-- LPUSH. -/
def lpush (key i : String) : ServerScript Unit := do
  let l ← readList key
  write key (Value.ofList (i :: l))

/-- RPOP. -/
def rpop (key : String) : ServerScript (Option String) := do
  let l ← readList key
  match l.getLast? with
  | none => pure none
  | some i => do
    write key (Value.ofList l.dropLast)
    pure (some i)

/-- LLEN. -/
def llen (key : String) : ServerScript ℕ := do
  let l ← readList key
  pure l.length

/-- PUBLISH. -/
def publish (channel i : String) : ServerScript Unit := fun s =>
  .ok () { s with channels := Function.update s.channels channel (s.channels channel ++ [i]) }

/-! ## Commands on sorted sets -/

/-- ZADD. A score that is NaN is refused before the key is looked at. -/
def zadd (key : String) (d : Double) (i : String) : ServerScript Unit :=
  match d with
  | .nan => throw .notAFloat
  | .val s => do
    let z ← readZset key
    write key (Value.ofZset (z.add s i))

/-- ZADD XX: only a member of the set gets the score. -/
def zaddXX (key : String) (d : Double) (i : String) : ServerScript Unit :=
  match d with
  | .nan => throw .notAFloat
  | .val s => do
    let z ← readZset key
    if (z.score i).isSome then write key (Value.ofZset (z.add s i)) else pure ()

/-- ZSCORE. -/
def zscore (key i : String) : ServerScript (Option Score) := do
  let z ← readZset key
  pure (z.score i)

/-- ZREM, true when the member was there. -/
def zrem (key i : String) : ServerScript Bool := do
  let z ← readZset key
  write key (Value.ofZset (z.remove i))
  pure (z.score i).isSome

/-- ZCARD. -/
def zcard (key : String) : ServerScript ℕ := do
  let z ← readZset key
  pure z.card

/-- ZRANGEBYSCORE. -/
def zrangebyscore (key : String) (lo hi : Score) : ServerScript (List String) := do
  let z ← readZset key
  pure (z.rangeByScore lo hi)

/-- ZRANGEBYSCORE with LIMIT 0. A negative limit asks for all members. -/
def zrangebyscoreLimit (key : String) (lo hi : Score) (limit : ℤ) :
    ServerScript (List String) := do
  let ids ← zrangebyscore key lo hi
  pure (if limit < 0 then ids else ids.take limit.toNat)

/-- ZREMRANGEBYSCORE. -/
def zremrangebyscore (key : String) (lo hi : Score) : ServerScript Unit := do
  let z ← readZset key
  write key (Value.ofZset (z.removeByScore lo hi))

/-- ZRANGE for the first `n` members. -/
def zrange (key : String) (n : ℕ) : ServerScript (List String) := do
  let z ← readZset key
  pure (z.firstMembers n)

/-- ZREMRANGEBYRANK for the first `n` members. -/
def zremrangebyrank (key : String) (n : ℕ) : ServerScript Unit := do
  let z ← readZset key
  write key (Value.ofZset (z.dropFirst n))

end Server

end Panqueue
