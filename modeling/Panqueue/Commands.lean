-- The commands that the Lua scripts send, as an interface. A script is written
-- once, over any such commands, and each view of it (one queue, all queues of a
-- server, a queue that is watched) is the script over the commands of that view.
import Panqueue.Queue

namespace Panqueue

/-- The commands of a script on the keys of one queue. -/
structure Commands (m : Type → Type) where
  keyExists (jobId : String) : m Bool
  del (jobId : String) : m Unit
  hget {β : Type} (jobId : String) (get : JobHash → Option β) : m (Option β)
  hset (jobId : String) (put : JobHash → JobHash) : m Unit
  hsetnxId (jobId : String) : m Bool
  hdelLease (jobId : String) : m Unit
  hincrby (jobId : String) (get : JobHash → Option Numeral)
    (put : Numeral → JobHash → JobHash) : m ℤ
  hgetall (jobId : String) : m JobHash
  lpush (jobId : String) : m Unit
  rpop : m (Option String)
  llen : m ℕ
  zaddActive (d : Double) (jobId : String) : m Unit
  zaddActiveXX (d : Double) (jobId : String) : m Unit
  zscoreActive (jobId : String) : m (Option Score)
  zremActive (jobId : String) : m Bool
  zcardActive : m ℕ
  zrangebyscoreActive (lo hi : Score) (limit : ℤ) : m (List String)
  zaddIndex (s : FinalStatus) (score : Score) (jobId : String) : m Unit
  zcardIndex (s : FinalStatus) : m ℕ
  zrangebyscoreIndex (s : FinalStatus) (lo hi : Score) : m (List String)
  zremrangebyscoreIndex (s : FinalStatus) (lo hi : Score) : m Unit
  zrangeIndex (s : FinalStatus) (n : ℕ) : m (List String)
  zremrangebyrankIndex (s : FinalStatus) (n : ℕ) : m Unit
  hgetLimit : m (Option Double)
  hmgetConcurrency : m Concurrency
  hsetConcurrency (c : Concurrency) : m Unit
  publish (jobId : String) : m Unit
  /-- An error of the script itself. -/
  raise {α : Type} (e : RedisError) : m α

/-- The commands on one queue, with counters of a kind. -/
@[reducible] def Redis.commandsOf (w : Counters) : Commands QueueScript where
  keyExists := keyExists
  del := del
  hget := hget
  hset := hset
  hsetnxId := hsetnxId
  hdelLease := hdelLease
  hincrby := hincrbyOf w
  hgetall := hgetall
  lpush := lpush
  rpop := rpop
  llen := llen
  zaddActive := zaddActive
  zaddActiveXX := zaddActiveXX
  zscoreActive := zscoreActive
  zremActive := zremActive
  zcardActive := zcardActive
  zrangebyscoreActive := zrangebyscoreActive
  zaddIndex := zaddIndex
  zcardIndex := zcardIndex
  zrangebyscoreIndex := zrangebyscoreIndex
  zremrangebyscoreIndex := zremrangebyscoreIndex
  zrangeIndex := zrangeIndex
  zremrangebyrankIndex := zremrangebyrankIndex
  hgetLimit := hgetLimit
  hmgetConcurrency := hmgetConcurrency
  hsetConcurrency := hsetConcurrency
  publish := publish
  raise e := throw e

/-- The commands on one queue, with counters without a bound. -/
abbrev Redis.commands : Commands QueueScript := Redis.commandsOf .unbounded

end Panqueue
