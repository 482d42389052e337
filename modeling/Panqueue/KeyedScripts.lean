-- The Lua scripts over the shared server: each command addresses its key, one
-- of the bundle that a script gets as KEYS, or one that it builds from its tag
-- argument.
import Panqueue.Server

namespace Panqueue.Server

/-- The key of a job, as the Lua code builds it. -/
def luaJobKey (tag jobId : String) : String := tag ++ ":job:" ++ jobId

/-- The key of the finished index of a state. -/
def indexKey (keys : QueueKeys) : FinalStatus → String
  | .completed => keys.completed
  | .failed => keys.failed

/-- The commands of a script that got a key bundle and a tag. -/
@[reducible] def commandsOf (w : Counters) (keys : QueueKeys) (tag : String) :
    Commands ServerScript where
  keyExists jobId := keyExists (luaJobKey tag jobId)
  del jobId := del (luaJobKey tag jobId)
  hget jobId := hget (luaJobKey tag jobId)
  hset jobId := hset (luaJobKey tag jobId)
  hsetnxId jobId := hsetnxId (luaJobKey tag jobId) jobId
  hdelLease jobId := hdelLease (luaJobKey tag jobId)
  hincrby jobId := hincrbyOf w (luaJobKey tag jobId)
  hgetall jobId := hgetall (luaJobKey tag jobId)
  lpush := lpush keys.waiting
  rpop := rpop keys.waiting
  llen := llen keys.waiting
  zaddActive := zadd keys.active
  zaddActiveXX := zaddXX keys.active
  zscoreActive := zscore keys.active
  zremActive := zrem keys.active
  zcardActive := zcard keys.active
  zrangebyscoreActive := zrangebyscoreLimit keys.active
  zaddIndex s score := zadd (indexKey keys s) (.val score)
  zcardIndex s := zcard (indexKey keys s)
  zrangebyscoreIndex s := zrangebyscore (indexKey keys s)
  zremrangebyscoreIndex s := zremrangebyscore (indexKey keys s)
  zrangeIndex s := zrange (indexKey keys s)
  zremrangebyrankIndex s := zremrangebyrank (indexKey keys s)
  hgetLimit := hgetLimit keys.concurrency
  hmgetConcurrency := hmgetConcurrency keys.concurrency
  hsetConcurrency := hsetConcurrency keys.concurrency
  publish := publish keys.notify
  raise e := throw e

/-- A call for a queue. The clients and the workers pass the bundle and the tag of its id. -/
def execOf (w : Counters) (sha1hex : String → String) (op : String × Call × RedisTime) :
    Server → Reply × Server :=
  Lua.exec (commandsOf w (queueKeys op.1) (queueHashTag op.1)) sha1hex op.2

end Panqueue.Server
