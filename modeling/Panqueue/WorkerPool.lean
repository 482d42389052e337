-- worker-pool.ts: any number of start and shutdown calls on one pool, the boot
-- and the teardown that they begin, and the runners of the pool. The code
-- between two awaits is one function, and the await it comes to is a phase.
import Panqueue.ClaimLoop
import Panqueue.Declarations
import Panqueue.Keys
import Panqueue.RedisConnection
import Panqueue.Shutdown

namespace Panqueue

variable {δ : Type}

/-! ## Connections -/

/-- A connection of a worker and the raw client that it opens. `client` holds
while `#client` is set. `disconnects` counts the disconnect calls on the raw client. -/
structure WorkerConnection where
  raw : RawClient := .connecting
  client : Bool := false
  disconnects : ℕ := 0
  deriving DecidableEq

namespace WorkerConnection

/-- `connect` after its await. -/
def connected (c : WorkerConnection) : WorkerConnection :=
  { c with raw := .connected, client := true }

def failed (c : WorkerConnection) : WorkerConnection := { c with raw := .failed }

/-- `disconnect`, up to its await. -/
def disconnect (c : WorkerConnection) : WorkerConnection :=
  if c.client then { c with raw := .disconnecting, disconnects := c.disconnects + 1 } else c

/-- `disconnect` after its await. When the raw client rejects, it stays the client. -/
def disconnected (c : WorkerConnection) (ok : Bool) : WorkerConnection :=
  if c.client ∧ ok then { c with raw := .disconnected, client := false } else c

end WorkerConnection

/-- The command connection of a boot and the connection that `duplicate` opens.
`attached` holds once `duplicate` has returned the subscriber. -/
structure Connections where
  command : WorkerConnection := {}
  subscriber : Option WorkerConnection := none
  attached : Bool := false
  deriving DecidableEq

/-- The await at which `closeConnections` stands. -/
inductive CloseAwait
  | unsubscribes
  | disconnectsSubscriber
  | disconnectsCommand
  | done
  deriving DecidableEq

namespace Connections

/-- `redis.connect()` resolved, and `duplicate` opens the subscriber connection. -/
def connected (c : Connections) : Connections :=
  { c with command := c.command.connected, subscriber := some {} }

def connectFailed (c : Connections) : Connections := { c with command := c.command.failed }

/-- `redis.duplicate()` resolved. -/
def duplicated (c : Connections) : Connections :=
  { c with subscriber := c.subscriber.map WorkerConnection.connected, attached := true }

def duplicateFailed (c : Connections) : Connections :=
  { c with subscriber := c.subscriber.map WorkerConnection.failed }

def closeCommand (c : Connections) : CloseAwait × Connections :=
  (.disconnectsCommand, { c with command := c.command.disconnect })

def closeSubscriber (c : Connections) : CloseAwait × Connections :=
  (.disconnectsSubscriber, { c with subscriber := c.subscriber.map WorkerConnection.disconnect })

/-- `closeConnections`, up to its first await. -/
def close (c : Connections) (channels : List String) : CloseAwait × Connections :=
  if c.attached then
    if channels = [] then c.closeSubscriber else (.unsubscribes, c)
  else c.closeCommand

/-- `closeConnections` after an await that resolved, or whose rejection is ignored. -/
def closeNext (c : Connections) (ok : Bool) : CloseAwait → CloseAwait × Connections
  | .unsubscribes => c.closeSubscriber
  | .disconnectsSubscriber =>
    closeCommand { c with subscriber := c.subscriber.map (·.disconnected ok) }
  | .disconnectsCommand => (.done, { c with command := c.command.disconnected ok })
  | .done => (.done, c)

end Connections

/-! ## Worker definitions -/

/-- A worker definition that the constructor of the pool lets through. -/
structure WorkerDefinition where
  queueId : String
  options : WorkerDefinitionOptions
  global : Option QueueConcurrencyLimit
  one_le_concurrency : 1 ≤ options.concurrency

/-- What a pool is made of: its worker definitions and the retention of each queue. -/
structure PoolOptions where
  definitions : List WorkerDefinition
  retention : String → QueueRetention
  nonempty : definitions ≠ []
  nodup : (definitions.map WorkerDefinition.queueId).Nodup

namespace PoolOptions

variable (o : PoolOptions)

/-- The limits that `#doStart` declares, each with its queue. -/
def limits : List (String × QueueConcurrencyLimit) :=
  o.definitions.filterMap fun d => d.global.map fun global => (d.queueId, global)

/-- The channels that `#doStart` subscribes to, one for each runner. -/
def channels : List String := o.definitions.map fun d => notifyKey d.queueId

/-- The runners of the definitions. -/
def newRunners (δ : Type) : List WorkerDefinition → Except String (List (Runner δ))
  | [] => .ok []
  | d :: definitions =>
    (Runner.new d.options (o.retention d.queueId)).bind fun r =>
      (newRunners δ definitions).map (r :: ·)

end PoolOptions

/-- The rules of a queue in the config of the pool, resolved as `#doStart` does. -/
def QueueRetention.resolve (completed failed : Option RetentionRule) : QueueRetention where
  completed := resolveRetention completed DEFAULT_COMPLETED_RETENTION
  failed := resolveRetention failed DEFAULT_FAILED_RETENTION

/-! ## The boot -/

/-- The await at which `#doStart` stands: the command connection, the
subscriber, the declaration of the first of `limits`, the subscription to the
first of `channels`, its teardown after `error`, or its end. -/
inductive BootPhase
  | connects
  | duplicates
  | declares (limits : List (String × QueueConcurrencyLimit))
  | subscribes (channels : List String)
  | closes (closing : CloseAwait) (error : PoolError)
  | settled (outcome : Except PoolError Unit)

/-- A run of `#doStart`. `through` holds once the `finally` of `start` has run. -/
structure Boot (δ : Type) where
  phase : BootPhase := .connects
  connections : Connections := {}
  runners : List (Runner δ) := []
  subscribedChannels : List String := []
  through : Bool := false

/-- `WorkerConnectionError`. -/
def workerConnectionError (detail : String) : PoolError :=
  .workerConnection s!"Redis connection failed: {detail}"

def WorkerState.name : WorkerState → String
  | idle => "idle"
  | running => "running"
  | stopping => "stopping"
  | stopped => "stopped"

/-- The loop that starts the runners. The first one that throws ends it. -/
def startRunners : List (Runner δ) → List (Runner δ) × Except String Unit
  | [] => ([], .ok ())
  | r :: runners =>
    if r.state = .idle then
      let (started, outcome) := startRunners runners
      (r.start :: started, outcome)
    else
      (r :: runners, .error
        s!"WorkerRunner.start called in state \"{r.state.name}\"; runners are single-shot")

namespace Boot

variable (o : PoolOptions) (b : Boot δ)

/-- The `catch` of `#doStart`, up to its await. -/
def caught (e : PoolError) : Boot δ :=
  let (closing, connections) := b.connections.close b.subscribedChannels
  { b with phase := .closes closing e, connections }

/-- The loop of the subscriptions. After the last one, the runners start. -/
def subscribeNext : List String → Boot δ
  | [] =>
    match startRunners b.runners with
    | (runners, .ok ()) => { b with runners, phase := .settled (.ok ()) }
    | (runners, .error detail) => caught { b with runners } (workerConnectionError detail)
  | channel :: channels => { b with phase := .subscribes (channel :: channels) }

/-- The runners are made, and their channels are subscribed to. -/
def attach : Boot δ :=
  match o.newRunners δ o.definitions with
  | .ok runners => subscribeNext { b with runners } o.channels
  | .error detail => b.caught (workerConnectionError detail)

/-- The loop of the declarations. -/
def declareNext : List (String × QueueConcurrencyLimit) → Boot δ
  | [] => b.attach o
  | limit :: limits => { b with phase := .declares (limit :: limits) }

/-- `#doStart` after `redis.connect()`. -/
def afterConnect : Boot δ :=
  { b with connections := b.connections.connected, phase := .duplicates }

/-- `#doStart` after a `redis.connect()` that rejects. -/
def connectFails (detail : String) : Boot δ :=
  caught { b with connections := b.connections.connectFailed } (workerConnectionError detail)

/-- `#doStart` after `redis.duplicate()`. -/
def afterDuplicate : Boot δ :=
  declareNext o { b with connections := b.connections.duplicated } o.limits

/-- `#doStart` after a `redis.duplicate()` that rejects. -/
def duplicateFails (detail : String) : Boot δ :=
  caught { b with connections := b.connections.duplicateFailed } (workerConnectionError detail)

/-- `#doStart` after `declareConcurrencyLimit`, which leaves `limits` to declare. -/
def afterDeclare (limits : List (String × QueueConcurrencyLimit)) :
    Except FenceError Unit → Boot δ
  | .ok () => b.declareNext o limits
  | .error e => b.caught e.rethrown

/-- `#doStart` after `subscribe`, which leaves `channels` to subscribe to. -/
def afterSubscribe (channel : String) (channels : List String) : Boot δ :=
  subscribeNext { b with subscribedChannels := b.subscribedChannels ++ [channel] } channels

/-- `closeConnections` goes on in the `catch` of `#doStart`. -/
def closeNext (closing : CloseAwait) (e : PoolError) (ok : Bool) : Boot δ :=
  let (next, connections) := b.connections.closeNext ok closing
  { b with
    phase := if next = .done then .settled (.error e) else .closes next e
    connections }

end Boot

/-- An await of `#doStart` ends. -/
inductive BootStep (o : PoolOptions) (b : Boot δ) : Boot δ → Prop
  | connected (h : b.phase = .connects) : BootStep o b b.afterConnect
  | connectFailed (h : b.phase = .connects) (detail : String) :
    BootStep o b (b.connectFails detail)
  | duplicated (h : b.phase = .duplicates) : BootStep o b (b.afterDuplicate o)
  | duplicateFailed (h : b.phase = .duplicates) (detail : String) :
    BootStep o b (b.duplicateFails detail)
  | declared (limit : String × QueueConcurrencyLimit)
      (limits : List (String × QueueConcurrencyLimit)) (h : b.phase = .declares (limit :: limits))
      (r : Except FenceError Unit) :
    BootStep o b (b.afterDeclare o limits r)
  | subscribed (channel : String) (channels : List String)
      (h : b.phase = .subscribes (channel :: channels)) :
    BootStep o b (b.afterSubscribe channel channels)
  | subscribeFailed (channels : List String) (h : b.phase = .subscribes channels)
      (detail : String) :
    BootStep o b (b.caught (workerConnectionError detail))
  | closed (closing : CloseAwait) (e : PoolError) (h : b.phase = .closes closing e) (ok : Bool) :
    BootStep o b (b.closeNext closing e ok)

/-! ## The teardown -/

inductive ShutdownMode
  | force
  | drain
  deriving DecidableEq

/-- `ShutdownOptions`: the mode, and whether a drain has a timeout. -/
structure ShutdownOptions where
  mode : ShutdownMode := .force
  timeout : Bool := false
  deriving DecidableEq

structure ShutdownResult where
  mode : ShutdownMode
  timedOut : Bool := false
  unfinishedJobs : ℕ := 0
  requeued : ℕ := 0
  deriving DecidableEq

/-- The await at which `#doShutdown` stands: the promise of a boot, the claim
loops that `stopClaiming` waits for, the jobs that each `drainInflight` waits
for, the calls of each `forceRequeueInflight`, its teardown, or its end. -/
inductive TeardownPhase (δ : Type)
  | awaitsStart
  | stops (awaited : List Bool)
  | drains (inFlight : List (List ℕ))
  | requeues (timedOut : Bool) (inFlight : List (List (InFlightEntry δ)))
  | closes (closing : CloseAwait) (result : ShutdownResult)
  | settled (result : ShutdownResult)

/-- A run of `#doShutdown`. `startPromise` is the boot whose promise it awaits,
and `boot` the one whose runners it holds. -/
structure Teardown (δ : Type) where
  options : ShutdownOptions
  startPromise : Option ℕ
  boot : Option ℕ := none
  phase : TeardownPhase δ := .awaitsStart

/-! ## The pool -/

/-- What a call of `start` gave its caller: a settled promise, or that of a boot. -/
inductive StartCall
  | resolved
  | rejected (state : PoolState)
  | boot (k : ℕ)
  deriving DecidableEq

/-- What a call of `shutdown` gave its caller: a settled promise, or that of a teardown. -/
inductive ShutdownCall
  | resolved (result : ShutdownResult)
  | teardown (k : ℕ)
  deriving DecidableEq

/-- A pool with all that was called on it. `held` is the boot whose connections
are `#redis` and `#subscriber` and whose runners are `#runners`. -/
structure WorkerPool (δ : Type) where
  options : PoolOptions
  state : PoolState := .idle
  startPromise : Option ℕ := none
  shutdownPromise : Option ShutdownCall := none
  held : Option ℕ := none
  boots : List (Boot δ) := []
  teardowns : List (Teardown δ) := []
  starts : List StartCall := []
  shutdowns : List ShutdownCall := []

namespace WorkerPool

variable (p : WorkerPool δ)

def setBoot (k : ℕ) (b : Boot δ) : WorkerPool δ := { p with boots := p.boots.set k b }

def setTeardown (k : ℕ) (t : Teardown δ) : WorkerPool δ :=
  { p with teardowns := p.teardowns.set k t }

/-- The runners of a boot. -/
def runnersOf (k : Option ℕ) : List (Runner δ) :=
  ((k.bind fun k => p.boots[k]?).map Boot.runners).getD []

/-- A function on the runners of a boot. -/
def mapRunners (k : Option ℕ) (f : Runner δ → Runner δ) : WorkerPool δ :=
  match k with
  | none => p
  | some k => { p with boots := p.boots.modify k fun b => { b with runners := b.runners.map f } }

/-- `start`. -/
def start : WorkerPool δ :=
  if p.state = .running then { p with starts := p.starts ++ [.resolved] }
  else
    match p.startPromise with
    | some k => { p with starts := p.starts ++ [.boot k] }
    | none =>
      if p.state ≠ .idle then { p with starts := p.starts ++ [.rejected p.state] }
      else
        { p with
          state := .starting
          startPromise := some p.boots.length
          boots := p.boots ++ [{}]
          starts := p.starts ++ [.boot p.boots.length] }

/-- `shutdown`, up to the first await of `#doShutdown`. -/
def shutdown (options : ShutdownOptions) : WorkerPool δ :=
  match p.shutdownPromise with
  | some c => { p with shutdowns := p.shutdowns ++ [c] }
  | none =>
    if p.state = .idle then
      { p with
        state := .stopped
        shutdownPromise := some (.resolved { mode := options.mode })
        shutdowns := p.shutdowns ++ [.resolved { mode := options.mode }] }
    else
      { p with
        shutdownPromise := some (.teardown p.teardowns.length)
        teardowns := p.teardowns ++ [{ options, startPromise := p.startPromise }]
        shutdowns := p.shutdowns ++ [.teardown p.teardowns.length] }

/-- An await of the boot `k` ended. When the boot ends, the pool takes over what
it opened, or is stopped. -/
def afterBoot (k : ℕ) (b : Boot δ) : WorkerPool δ :=
  match b.phase with
  | .settled (.ok ()) => { p.setBoot k b with state := .running, held := some k }
  | .settled (.error _) => { p.setBoot k b with state := .stopped }
  | _ => p.setBoot k b

/-- The `finally` of the start call that began the boot `k`. -/
def afterStart (k : ℕ) (b : Boot δ) : WorkerPool δ :=
  { p.setBoot k { b with through := true } with startPromise := none }

/-- `#doShutdown` after the start promise. -/
def beginTeardown (k : ℕ) (t : Teardown δ) : WorkerPool δ :=
  if p.state ≠ .running then
    { p.setTeardown k { t with phase := .settled { mode := t.options.mode } } with
      state := .stopped }
  else
    mapRunners
      { p.setTeardown k
          { t with
            boot := p.held
            phase := .stops ((p.runnersOf p.held).map fun r => decide (r.state = .running)) } with
        state := .stopping }
      p.held Runner.stopClaiming

/-- `forceRequeueInflight` of each runner, up to its await. -/
def requeueRunners (k : ℕ) (t : Teardown δ) (timedOut : Bool) : WorkerPool δ :=
  p.setTeardown k
    { t with phase := .requeues timedOut ((p.runnersOf t.boot).map Runner.inFlight) }

/-- `#doShutdown` after `stopClaiming` of all runners. -/
def afterStops (k : ℕ) (t : Teardown δ) : WorkerPool δ :=
  if t.options.mode = .drain then
    p.setTeardown k
      { t with
        phase := .drains ((p.runnersOf t.boot).map fun r => r.inFlight.map InFlightEntry.serial) }
  else p.requeueRunners k t false

/-- The sums over the results of the runners. -/
def totals (mode : ShutdownMode) (timedOut : Bool) (results : List ForceRequeueResult) :
    ShutdownResult where
  mode
  timedOut
  unfinishedJobs := (results.map ForceRequeueResult.unfinishedJobs).sum
  requeued := (results.map ForceRequeueResult.requeued).sum

/-- `closeConnections` of the held connections, up to its first await. With none
held it has nothing to do. -/
def closeHeld (k : ℕ) (t : Teardown δ) (result : ShutdownResult) : WorkerPool δ :=
  match p.held.bind fun j => p.boots[j]?.map (j, ·) with
  | none => p.setTeardown k { t with phase := .closes .done result }
  | some (j, b) =>
    let (closing, connections) := b.connections.close p.options.channels
    setTeardown (p.setBoot j { b with connections }) k { t with phase := .closes closing result }

/-- `closeConnections` goes on in `#doShutdown`. -/
def closeHeldNext (k : ℕ) (t : Teardown δ) (closing : CloseAwait) (result : ShutdownResult)
    (ok : Bool) : WorkerPool δ :=
  match p.held.bind fun j => p.boots[j]?.map (j, ·) with
  | none => p.setTeardown k { t with phase := .closes .done result }
  | some (j, b) =>
    let (next, connections) := b.connections.closeNext ok closing
    setTeardown (p.setBoot j { b with connections }) k { t with phase := .closes next result }

/-- `#doShutdown` after `closeConnections`. -/
def afterClose (k : ℕ) (t : Teardown δ) (result : ShutdownResult) : WorkerPool δ :=
  { mapRunners (p.setTeardown k { t with phase := .settled result }) t.boot Runner.finalize with
    held := none
    state := .stopped }

/-- The calls of the pool on its runners are not among the inputs of others. -/
def Outside : RunnerInput δ → Prop
  | .start => False
  | .stopClaiming => False
  | .finalize => False
  | _ => True

/-- What one `drainInflight` came to: its jobs settled, or its timer fired first. -/
def Drains (timeout : Bool) (r : Runner δ) (serials : List ℕ) (timedOut : Bool) : Prop :=
  if timedOut then timeout = true ∧ serials ≠ []
  else ∀ e ∈ r.inFlight, e.serial ∉ serials

/-- The rest of `#doStart`, of `start` or of `#doShutdown` runs after an await. -/
inductive Turn (p : WorkerPool δ) : WorkerPool δ → Prop
  | boot (k : ℕ) (b b' : Boot δ) (hb : p.boots[k]? = some b) (hs : BootStep p.options b b') :
    Turn p (p.afterBoot k b')
  | started (k : ℕ) (b : Boot δ) (hb : p.boots[k]? = some b) (ht : b.through = false)
      (outcome : Except PoolError Unit) (hphase : b.phase = .settled outcome) :
    Turn p (p.afterStart k b)
  | startAwaited (k : ℕ) (t : Teardown δ) (ht : p.teardowns[k]? = some t)
      (hphase : t.phase = .awaitsStart)
      (hstart : ∀ j, t.startPromise = some j → ∃ b, p.boots[j]? = some b ∧ b.through = true) :
    Turn p (p.beginTeardown k t)
  | stopped (k : ℕ) (t : Teardown δ) (ht : p.teardowns[k]? = some t) (awaited : List Bool)
      (hphase : t.phase = .stops awaited)
      (hloops : ∀ (i : ℕ) (r : Runner δ), (p.runnersOf t.boot)[i]? = some r →
        awaited[i]? = some true → r.loop = .exited) :
    Turn p (p.afterStops k t)
  | drained (k : ℕ) (t : Teardown δ) (ht : p.teardowns[k]? = some t) (inFlight : List (List ℕ))
      (hphase : t.phase = .drains inFlight) (timedOut : List Bool)
      (hlength : timedOut.length = inFlight.length)
      (hdrains : ∀ (i : ℕ) (r : Runner δ) (serials : List ℕ) (d : Bool),
        (p.runnersOf t.boot)[i]? = some r → inFlight[i]? = some serials → timedOut[i]? = some d →
        Drains t.options.timeout r serials d) :
    Turn p (p.requeueRunners k t (timedOut.any id))
  | requeued (k : ℕ) (t : Teardown δ) (ht : p.teardowns[k]? = some t) (timedOut : Bool)
      (inFlight : List (List (InFlightEntry δ))) (hphase : t.phase = .requeues timedOut inFlight)
      (calls : List (List (InFlightEntry δ × Option Reply)))
      (hcalls : calls.map (List.map Prod.fst) = inFlight) :
    Turn p (p.closeHeld k t
      (totals t.options.mode timedOut (calls.map forceRequeueResult)))
  | closed (k : ℕ) (t : Teardown δ) (ht : p.teardowns[k]? = some t) (closing : CloseAwait)
      (result : ShutdownResult) (hphase : t.phase = .closes closing result)
      (hc : closing ≠ .done) (ok : Bool) :
    Turn p (p.closeHeldNext k t closing result ok)
  | ended (k : ℕ) (t : Teardown δ) (ht : p.teardowns[k]? = some t) (result : ShutdownResult)
      (hphase : t.phase = .closes .done result) :
    Turn p (p.afterClose k t result)

/-- One step: a call on the pool, a turn of the pool, or an input of one of its runners. -/
inductive Step (p : WorkerPool δ) : WorkerPool δ → Prop
  | start : Step p p.start
  | shutdown (options : ShutdownOptions) : Step p (p.shutdown options)
  | turn (p' : WorkerPool δ) (h : Turn p p') : Step p p'
  | runner (k i : ℕ) (b : Boot δ) (hb : p.boots[k]? = some b) (r : Runner δ)
      (hr : b.runners[i]? = some r) (x : RunnerInput δ) (hx : r.Admits x) (ho : Outside x) :
    Step p (p.setBoot k { b with runners := b.runners.set i (r.step x) })

/-- A state of a run of the pool made with these options. -/
def Reachable (o : PoolOptions) (p : WorkerPool δ) : Prop :=
  Relation.ReflTransGen Step { options := o } p

end WorkerPool

end Panqueue
