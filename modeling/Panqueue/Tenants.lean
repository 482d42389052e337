-- Queues on one server. A script for one queue does to its keys what the model
-- of the queue says, and nothing to the keys of another queue.
import Panqueue.Serving
import Panqueue.Views

namespace Panqueue

variable {queueId : String} {s0 s : Server} {q : Queue} {i : String} {t : RedisTime}
  {sha1hex : String → String}

open Script Serves

/-! ## The commands -/

theorem luaJobKey_tag (queueId i : String) :
    Server.luaJobKey (queueHashTag queueId) i = jobKey queueId i := lua_jobKey queueId i

theorem indexKey_queueKeys (queueId : String) (s : FinalStatus) :
    Server.indexKey (queueKeys queueId) s = s.role.key queueId := by
  cases s <;> rfl

theorem always_of_serves {α : Type} {x : ServerScript α} {y : QueueScript α}
    (h : Serves queueId s0 Eq x y) : (Script.inStep (Stores queueId s0)).Always x y :=
  Script.inStep_always.mpr h

theorem always_job {α : Type} {x : String → ServerScript α} {y : QueueScript α}
    (h : Serves queueId s0 Eq (x (jobKey queueId i)) y) :
    (Script.inStep (Stores queueId s0)).Always
      (x (Server.luaJobKey (queueHashTag queueId) i)) y := by
  rw [luaJobKey_tag]
  exact always_of_serves h

theorem always_index {α : Type} {x : String → ServerScript α} {y : QueueScript α} {s : FinalStatus}
    (h : Serves queueId s0 Eq (x (s.role.key queueId)) y) :
    (Script.inStep (Stores queueId s0)).Always (x (Server.indexKey (queueKeys queueId) s)) y := by
  rw [indexKey_queueKeys]
  exact always_of_serves h

/-- The commands for a queue do to the server what they do to the queue. -/
theorem commands_serve (w : Counters) (queueId : String) (s0 : Server) :
    (Server.commandsOf w (queueKeys queueId) (queueHashTag queueId)).Coupled
      (Script.inStep (Stores queueId s0)) Plain (Redis.commandsOf w) where
  keyExists hi := always_job (x := Server.keyExists) (Serves.keyExists hi)
  del hi := always_job (Serves.del hi)
  hget hi get := always_job (x := fun key => Server.hget key get) (Serves.hget hi get)
  hset hi put := always_job (x := fun key => Server.hset key put) (Serves.hset hi put)
  hsetnxId {i} hi := always_job (x := fun key => Server.hsetnxId key i) (Serves.hsetnxId hi)
  hdelLease hi := always_job (Serves.hdelLease hi)
  hincrby hi get put :=
    always_job (x := fun key => Server.hincrbyOf w key get put) (Serves.hincrbyOf w hi get put)
  hgetall hi := always_job (Serves.hgetall hi)
  lpush hi := always_of_serves (Serves.lpush hi)
  rpop := Serves.rpop
  llen := always_of_serves Serves.llen
  zaddActive d hi := always_of_serves (Serves.zaddActive d hi)
  zaddActiveXX d hi := always_of_serves (Serves.zaddActiveXX d hi)
  zscoreActive i := always_of_serves (Serves.zscoreActive i)
  zremActive i := always_of_serves (Serves.zremActive i)
  zcardActive := always_of_serves Serves.zcardActive
  zrangebyscoreActive lo hi limit := Serves.zrangebyscoreActive lo hi limit
  zaddIndex {i} s score hi :=
    always_index (x := fun key => Server.zadd key (.val score) i) (Serves.zaddIndex s score hi)
  zcardIndex s := always_index (Serves.zcardIndex s)
  zrangebyscoreIndex s lo hi := by
    have h : Serves queueId s0 _ _ _ := Serves.zrangebyscoreIndex s lo hi
    rw [← indexKey_queueKeys] at h
    exact h
  zremrangebyscoreIndex s lo hi :=
    always_index (x := fun key => Server.zremrangebyscore key lo hi)
      (Serves.zremrangebyscoreIndex s lo hi)
  zrangeIndex s n := by
    have h : Serves queueId s0 _ _ _ := Serves.zrangeIndex s n
    rw [← indexKey_queueKeys] at h
    exact h
  zremrangebyrankIndex s n :=
    always_index (x := fun key => Server.zremrangebyrank key n) (Serves.zremrangebyrankIndex s n)
  hgetLimit := always_of_serves Serves.hgetLimit
  hmgetConcurrency := always_of_serves Serves.hmgetConcurrency
  hsetConcurrency hc := always_of_serves (Serves.hsetConcurrency hc)
  publish i := always_of_serves (Serves.publish i)
  raise e := always_of_serves (Simulates.throw e)

/-! ## Runs of many queues -/

variable (sha1hex) in
/-- The server after some calls, each for a queue. -/
def Server.run (w : Counters) (ops : List (QueueId × Call × RedisTime)) : Server :=
  Machine.finish (fun op => Server.execOf w sha1hex (op.1.text, op.2)) {} ops

/-- The calls for one queue, in order. -/
def callsOf (id : QueueId) (ops : List (QueueId × Call × RedisTime)) : List (Call × RedisTime) :=
  ops.filterMap fun op => if op.1 = id then some op.2 else none

variable (sha1hex) in
/-- A queue after its calls. -/
def runOf (w : Counters) (ops : List (Call × RedisTime)) : Queue :=
  Machine.finish (execOf w sha1hex) {} ops

/-- Each call names plain job ids only. -/
def NamePlainIds (ops : List (QueueId × Call × RedisTime)) : Prop :=
  ∀ op ∈ ops, op.2.1.Names Plain

instance (ops : List (QueueId × Call × RedisTime)) : Decidable (NamePlainIds ops) :=
  inferInstanceAs (Decidable (∀ op ∈ ops, op.2.1.Names Plain))

theorem Holds.stores (h : Holds queueId s q) : Stores queueId s s q :=
  ⟨h, fun _ _ => rfl, fun _ _ => rfl⟩

/-- What a call for one queue leaves alone: the keys and the channel of another one. -/
theorem Stores.apart (h : Stores queueId s0 s q) {other : String} (hne : other ≠ queueId)
    {r : Role} (hr : r.Plain) :
    s.keys (r.key other) = s0.keys (r.key other) ∧
      s.channels (r.key other) = s0.channels (r.key other) := by
  have hkey : ∀ r' : Role, r'.Plain → r'.key queueId ≠ r.key other := fun r' hr' he =>
    hne (key_injective hr' hr he).1.symm
  exact ⟨h.others _ hkey, h.channels _ (hkey .notify (plain_of_ne fun _ => by simp)).symm⟩

theorem Holds.apart {other : String} {q' : Queue} (hs : Holds other s0 q)
    (h : Stores queueId s0 s q') (hne : other ≠ queueId) : Holds other s q := by
  refine ⟨fun r hr => ?_, ?_, hs.plain⟩
  · rw [(h.apart hne hr).1, hs.keys r hr]
  · rw [← hs.notify]
    exact (h.apart hne (r := .notify) (plain_of_ne fun _ => by simp)).2

theorem holds_empty (queueId : String) : Holds queueId {} {} := by
  refine ⟨fun r hr => ?_, rfl, ⟨?_, ?_, ?_⟩⟩
  · cases r <;> rfl
  · simp
  · simp [SortedSet.members, SortedSet.empty]
  · rintro s
    cases s <;> simp [Queue.index, SortedSet.members, SortedSet.empty]

variable (sha1hex) in
/-- A call for a queue gives the reply that the queue alone gives, and it does
to the server what it does to the queue. -/
theorem exec_serves (w : Counters) {op : Call × RedisTime} (hop : op.1.Names Plain)
    (hs : Stores queueId s0 s q) :
    (Server.execOf w sha1hex (queueId, op) s).1 = (execOf w sha1hex op q).1 ∧
      Stores queueId s0 (Server.execOf w sha1hex (queueId, op) s).2 (execOf w sha1hex op q).2 :=
  (commands_serve w queueId s0).exec sha1hex hop hs

variable (sha1hex) in
/-- In a run of calls for many queues, the server holds each queue as the calls
for it alone would have left it. -/
theorem holds_run (w : Counters) {ops : List (QueueId × Call × RedisTime)}
    (hops : NamePlainIds ops) (id : QueueId) :
    Holds id.text (Server.run sha1hex w ops) (runOf sha1hex w (callsOf id ops)) := by
  induction ops using List.reverseRecOn generalizing id with
  | nil => exact holds_empty id.text
  | append_singleton ops op ih =>
    have hs := ih fun o ho => hops o (List.mem_append_left _ ho)
    have hop : op.2.1.Names Plain := hops op (by simp)
    obtain ⟨other, call⟩ := op
    rw [Server.run, Machine.finish_snoc, ← Server.run, callsOf, List.filterMap_append, ← callsOf]
    have hexec := (exec_serves sha1hex w hop (hs other).stores).2
    by_cases hq : other = id
    · subst hq
      rw [show [(other, call)].filterMap
        (fun op => if op.1 = other then some op.2 else none) = [call] by simp, runOf,
        Machine.finish_snoc]
      exact hexec.toHolds
    · rw [show [(other, call)].filterMap
        (fun op => if op.1 = id then some op.2 else none) = [] by simp [hq], List.append_nil]
      exact (hs id).apart hexec fun h => hq (QueueId.text_inj h).symm

/-- Queues are isolated, and each fits one cluster slot. keys.ts sends the keys
of the id as it reaches Redis, and the scripts build the job keys of keys.ts.
No two well formed ids and no two roles share a key, and the keys of a queue
have one hash tag. In every run of calls for many queues, the server holds each
queue as its own calls alone leave it, a call gets the reply that its queue
alone gives, and the keys of the other queues stay as they were. -/
theorem queues_are_isolated (w : Counters) :
    (∀ (queueId suffix : Utf16),
      (jsQueueKey queueId suffix).text = queueKey queueId.text suffix.text) ∧
    (∀ (id : QueueId) jobId,
      Server.luaJobKey (queueHashTag id.text) jobId = jobKey id.text jobId) ∧
    (∀ (a b : QueueId) (r r' : Role), r.Plain → r'.Plain →
      r.key a.text = r'.key b.text → a = b ∧ r = r') ∧
    (∀ id : QueueId, ∃ tag ≠ "", ∀ r : Role, hashTag (r.key id.text) = some tag) ∧
    ∀ ops, NamePlainIds ops →
      (∀ id : QueueId,
        Holds id.text (Server.run sha1hex w ops) (runOf sha1hex w (callsOf id ops))) ∧
      ∀ (id : QueueId) op, op.1.Names Plain →
        (Server.execOf w sha1hex (id.text, op) (Server.run sha1hex w ops)).1 =
          (execOf w sha1hex op (runOf sha1hex w (callsOf id ops))).1 ∧
        ∀ other ≠ id, ∀ r : Role, r.Plain →
          (Server.execOf w sha1hex (id.text, op) (Server.run sha1hex w ops)).2.keys
              (r.key other.text) =
            (Server.run sha1hex w ops).keys (r.key other.text) ∧
          (Server.execOf w sha1hex (id.text, op) (Server.run sha1hex w ops)).2.channels
              (r.key other.text) =
            (Server.run sha1hex w ops).channels (r.key other.text) := by
  refine ⟨text_jsQueueKey, fun id => luaJobKey_tag id.text, fun a b r r' hr hr' h => ?_,
    fun id => hashTag_key id.text,
    fun ops hops => ⟨fun id => holds_run sha1hex w hops id, fun id op hop => ?_⟩⟩
  · obtain ⟨htext, hrole⟩ := key_injective hr hr' h
    exact ⟨QueueId.text_inj htext, hrole⟩
  · obtain ⟨hreply, hstores⟩ := exec_serves sha1hex w hop (holds_run sha1hex w hops id).stores
    exact ⟨hreply, fun other hne r hr => hstores.apart (fun h => hne (QueueId.text_inj h)) hr⟩

/-- Two ids, each one surrogate that stands alone: the client sends the same
keys for both. -/
theorem lone_surrogates_share_their_keys :
    ([0xD800] : Utf16) ≠ [0xD801] ∧
      ∀ suffix, (jsQueueKey [0xD800] suffix).text = (jsQueueKey [0xD801] suffix).text := by
  refine ⟨by decide, fun suffix => ?_⟩
  rw [text_jsQueueKey, text_jsQueueKey]
  rfl

theorem sample_wellFormed : (Utf16.ascii "mail").WellFormed := by decide

theorem sample_brace_wellFormed : (Utf16.ascii "mail\x7d:job:j").WellFormed := by decide

def sampleId : QueueId := ⟨Utf16.ascii "mail", sample_wellFormed⟩

/-- An id with a closing brace in it. -/
def sampleBraceId : QueueId := ⟨Utf16.ascii "mail\x7d:job:j", sample_brace_wellFormed⟩

/-- Calls for two queues. -/
def sampleTenants : List (QueueId × Call × RedisTime) :=
  [(sampleId, .enqueue sampleJob, ⟨1, 0⟩), (sampleBraceId, .enqueue sampleJob, ⟨1, 0⟩),
   (sampleId, .claimGlobalBatch ⟨.ofNat 30000, 1⟩, ⟨2, 0⟩)]

/-- The claim for one queue leaves the other queue's job waiting. -/
theorem sample_tenants_are_isolated :
    (Server.run id .bits64 sampleTenants).keys (waitingKey sampleBraceId.text) =
        some (.list ["j"]) ∧
      (Server.run id .bits64 sampleTenants).keys (waitingKey sampleId.text) = none := by
  have hops : NamePlainIds sampleTenants := by decide
  have h := ((@queues_are_isolated id .bits64).2.2.2.2 sampleTenants hops).1
  have hplain : Role.waiting.Plain := plain_of_ne fun _ => by simp
  have hother : (runOf id .bits64 (callsOf sampleBraceId sampleTenants)).waiting = ["j"] := by
    decide +kernel
  have hmail : (runOf id .bits64 (callsOf sampleId sampleTenants)).waiting = [] := by
    decide +kernel
  constructor
  · apply ((h sampleBraceId).keys .waiting hplain).trans
    rw [Queue.value, hother]
    rfl
  · apply ((h sampleId).keys .waiting hplain).trans
    rw [Queue.value, hmail]
    rfl

end Panqueue
