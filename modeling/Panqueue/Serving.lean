-- A queue on the server: it stands under its own keys, and each command on one
-- of them does there what the model of the queue says.
import Panqueue.KeyedScripts
import Panqueue.Lib.Simulation
import Panqueue.Runs

namespace Panqueue

/-! ## A queue on the server -/

def JobKey.value : JobKey → Value
  | .hash h => .hash { job := h }
  | .other => .other

def FinalStatus.role : FinalStatus → Role
  | .completed => .completed
  | .failed => .failed

/-- What the key of a role holds in a queue. The delayed key is not used yet,
and the notify key names a channel. -/
def Queue.value (q : Queue) : Role → Option Value
  | .waiting => Value.ofList q.waiting
  | .active => Value.ofZset q.active
  | .completed => Value.ofZset q.completed
  | .failed => Value.ofZset q.failed
  | .delayed => none
  | .notify => none
  | .concurrency => Value.ofHash { concurrency := q.concurrency }
  | .job jobId => (q.jobs jobId).map JobKey.value

/-- The ids in the collections of a queue are plain. -/
structure Queue.PlainIds (q : Queue) : Prop where
  waiting : ∀ i ∈ q.waiting, Plain i
  active : ∀ i ∈ q.active.members, Plain i
  index : ∀ s, ∀ i ∈ (q.index s).members, Plain i

/-- The server holds the queue `q` under the keys of `queueId`. -/
structure Holds (queueId : String) (s : Server) (q : Queue) : Prop where
  keys : ∀ r : Role, r.Plain → s.keys (r.key queueId) = q.value r
  notify : s.channels (notifyKey queueId) = q.notify
  plain : q.PlainIds

/-- The server `s` holds the queue, and under all other keys what `s0` held there. -/
structure Stores (queueId : String) (s0 s : Server) (q : Queue) : Prop extends
    Holds queueId s q where
  others : ∀ k, (∀ r : Role, r.Plain → r.key queueId ≠ k) → s.keys k = s0.keys k
  channels : ∀ c ≠ notifyKey queueId, s.channels c = s0.channels c

variable {queueId : String} {s0 s : Server} {q q' : Queue} {i : String} {t : RedisTime}
  {α β : Type}

theorem plain_job (hi : Plain i) : (Role.job i).Plain := by
  rintro jobId ⟨⟩
  exact hi

theorem plain_of_ne {r : Role} (hr : ∀ jobId, r ≠ .job jobId) : r.Plain := fun jobId h =>
  absurd h (hr jobId)

/-- A write to one key of the queue. -/
theorem Stores.set (h : Stores queueId s0 s q) {r : Role} (hr : r.Plain)
    (hne : ∀ r' ≠ r, q'.value r' = q.value r') (hn : q'.notify = q.notify) (hp : q'.PlainIds) :
    Stores queueId s0 (s.set (r.key queueId) (q'.value r)) q' := by
  refine ⟨⟨fun r' hr' => ?_, ?_, hp⟩, fun k hk => ?_, h.channels⟩
  · by_cases hk : r' = r
    · subst hk
      rw [Server.set_keys, Function.update_self]
    · have hkey : r'.key queueId ≠ r.key queueId := fun he => hk (key_injective hr' hr he).2
      rw [Server.set_keys, Function.update_of_ne hkey, h.keys r' hr', hne r' hk]
  · rw [Server.set_channels, h.notify, hn]
  · rw [Server.set_keys, Function.update_of_ne (hk r hr).symm, h.others k hk]

/-- A script of the server that runs in step with a script of the queue. -/
abbrev Serves (queueId : String) (s0 : Server) (V : α → β → Prop) (x : ServerScript α)
    (y : QueueScript β) : Prop :=
  Script.Simulates (Stores queueId s0) V x y

namespace Serves

open Script

/-! ### Reads and writes -/

/-- A write to one key. -/
theorem write {r : Role} (hr : r.Plain) {v : Option Value} {put : Queue → Queue}
    (hv : ∀ q, (put q).value r = v) (hne : ∀ q, ∀ r' ≠ r, (put q).value r' = q.value r')
    (hn : ∀ q, (put q).notify = q.notify) (hp : ∀ q, q.PlainIds → (put q).PlainIds) :
    Serves queueId s0 Eq (Server.write (r.key queueId) v) (writes put) := by
  intro s q hs
  have hset := hs.set hr (hne q) (hn q) (hp q hs.plain)
  rw [hv q] at hset
  exact .ok rfl hset

/-! ### The waiting list and the channel -/

theorem readList : Serves queueId s0 (fun l l' => l = l' ∧ ∀ i ∈ l, Plain i)
    (Server.readList (waitingKey queueId)) (reads Queue.waiting) := by
  refine Simulates.reads fun s q h => ⟨q.waiting, ?_, rfl, h.plain.waiting⟩
  have hkey : s.keys (waitingKey queueId) = Value.ofList q.waiting :=
    h.keys .waiting (plain_of_ne fun _ => by simp)
  rw [Server.readList, hkey, Value.ofList]
  by_cases hw : q.waiting = []
  · rw [if_pos hw, hw]
  · rw [if_neg hw]

theorem writeList {l : List String} (hl : ∀ i ∈ l, Plain i) :
    Serves queueId s0 Eq (Server.write (waitingKey queueId) (Value.ofList l))
      (writes fun q => q.setWaiting l) := by
  refine write (r := .waiting) (plain_of_ne fun _ => by simp) (fun q => rfl) (fun q r hr => ?_)
    (fun q => rfl) fun q hp => ⟨hl, hp.active, hp.index⟩
  cases r with
  | waiting => exact absurd rfl hr
  | _ => rfl

theorem lpush (hi : Plain i) : Serves queueId s0 Eq (Server.lpush (waitingKey queueId) i)
    (Redis.lpush i) := by
  refine readList.bind (W := Eq) (g := fun l => writes fun q => q.setWaiting (i :: l)) ?_
  rintro l l' ⟨rfl, hl⟩
  refine writeList fun k hk => ?_
  rcases List.mem_cons.mp hk with rfl | hk
  · exact hi
  · exact hl k hk

/-- `rpop` of a waiting list that was read. -/
def rpopList (l : List String) : QueueScript (Option String) :=
  match l.getLast? with
  | none => pure none
  | some i => do
    writes fun q => q.setWaiting l.dropLast
    pure (some i)

theorem rpop : Serves queueId s0 (fun popped popped' => popped = popped' ∧ ∀ i ∈ popped, Plain i)
    (Server.rpop (waitingKey queueId)) Redis.rpop := by
  have heq : Redis.rpop = (do
      let l ← reads Queue.waiting
      rpopList l) := by
    funext q
    rcases hlast : q.waiting.getLast? with _ | i
    · simp only [Redis.rpop, rpopList, Script.run_bind, run_reads, hlast, Script.run_pure]
    · simp only [Redis.rpop, rpopList, Script.run_bind, run_reads, run_writes, hlast,
        Script.run_pure]
  rw [heq, Server.rpop]
  apply readList.bind
  rintro l l' ⟨rfl, hl⟩
  rw [rpopList]
  rcases hlast : l.getLast? with _ | i
  · exact Simulates.pure ⟨rfl, by simp⟩
  · refine (writeList fun k hk => hl k (List.mem_of_mem_dropLast hk)).andThen fun _ => ?_
    refine Simulates.pure ⟨rfl, ?_⟩
    rintro k ⟨⟩
    exact hl i (List.mem_of_getLast? hlast)

theorem llen : Serves queueId s0 Eq (Server.llen (waitingKey queueId)) Redis.llen := by
  refine readList.bind (W := Eq) (g := fun l => pure l.length) ?_
  rintro l l' ⟨rfl, -⟩
  exact Simulates.pure rfl

theorem publish (i : String) :
    Serves queueId s0 Eq (Server.publish (notifyKey queueId) i) (Redis.publish i) := by
  intro s q h
  refine .ok rfl ⟨⟨h.keys, ?_, ⟨h.plain.waiting, h.plain.active, h.plain.index⟩⟩, h.others,
    fun c hc => ?_⟩
  · change Function.update s.channels _ _ _ = _
    rw [Function.update_self, h.notify]
    rfl
  · change Function.update s.channels _ _ _ = _
    rw [Function.update_of_ne hc, h.channels c hc]

/-! ### The sorted sets -/

section Zset

variable {r : Role} {get : Queue → SortedSet Score String}
  {put : Queue → SortedSet Score String → Queue} {z : SortedSet Score String}

/-- The sorted set that a role of a queue holds, and the update of it. -/
structure ZsetAt (r : Role) (get : Queue → SortedSet Score String)
    (put : Queue → SortedSet Score String → Queue) : Prop where
  role : r.Plain
  value : ∀ q, q.value r = Value.ofZset (get q)
  get_put : ∀ q z, get (put q z) = z
  value_ne : ∀ q z, ∀ r' ≠ r, (put q z).value r' = q.value r'
  notify : ∀ q z, (put q z).notify = q.notify
  members : ∀ q : Queue, q.PlainIds → ∀ i ∈ (get q).members, Plain i
  plain : ∀ (q : Queue) z, q.PlainIds → (∀ i ∈ z.members, Plain i) → (put q z).PlainIds

theorem zsetAt_active : ZsetAt .active Queue.active Queue.setActive where
  role := plain_of_ne fun _ => by simp
  value _ := rfl
  get_put _ _ := rfl
  value_ne q z r hr := by
    cases r with
    | active => exact absurd rfl hr
    | _ => rfl
  notify _ _ := rfl
  members q hp := hp.active
  plain q z hp hz := ⟨hp.waiting, hz, hp.index⟩

theorem zsetAt_index (s : FinalStatus) :
    ZsetAt s.role (fun q => q.index s) fun q z => q.setIndex z s where
  role := by cases s <;> exact plain_of_ne fun _ => by simp [FinalStatus.role]
  value q := by cases s <;> rfl
  get_put q z := by rw [Queue.setIndex_index, if_pos rfl]
  value_ne q z r hr := by
    cases s with
    | completed =>
      cases r with
      | completed => exact absurd rfl hr
      | _ => rfl
    | failed =>
      cases r with
      | failed => exact absurd rfl hr
      | _ => rfl
  notify q z := Queue.setIndex_notify q z s
  members q hp := hp.index s
  plain q z hp hz := by
    refine ⟨?_, ?_, fun s' => ?_⟩
    · rw [Queue.setIndex_waiting]
      exact hp.waiting
    · rw [Queue.setIndex_active]
      exact hp.active
    · rw [Queue.setIndex_index]
      split
      · exact hz
      · exact hp.index s'

theorem readZset (h : ZsetAt r get put) :
    Serves queueId s0 (fun z z' => z = z' ∧ ∀ i ∈ z.members, Plain i)
      (Server.readZset (r.key queueId)) (reads get) := by
  refine Simulates.reads fun s q hs => ⟨get q, ?_, rfl, h.members q hs.plain⟩
  have hkey : s.keys (r.key queueId) = Value.ofZset (get q) :=
    (hs.keys r h.role).trans (h.value q)
  rw [Server.readZset, hkey, Value.ofZset]
  by_cases hz : (get q).card = 0
  · rw [if_pos hz, SortedSet.eq_empty_of_card hz]
  · rw [if_neg hz]

theorem writeZset (h : ZsetAt r get put) (hz : ∀ i ∈ z.members, Plain i) :
    Serves queueId s0 Eq (Server.write (r.key queueId) (Value.ofZset z))
      (writes fun q => put q z) := by
  refine write h.role (fun q => ?_) (fun q => h.value_ne q z) (fun q => h.notify q z)
    fun q hp => h.plain q z hp hz
  rw [h.value, h.get_put]

/-- A read of a sorted set. -/
theorem zread {β : Type} (h : ZsetAt r get put) (f : SortedSet Score String → β) :
    Serves queueId s0 Eq (do
      let z ← Server.readZset (r.key queueId)
      pure (f z)) (reads fun q => f (get q)) := by
  refine (readZset h).bind (W := Eq) (g := fun z => pure (f z)) ?_
  rintro z z' ⟨rfl, -⟩
  exact Simulates.pure rfl

/-- A read of members of a sorted set. -/
theorem zrange (h : ZsetAt r get put) {f : SortedSet Score String → List String}
    (hf : ∀ z, ∀ i ∈ f z, i ∈ z.members) :
    Serves queueId s0 (fun l l' => l = l' ∧ ∀ i ∈ l, Plain i) (do
      let z ← Server.readZset (r.key queueId)
      pure (f z)) (reads fun q => f (get q)) := by
  refine (readZset h).bind (g := fun z => pure (f z)) ?_
  rintro z z' ⟨rfl, hz⟩
  exact Simulates.pure ⟨rfl, fun i hi => hz i (hf z i hi)⟩

/-- An update of a sorted set. -/
theorem zwrite (h : ZsetAt r get put) {f : SortedSet Score String → SortedSet Score String}
    (hf : ∀ z, ∀ i ∈ (f z).members, i ∈ z.members ∨ Plain i) :
    Serves queueId s0 Eq (do
      let z ← Server.readZset (r.key queueId)
      Server.write (r.key queueId) (Value.ofZset (f z))) (writes fun q => put q (f (get q))) := by
  refine (readZset h).bind (W := Eq) (g := fun z => writes fun q => put q (f z)) ?_
  rintro z z' ⟨rfl, hz⟩
  exact writeZset h fun i hi => (hf z i hi).elim (hz i) id

theorem zscoreActive (i : String) : Serves queueId s0 Eq (Server.zscore (activeKey queueId) i)
    (Redis.zscoreActive i) := zread zsetAt_active fun z => z.score i

theorem zcardActive : Serves queueId s0 Eq (Server.zcard (activeKey queueId))
    Redis.zcardActive := zread zsetAt_active SortedSet.card

theorem mem_of_mem_rangeByScore {lo hi : Score} (h : i ∈ z.rangeByScore lo hi) : i ∈ z.members := by
  obtain ⟨s, hs, -⟩ := SortedSet.mem_rangeByScore.mp h
  exact SortedSet.mem_members_of_score hs

theorem zrangebyscoreActive (lo hi : Score) (limit : ℤ) :
    Serves queueId s0 (fun l l' => l = l' ∧ ∀ i ∈ l, Plain i)
      (Server.zrangebyscoreLimit (activeKey queueId) lo hi limit)
      (Redis.zrangebyscoreActive lo hi limit) := by
  refine (zrange zsetAt_active fun _ _ hi => mem_of_mem_rangeByScore hi).bind
    (g := fun ids => pure (if limit < 0 then ids else ids.take limit.toNat)) ?_
  rintro l l' ⟨rfl, hl⟩
  refine Simulates.pure ⟨rfl, fun i hi => ?_⟩
  split at hi
  · exact hl i hi
  · exact hl i (List.mem_of_mem_take hi)

theorem zadd_mem {s : Score} {k : String} (hi : Plain i) (h : k ∈ (z.add s i).members) :
    k ∈ z.members ∨ Plain k := by
  rcases SortedSet.mem_members_add.mp h with rfl | hk
  · exact Or.inr hi
  · exact Or.inl hk

theorem zaddActive (d : Double) (hi : Plain i) :
    Serves queueId s0 Eq (Server.zadd (activeKey queueId) d i) (Redis.zaddActive d i) := by
  cases d with
  | nan => exact Simulates.throw _
  | val s => exact zwrite zsetAt_active fun _ _ => zadd_mem hi

theorem zaddActiveXX (d : Double) (hi : Plain i) :
    Serves queueId s0 Eq (Server.zaddXX (activeKey queueId) d i) (Redis.zaddActiveXX d i) := by
  cases d with
  | nan => exact Simulates.throw _
  | val s =>
    have heq : Redis.zaddActiveXX (.val s) i = (do
        let z ← reads Queue.active
        if (z.score i).isSome then writes fun q => q.setActive (z.add s i) else pure ()) := by
      funext q
      simp only [Redis.zaddActiveXX, Script.run_bind, run_reads, Script.run_ite, run_writes,
        Script.run_pure]
    rw [heq, Server.zaddXX]
    apply (readZset zsetAt_active).bind
    rintro z z' ⟨rfl, hz⟩
    refine Simulates.ite (fun _ => ?_) fun _ => Simulates.pure rfl
    exact writeZset zsetAt_active fun k hk => (zadd_mem hi hk).elim (hz k) id

theorem zremActive (i : String) : Serves queueId s0 Eq (Server.zrem (activeKey queueId) i)
    (Redis.zremActive i) := by
  refine (readZset zsetAt_active).bind (W := Eq) (g := fun z => do
    writes fun q => q.setActive (z.remove i)
    pure (z.score i).isSome) ?_
  rintro z z' ⟨rfl, hz⟩
  have hwrite : Serves queueId s0 Eq _ (writes fun q => q.setActive (z.remove i)) :=
    writeZset zsetAt_active fun k hk => hz k (SortedSet.mem_of_mem_keep hk)
  exact hwrite.andThen fun _ => Simulates.pure rfl

theorem zcardIndex (s : FinalStatus) :
    Serves queueId s0 Eq (Server.zcard (s.role.key queueId)) (Redis.zcardIndex s) :=
  zread (zsetAt_index s) SortedSet.card

theorem zaddIndex (s : FinalStatus) (score : Score) (hi : Plain i) :
    Serves queueId s0 Eq (Server.zadd (s.role.key queueId) (.val score) i)
      (Redis.zaddIndex s score i) :=
  zwrite (zsetAt_index s) fun _ _ => zadd_mem hi

theorem zrangebyscoreIndex (s : FinalStatus) (lo hi : Score) :
    Serves queueId s0 (fun l l' => l = l' ∧ ∀ i ∈ l, Plain i)
      (Server.zrangebyscore (s.role.key queueId) lo hi) (Redis.zrangebyscoreIndex s lo hi) :=
  zrange (zsetAt_index s) fun _ _ hi => mem_of_mem_rangeByScore hi

theorem zremrangebyscoreIndex (s : FinalStatus) (lo hi : Score) :
    Serves queueId s0 Eq (Server.zremrangebyscore (s.role.key queueId) lo hi)
      (Redis.zremrangebyscoreIndex s lo hi) :=
  zwrite (zsetAt_index s) fun _ _ hk => Or.inl (SortedSet.mem_of_mem_keep hk)

theorem zrangeIndex (s : FinalStatus) (n : ℕ) :
    Serves queueId s0 (fun l l' => l = l' ∧ ∀ i ∈ l, Plain i)
      (Server.zrange (s.role.key queueId) n) (Redis.zrangeIndex s n) :=
  zrange (zsetAt_index s) fun _ _ hi => SortedSet.mem_of_mem_firstMembers hi

theorem zremrangebyrankIndex (s : FinalStatus) (n : ℕ) :
    Serves queueId s0 Eq (Server.zremrangebyrank (s.role.key queueId) n)
      (Redis.zremrangebyrankIndex s n) :=
  zwrite (zsetAt_index s) fun _ _ hk => Or.inl (SortedSet.mem_of_mem_dropFirst hk)

end Zset

/-! ### The job hashes -/

/-- The hash of a job, or no key. -/
def readJob (i : String) : QueueScript (Option JobHash) := fun q =>
  match q.jobs i with
  | none => .ok none q
  | some (.hash h) => .ok (some h) q
  | some .other => .error .wrongType q

def ofJob (h : JobHash) : HashValue := { job := h }

theorem readHash (hi : Plain i) : Serves queueId s0 (fun h h' => h = h'.map ofJob)
    (Server.readHash (jobKey queueId i)) (readJob i) := by
  intro s q hs
  have hkey : s.keys (jobKey queueId i) = (q.jobs i).map JobKey.value :=
    hs.keys (.job i) (plain_job hi)
  rw [Server.readHash, hkey, readJob]
  rcases q.jobs i with _ | (h | _)
  · exact .ok rfl hs
  · exact .ok rfl hs
  · exact .error hs

theorem writeJob (hi : Plain i) (v : Option JobKey) :
    Serves queueId s0 Eq (Server.write (jobKey queueId i) (v.map JobKey.value))
      (writes fun q => q.setJob i v) := by
  refine write (r := .job i) (plain_job hi) (fun q => ?_) (fun q r hr => ?_) (fun q => rfl)
    fun q hp => ⟨hp.waiting, hp.active, hp.index⟩
  · simp [Queue.value]
  · cases r with
    | job k =>
      have hk : k ≠ i := fun h => hr (by rw [h])
      simp [Queue.value, hk]
    | _ => rfl

theorem keyExists (hi : Plain i) : Serves queueId s0 Eq (Server.keyExists (jobKey queueId i))
    (Redis.keyExists i) := by
  refine Simulates.reads fun s q hs => ⟨_, rfl, ?_⟩
  have hkey : s.keys (jobKey queueId i) = (q.jobs i).map JobKey.value :=
    hs.keys (.job i) (plain_job hi)
  rw [hkey, Option.isSome_map]

theorem del (hi : Plain i) : Serves queueId s0 Eq (Server.del (jobKey queueId i)) (Redis.del i) :=
  writeJob hi none

/-- A command on a job key, told by what it does on each kind of key. -/
theorem readJob_bind {x : QueueScript α} {f : Option JobHash → QueueScript α}
    (hnone : ∀ q, q.jobs i = none → x q = f none q)
    (hhash : ∀ q h, q.jobs i = some (.hash h) → x q = f (some h) q)
    (hother : ∀ q, q.jobs i = some .other → x q = .error .wrongType q) : x = readJob i >>= f := by
  funext q
  rw [Script.run_bind, readJob]
  rcases hj : q.jobs i with _ | (h | _)
  · rw [hnone q hj]
  · rw [hhash q h hj]
  · rw [hother q hj]

theorem hget {β : Type} (hi : Plain i) (get : JobHash → Option β) :
    Serves queueId s0 Eq (Server.hget (jobKey queueId i) get) (Redis.hget i get) := by
  have heq : Redis.hget i get = readJob i >>= fun h => pure (h.bind get) :=
    readJob_bind (fun q h => by simp [Redis.hget, h]) (fun q h hj => by simp [Redis.hget, hj])
      fun q h => by simp [Redis.hget, h]
  rw [heq]
  apply (readHash hi).bind
  rintro h h' rfl
  apply Simulates.pure
  cases h' with
  | none => rfl
  | some h => rfl

theorem hgetall (hi : Plain i) :
    Serves queueId s0 Eq (Server.hgetall (jobKey queueId i)) (Redis.hgetall i) := by
  have heq : Redis.hgetall i = readJob i >>= fun h => pure (h.getD {}) :=
    readJob_bind (fun q h => by simp [Redis.hgetall, h]) (fun q h hj => by simp [Redis.hgetall, hj])
      fun q h => by simp [Redis.hgetall, h]
  rw [heq]
  apply (readHash hi).bind
  rintro h h' rfl
  apply Simulates.pure
  cases h' with
  | none => rfl
  | some h => rfl

@[simp] theorem getD_ofJob (h : Option JobHash) :
    (h.map ofJob).getD {} = ofJob (h.getD {}) := by
  cases h with
  | none => rfl
  | some h => rfl

theorem hset (hi : Plain i) (put : JobHash → JobHash) :
    Serves queueId s0 Eq (Server.hset (jobKey queueId i) put) (Redis.hset i put) := by
  have heq : Redis.hset i put =
      readJob i >>= fun h => writes fun q => q.setHash i (put (h.getD {})) :=
    readJob_bind (fun q h => by simp [Redis.hset, h]) (fun q h hj => by simp [Redis.hset, hj])
      fun q h => by simp [Redis.hset, h]
  rw [heq]
  apply (readHash hi).bind
  rintro h h' rfl
  rw [getD_ofJob]
  exact writeJob hi (some (.hash (put (h'.getD {}))))

theorem hsetnxId (hi : Plain i) :
    Serves queueId s0 Eq (Server.hsetnxId (jobKey queueId i) i) (Redis.hsetnxId i) := by
  have heq : Redis.hsetnxId i = readJob i >>= fun h =>
      (if (h.getD {}).id.isSome then pure false
      else do
        writes fun q => q.setHash i { h.getD {} with id := some i }
        pure true) := by
    refine readJob_bind (fun q h => ?_) (fun q h hj => ?_) fun q h => ?_
    · simp [Redis.hsetnxId, h]
    · simp only [Redis.hsetnxId, hj, Option.getD_some, Script.run_ite, Script.run_bind, run_writes,
        Script.run_pure]
    · simp [Redis.hsetnxId, h]
  rw [heq]
  apply (readHash hi).bind
  rintro h h' rfl
  rw [getD_ofJob]
  refine Simulates.ite (fun _ => Simulates.pure rfl) fun _ => ?_
  have hwrite : Serves queueId s0 Eq _ _ :=
    writeJob hi (some (.hash { h'.getD {} with id := some i }))
  exact hwrite.andThen fun _ => Simulates.pure rfl

theorem hdelLease (hi : Plain i) :
    Serves queueId s0 Eq (Server.hdelLease (jobKey queueId i)) (Redis.hdelLease i) := by
  have heq : Redis.hdelLease i = readJob i >>= fun h =>
      match h with
      | none => pure ()
      | some h => writes fun q => q.setJob i
          (if JobHash.isEmpty { h with lockToken := none, leaseDeadline := none } then none
          else some (.hash { h with lockToken := none, leaseDeadline := none })) := by
    refine readJob_bind (fun q h => ?_) (fun q h hj => ?_) fun q h => ?_
    · simp [Redis.hdelLease, h]
    · simp only [Redis.hdelLease, hj, run_writes]
      split
      · rfl
      · rfl
    · simp [Redis.hdelLease, h]
  rw [heq]
  apply (readHash hi).bind
  rintro h h' rfl
  cases h' with
  | none => exact Simulates.pure rfl
  | some h =>
    have hvalue : Value.ofHash (ofJob { h with lockToken := none, leaseDeadline := none }) =
        (if JobHash.isEmpty { h with lockToken := none, leaseDeadline := none } then none
          else some (JobKey.hash { h with lockToken := none, leaseDeadline := none })).map
            JobKey.value := by
      simp only [Value.ofHash, HashValue.isEmpty, ofJob, decide_true, Bool.and_true]
      split
      · rfl
      · rfl
    have hwrite : Serves queueId s0 Eq _ _ := writeJob hi
      (if JobHash.isEmpty { h with lockToken := none, leaseDeadline := none } then none
        else some (JobKey.hash { h with lockToken := none, leaseDeadline := none }))
    rw [← hvalue] at hwrite
    exact hwrite

/-- `hincrbyOf` of a hash that was read. -/
def hincrbyHash (w : Counters) (i : String) (get : JobHash → Option Numeral)
    (put : Numeral → JobHash → JobHash) (h : Option JobHash) : QueueScript ℤ :=
  match h.bind get with
  | none => do
    writes fun q => q.setHash i (put (.int 1) (h.getD {}))
    pure 1
  | some (.int n) =>
    match w.next n with
    | .ok n' => do
      writes fun q => q.setHash i (put (.int n') (h.getD {}))
      pure n'
    | .error e => throw e
  | some _ => throw .notAnInteger

theorem hincrbyOf (w : Counters) (hi : Plain i) (get : JobHash → Option Numeral)
    (put : Numeral → JobHash → JobHash) :
    Serves queueId s0 Eq (Server.hincrbyOf w (jobKey queueId i) get put)
      (Redis.hincrbyOf w i get put) := by
  have heq : Redis.hincrbyOf w i get put = readJob i >>= hincrbyHash w i get put := by
    refine readJob_bind (fun q h => ?_) (fun q h hj => ?_) fun q h => ?_
    · simp [Redis.hincrbyOf, hincrbyHash, h]
    · simp only [Redis.hincrbyOf, hincrbyHash, hj, Option.bind_some, Option.getD_some]
      rcases get h with _ | (n | x | x)
      · rfl
      · simp only
        rcases w.next n with e | n' <;> rfl
      · rfl
      · rfl
    · simp [Redis.hincrbyOf, h]
  rw [heq]
  apply (readHash hi).bind
  rintro h h' rfl
  have hget : ((h'.map ofJob).bind fun h => get h.job) = h'.bind get := by
    cases h' with
    | none => rfl
    | some h => rfl
  rw [getD_ofJob, hget, hincrbyHash]
  have hwrite : ∀ n, Serves queueId s0 Eq _ _ := fun n =>
    writeJob hi (some (.hash (put (.int n) (h'.getD {}))))
  rcases h'.bind get with _ | (n | x | x)
  · exact (hwrite 1).andThen fun _ => Simulates.pure rfl
  · simp only
    rcases w.next n with e | n'
    · exact Simulates.throw e
    · exact (hwrite n').andThen fun _ => Simulates.pure rfl
  · exact Simulates.throw _
  · exact Simulates.throw _

/-! ### The concurrency hash -/

theorem readConcurrency : Serves queueId s0 (fun h c => h.getD {} = { concurrency := c })
    (Server.readHash (concurrencyKey queueId)) (reads Queue.concurrency) := by
  refine Simulates.reads fun s q hs => ?_
  have hkey : s.keys (concurrencyKey queueId) = Value.ofHash { concurrency := q.concurrency } :=
    hs.keys .concurrency (plain_of_ne fun _ => by simp)
  rw [Server.readHash, hkey, Value.ofHash]
  by_cases hc : q.concurrency = {}
  · rw [if_pos (by rw [hc]; rfl), hc]
    exact ⟨none, rfl, rfl⟩
  · rw [if_neg (by simp [HashValue.isEmpty, hc])]
    exact ⟨_, rfl, rfl⟩

theorem hgetLimit : Serves queueId s0 Eq (Server.hgetLimit (concurrencyKey queueId))
    Redis.hgetLimit := by
  refine readConcurrency.bind (W := Eq) (g := fun c => pure (c.limit.bind Numeral.tonumber)) ?_
  intro h c hc
  rw [hc]
  exact Simulates.pure rfl

theorem hmgetConcurrency : Serves queueId s0 Eq (Server.hmgetConcurrency (concurrencyKey queueId))
    Redis.hmgetConcurrency := by
  refine readConcurrency.bind (W := Eq) (g := fun c => pure c) ?_
  intro h c hc
  rw [hc]
  exact Simulates.pure rfl

theorem hsetConcurrency {c : Concurrency} (hc : c ≠ {}) :
    Serves queueId s0 Eq (Server.hsetConcurrency (concurrencyKey queueId) c)
      (Redis.hsetConcurrency c) := by
  refine readConcurrency.bind (W := Eq)
    (g := fun _ => writes fun q => { q with concurrency := c }) ?_
  intro h c' hc'
  rw [hc']
  refine write (r := .concurrency) (plain_of_ne fun _ => by simp) (fun q => ?_) (fun q r hr => ?_)
    (fun q => rfl) fun q hp => ⟨hp.waiting, hp.active, hp.index⟩
  · rw [Queue.value, Value.ofHash, if_neg (by simp [HashValue.isEmpty, hc])]
  · cases r with
    | concurrency => exact absurd rfl hr
    | _ => rfl

end Serves

end Panqueue
