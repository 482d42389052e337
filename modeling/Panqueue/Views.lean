-- Two versions of a script, over two kinds of commands: they are coupled as
-- soon as their commands are. The commands may be coupled for some job ids only,
-- if the ids that they hand out are among these.
import Panqueue.Lib.Coupling
import Panqueue.Lib.Runs
import Panqueue.Scripts

namespace Panqueue

variable {m n : Type → Type} [Monad m] [Monad n]

/-- The commands are coupled for the job ids in `P`, and give such ids. -/
structure Commands.Coupled (L : Coupling m n) (P : String → Prop) (C : Commands m)
    (D : Commands n) : Prop where
  keyExists {i : String} (hi : P i) : L.Always (C.keyExists i) (D.keyExists i)
  del {i : String} (hi : P i) : L.Always (C.del i) (D.del i)
  hget {β : Type} {i : String} (hi : P i) (get : JobHash → Option β) :
    L.Always (C.hget i get) (D.hget i get)
  hset {i : String} (hi : P i) (put : JobHash → JobHash) : L.Always (C.hset i put) (D.hset i put)
  hsetnxId {i : String} (hi : P i) : L.Always (C.hsetnxId i) (D.hsetnxId i)
  hdelLease {i : String} (hi : P i) : L.Always (C.hdelLease i) (D.hdelLease i)
  hincrby {i : String} (hi : P i) (get : JobHash → Option Numeral)
    (put : Numeral → JobHash → JobHash) : L.Always (C.hincrby i get put) (D.hincrby i get put)
  hgetall {i : String} (hi : P i) : L.Always (C.hgetall i) (D.hgetall i)
  lpush {i : String} (hi : P i) : L.Always (C.lpush i) (D.lpush i)
  rpop : L.Holds (fun popped => ∀ i ∈ popped, P i) C.rpop D.rpop
  llen : L.Always C.llen D.llen
  zaddActive {i : String} (d : Double) (hi : P i) : L.Always (C.zaddActive d i) (D.zaddActive d i)
  zaddActiveXX {i : String} (d : Double) (hi : P i) :
    L.Always (C.zaddActiveXX d i) (D.zaddActiveXX d i)
  zscoreActive (i : String) : L.Always (C.zscoreActive i) (D.zscoreActive i)
  zremActive (i : String) : L.Always (C.zremActive i) (D.zremActive i)
  zcardActive : L.Always C.zcardActive D.zcardActive
  zrangebyscoreActive (lo hi : Score) (limit : ℤ) : L.Holds (fun ids => ∀ i ∈ ids, P i)
    (C.zrangebyscoreActive lo hi limit) (D.zrangebyscoreActive lo hi limit)
  zaddIndex {i : String} (s : FinalStatus) (score : Score) (hi : P i) :
    L.Always (C.zaddIndex s score i) (D.zaddIndex s score i)
  zcardIndex (s : FinalStatus) : L.Always (C.zcardIndex s) (D.zcardIndex s)
  zrangebyscoreIndex (s : FinalStatus) (lo hi : Score) : L.Holds (fun ids => ∀ i ∈ ids, P i)
    (C.zrangebyscoreIndex s lo hi) (D.zrangebyscoreIndex s lo hi)
  zremrangebyscoreIndex (s : FinalStatus) (lo hi : Score) :
    L.Always (C.zremrangebyscoreIndex s lo hi) (D.zremrangebyscoreIndex s lo hi)
  zrangeIndex (s : FinalStatus) (n : ℕ) : L.Holds (fun ids => ∀ i ∈ ids, P i)
    (C.zrangeIndex s n) (D.zrangeIndex s n)
  zremrangebyrankIndex (s : FinalStatus) (n : ℕ) :
    L.Always (C.zremrangebyrankIndex s n) (D.zremrangebyrankIndex s n)
  hgetLimit : L.Always C.hgetLimit D.hgetLimit
  hmgetConcurrency : L.Always C.hmgetConcurrency D.hmgetConcurrency
  hsetConcurrency {c : Concurrency} (hc : c ≠ {}) :
    L.Always (C.hsetConcurrency c) (D.hsetConcurrency c)
  publish (i : String) : L.Always (C.publish i) (D.publish i)
  raise {α : Type} (e : RedisError) : L.Always (C.raise e : m α) (D.raise e)

namespace Commands.Coupled

open Coupling

variable {L : Coupling m n} {P : String → Prop} {C : Commands m} {D : Commands n} {i : String}
  {t : RedisTime} {α : Type} (h : C.Coupled L P D)

include h

/-! ## Retention -/

theorem trimByTtl (s : FinalStatus) (ttl : ℤ) (now : ℕ) :
    L.Always (Lua.trimByTtl C s ttl now) (Lua.trimByTtl D s ttl now) := by
  refine ite (fun _ => ?_) fun _ => done ()
  refine L.bind (h.zrangebyscoreIndex s _ _) fun ids hids => ?_
  refine andThen (forEach fun i hi => h.del (hids i hi)) fun _ => ?_
  exact h.zremrangebyscoreIndex s _ _

theorem trimByCount (s : FinalStatus) (count : ℤ) :
    L.Always (Lua.trimByCount C s count) (Lua.trimByCount D s count) := by
  refine ite (fun _ => ?_) fun _ => done ()
  refine andThen (h.zcardIndex s) fun card => ?_
  refine ite (fun _ => ?_) fun _ => done ()
  refine L.bind (h.zrangeIndex s _) fun ids hids => ?_
  refine andThen (forEach fun i hi => h.del (hids i hi)) fun _ => ?_
  exact h.zremrangebyrankIndex s _

theorem retentionLua (s : FinalStatus) (r : ResolvedRetention) (now : ℕ) (hi : P i) :
    L.Always (Lua.retentionLua C s r now i) (Lua.retentionLua D s r now i) := by
  refine ite (fun _ => h.del hi) fun _ => ?_
  refine andThen (h.hset hi _) fun _ => andThen (h.zaddIndex s _ hi) fun _ => ?_
  refine ite (fun _ => ?_) fun _ => done ()
  exact andThen (h.trimByTtl s r.ttl now) fun _ => h.trimByCount s r.count

theorem publishFreed (limited : Bool) (i : String) :
    L.Always (Lua.publishFreed C limited i) (Lua.publishFreed D limited i) := by
  refine andThen h.llen fun n => ?_
  exact ite (fun _ => h.publish i) fun _ => done ()

/-- The end of complete and fail: retention, and the message that wakes a claimer. -/
theorem freed (s : FinalStatus) (r : ResolvedRetention) (now : ℕ) (hi : P i) (a : α) :
    L.Always
      (do
        Lua.retentionLua C s r now i
        let limit ← C.hgetLimit
        Lua.publishFreed C limit.isSome i
        pure a)
      (do
        Lua.retentionLua D s r now i
        let limit ← D.hgetLimit
        Lua.publishFreed D limit.isSome i
        pure a) := by
  refine andThen (h.retentionLua s r now hi) fun _ => andThen h.hgetLimit fun limit => ?_
  exact andThen (h.publishFreed limit.isSome i) fun _ => done a

/-! ## The scripts -/

/-- The token check that four scripts start with. -/
theorem guard (token : String) (missing stale : α) (hi : P i) {x : m α} {y : n α}
    (hxy : L.Always x y) :
    L.Always
      (do
        let found ← C.keyExists i
        if found = false then pure missing
        else do
          let stored ← C.hget i JobHash.lockToken
          if stored ≠ some token then pure stale else x)
      (do
        let found ← D.keyExists i
        if found = false then pure missing
        else do
          let stored ← D.hget i JobHash.lockToken
          if stored ≠ some token then pure stale else y) := by
  refine andThen (h.keyExists hi) fun found => ?_
  refine ite (fun _ => done missing) fun _ => ?_
  refine andThen (h.hget hi _) fun stored => ?_
  exact ite (fun _ => done stale) fun _ => hxy

theorem enqueue {a : EnqueueArgs} (hi : P a.jobId) :
    L.Always (Lua.enqueue C t a) (Lua.enqueue D t a) := by
  refine andThen (h.hsetnxId hi) fun fresh => ?_
  refine ite (fun _ => done _) fun _ => ?_
  refine andThen (h.hset hi _) fun _ => andThen (h.lpush hi) fun _ => ?_
  exact andThen (h.publish a.jobId) fun _ => done _

theorem claimOne (sha1hex : String → String) (now : ℕ) (d : Double) (hi : P i) :
    L.Always (Lua.claimOne C sha1hex now d i) (Lua.claimOne D sha1hex now d i) := by
  refine andThen (h.keyExists hi) fun found => ?_
  refine ite (fun _ => done _) fun _ => ?_
  refine andThen (h.hincrby hi _ _) fun runs => andThen (h.hset hi _) fun _ => ?_
  exact andThen (h.zaddActive d hi) fun _ => andThen (h.hgetall hi) fun x => done _

theorem claimEach {one : String → m α} {one' : String → n α}
    (hone : ∀ i, P i → L.Always (one i) (one' i)) (count : ℕ) :
    L.Always (Lua.claimEach C one count) (Lua.claimEach D one' count) := by
  induction count with
  | zero => exact done []
  | succ count ih =>
    refine L.bind h.rpop fun popped hpopped => ?_
    cases popped with
    | none => exact done []
    | some i =>
      refine andThen (hone i (hpopped i rfl)) fun entry => ?_
      exact andThen ih fun claimed => done _

theorem claimGlobalBatch (sha1hex : String → String) (a : ClaimGlobalBatchArgs) :
    L.Always (Lua.claimGlobalBatch C sha1hex t a) (Lua.claimGlobalBatch D sha1hex t a) := by
  refine andThen h.hgetLimit fun limit => andThen h.zcardActive fun active => ?_
  exact h.claimEach (fun i hi => h.claimOne sha1hex t.now _ hi) _

theorem complete {a : CompleteArgs} (hi : P a.jobId) :
    L.Always (Lua.complete C t a) (Lua.complete D t a) := by
  apply h.guard a.lockToken _ _ hi
  refine andThen (h.zremActive _) fun _ => andThen (h.hdelLease hi) fun _ => ?_
  exact h.freed .completed a.retention t.now hi _

theorem fail {a : FailArgs} (hi : P a.jobId) : L.Always (Lua.fail C t a) (Lua.fail D t a) := by
  apply h.guard a.lockToken _ _ hi
  refine andThen (h.zremActive _) fun _ => andThen (h.hincrby hi _ _) fun failures => ?_
  refine andThen (h.hset hi _) fun _ => andThen (h.hdelLease hi) fun _ => ?_
  refine andThen (h.hget hi _) fun stored => ?_
  refine ite (fun _ => ?_) fun _ => h.freed .failed a.retention t.now hi _
  refine andThen (h.hset hi _) fun _ => andThen (h.lpush hi) fun _ => ?_
  exact andThen (h.publish _) fun _ => done _

theorem recoverRemoved (a : RecoverArgs) (limited : Bool) (hi : P i) :
    L.Always (Lua.recoverRemoved C t a limited i) (Lua.recoverRemoved D t a limited i) := by
  refine andThen (h.keyExists hi) fun found => ?_
  refine ite (fun _ => andThen (h.publishFreed limited i) fun _ => done _) fun _ => ?_
  refine andThen (h.hincrby hi _ _) fun stalls => andThen (h.hset hi _) fun _ => ?_
  refine andThen (h.hdelLease hi) fun _ => andThen (h.hget hi _) fun stored => ?_
  refine ite (fun _ => ?_) fun _ => ?_
  · refine andThen (h.hset hi _) fun _ => andThen (h.lpush hi) fun _ => ?_
    exact andThen (h.publish i) fun _ => andThen (h.hgetall hi) fun x => done _
  · refine andThen (h.hset hi _) fun _ => andThen (h.hgetall hi) fun x => ?_
    refine andThen (h.retentionLua .failed a.retention t.now hi) fun _ => ?_
    exact andThen (h.publishFreed limited i) fun _ => done _

theorem recoverOne (a : RecoverArgs) (limited : Bool) (hi : P i) :
    L.Always (Lua.recoverOne C t a limited i) (Lua.recoverOne D t a limited i) := by
  refine andThen (h.zscoreActive i) fun score => ?_
  refine ite (fun _ => ?_) fun _ => done []
  refine andThen (h.zremActive i) fun removed => ?_
  refine ite (fun _ => ?_) fun _ => done []
  exact andThen (h.recoverRemoved a limited hi) fun entry => done _

omit h in
theorem recoverEach {one : String → m (List α)} {one' : String → n (List α)} {ids : List String}
    (hone : ∀ i ∈ ids, L.Always (one i) (one' i)) :
    L.Always (Lua.recoverEach one ids) (Lua.recoverEach one' ids) := by
  induction ids with
  | nil => exact done []
  | cons i ids ih =>
    refine andThen (hone i List.mem_cons_self) fun entry => ?_
    refine andThen (ih fun k hk => hone k (List.mem_cons_of_mem i hk)) fun recovered => ?_
    exact done _

theorem recover (a : RecoverArgs) : L.Always (Lua.recover C t a) (Lua.recover D t a) := by
  refine andThen h.hgetLimit fun limit => ?_
  refine L.bind (h.zrangebyscoreActive _ _ _) fun ids hids => ?_
  exact recoverEach fun i hi => h.recoverOne a limit.isSome (hids i hi)

theorem extendLock {a : ExtendLockArgs} (hi : P a.jobId) :
    L.Always (Lua.extendLock C t a) (Lua.extendLock D t a) := by
  apply h.guard a.lockToken _ _ hi
  refine andThen (h.zaddActiveXX _ hi) fun _ => andThen (h.zscoreActive _) fun score => ?_
  refine ite (fun _ => done _) fun _ => ?_
  exact andThen (h.hset hi _) fun _ => done _

theorem requeueActive {a : RequeueActiveArgs} (hi : P a.jobId) :
    L.Always (Lua.requeueActive C t a) (Lua.requeueActive D t a) := by
  apply h.guard a.lockToken _ _ hi
  refine andThen (h.zremActive _) fun _ => andThen (h.hset hi _) fun _ => ?_
  refine andThen (h.hdelLease hi) fun _ => andThen (h.lpush hi) fun _ => ?_
  exact andThen (h.publish _) fun _ => done _

theorem declareConcurrencyLimit (a : DeclareConcurrencyLimitArgs) :
    L.Always (Lua.declareConcurrencyLimit C a) (Lua.declareConcurrencyLimit D a) := by
  refine andThen h.hmgetConcurrency fun stored => ?_
  rcases stored.version with _ | v
  · exact andThen (h.hsetConcurrency (by simp)) fun _ => done _
  · rcases hv : v.tonumber with _ | storedVersion
    · simp only [hv]
      exact h.raise _
    · simp only [hv]
      refine ite (fun _ => andThen (h.hsetConcurrency (by simp)) fun _ => done _) fun _ => ?_
      refine ite (fun _ => done _) fun _ => ?_
      exact ite (fun _ => done _) fun _ => done _

end Commands.Coupled

/-! ## Calls -/

/-- The job id that a call names, if it names one, is in `P`. -/
def Call.Names (P : String → Prop) : Call → Prop
  | .enqueue a => P a.jobId
  | .complete a => P a.jobId
  | .fail a => P a.jobId
  | .extendLock a => P a.jobId
  | .requeueActive a => P a.jobId
  | .claimGlobalBatch _ | .recover _ | .declareConcurrencyLimit _ => True

instance (P : String → Prop) [DecidablePred P] : DecidablePred (Call.Names P)
  | .enqueue a | .complete a | .fail a | .extendLock a | .requeueActive a =>
    inferInstanceAs (Decidable (P a.jobId))
  | .claimGlobalBatch _ | .recover _ | .declareConcurrencyLimit _ =>
    inferInstanceAs (Decidable True)

variable {σ τ : Type} {C : Commands (Script RedisError σ)} {D : Commands (Script RedisError τ)}
  {P : String → Prop} (sha1hex : String → String)

theorem runScript_inStep {R : σ → τ → Prop} {α : Type} {x : Script RedisError σ α}
    {y : Script RedisError τ α} (h : (Script.inStep R).Always x y) (reply : α → Reply) {s : σ}
    {s' : τ} (hs : R s s') : (runScript x reply s).1 = (runScript y reply s').1 ∧
      R (runScript x reply s).2 (runScript y reply s').2 := by
  have hsim := Script.inStep_always.mp h
  unfold runScript
  rcases hsim.ends hs with ⟨a, b, u, v, h1, h2, rfl, hR⟩ | ⟨e, u, v, h1, h2, hR⟩
  · rw [h1, h2]
    exact ⟨rfl, hR⟩
  · rw [h1, h2]
    exact ⟨rfl, hR⟩

/-- Over commands that run in step, a call gives the same reply, and it leaves
the stores related. -/
theorem Commands.Coupled.exec {R : σ → τ → Prop} (h : C.Coupled (Script.inStep R) P D)
    {op : Call × RedisTime} (hop : op.1.Names P) {s : σ} {s' : τ} (hs : R s s') :
    (Lua.exec C sha1hex op s).1 = (Lua.exec D sha1hex op s').1 ∧
      R (Lua.exec C sha1hex op s).2 (Lua.exec D sha1hex op s').2 := by
  obtain ⟨call, t⟩ := op
  cases call with
  | enqueue a => exact runScript_inStep (h.enqueue hop) _ hs
  | claimGlobalBatch a => exact runScript_inStep (h.claimGlobalBatch sha1hex a) _ hs
  | complete a => exact runScript_inStep (h.complete hop) _ hs
  | fail a => exact runScript_inStep (h.fail hop) _ hs
  | recover a => exact runScript_inStep (h.recover a) _ hs
  | extendLock a => exact runScript_inStep (h.extendLock hop) _ hs
  | requeueActive a => exact runScript_inStep (h.requeueActive hop) _ hs
  | declareConcurrencyLimit a => exact runScript_inStep (h.declareConcurrencyLimit a) _ hs

/-! ## Counters with an end -/

/-- The errors of HINCRBY on an integer that is out of its range, or at its end. -/
def RedisError.OfCounter (e : RedisError) : Prop := e = .overflow ∨ e = .notAnInteger

variable (w : Counters)

/-- HINCRBY counts as it would without a bound, or it fails. -/
theorem hincrbyOf_upTo (i : String) (get : JobHash → Option Numeral)
    (put : Numeral → JobHash → JobHash) :
    (Script.upTo RedisError.OfCounter).Always (Redis.hincrbyOf w i get put)
      (Redis.hincrby i get put) := by
  have hnext : ∀ v, w.next v = .ok (v + 1) ∨ ∃ e, RedisError.OfCounter e ∧ w.next v = .error e := by
    intro v
    cases w with
    | unbounded => exact Or.inl rfl
    | bits64 =>
      simp only [Counters.next]
      split
      · exact Or.inr ⟨_, Or.inr rfl, rfl⟩
      · split
        · exact Or.inr ⟨_, Or.inl rfl, rfl⟩
        · exact Or.inl rfl
  intro q
  unfold Redis.hincrby
  rcases hk : q.jobs i with _ | (h | _)
  · refine Or.inl ⟨?_, fun _ _ _ => trivial⟩
    simp only [Redis.hincrbyOf, hk]
  · rcases hg : get h with _ | (v | x | text)
    · refine Or.inl ⟨?_, fun _ _ _ => trivial⟩
      simp only [Redis.hincrbyOf, hk, hg]
    · rcases hnext v with hv | ⟨e, he, hv⟩
      · refine Or.inl ⟨?_, fun _ _ _ => trivial⟩
        have hfree : Counters.unbounded.next v = .ok (v + 1) := rfl
        simp only [Redis.hincrbyOf, hk, hg, hv, hfree]
      · exact Or.inr ⟨e, q, he, by simp only [Redis.hincrbyOf, hk, hg, hv]⟩
    · refine Or.inl ⟨?_, fun _ _ _ => trivial⟩
      simp only [Redis.hincrbyOf, hk, hg]
    · refine Or.inl ⟨?_, fun _ _ _ => trivial⟩
      simp only [Redis.hincrbyOf, hk, hg]
  · refine Or.inl ⟨?_, fun _ _ _ => trivial⟩
    simp only [Redis.hincrbyOf, hk]

theorem commandsOf_upTo : (Redis.commandsOf w).Coupled (Script.upTo RedisError.OfCounter)
    (fun _ => True) Redis.commands where
  keyExists _ := .refl _ _
  del _ := .refl _ _
  hget _ _ := .refl _ _
  hset _ _ := .refl _ _
  hsetnxId _ := .refl _ _
  hdelLease _ := .refl _ _
  hincrby _ get put := hincrbyOf_upTo w _ get put
  hgetall _ := .refl _ _
  lpush _ := .refl _ _
  rpop := fun _ => Or.inl ⟨rfl, fun _ _ _ _ _ => trivial⟩
  llen := .refl _ _
  zaddActive _ _ := .refl _ _
  zaddActiveXX _ _ := .refl _ _
  zscoreActive _ := .refl _ _
  zremActive _ := .refl _ _
  zcardActive := .refl _ _
  zrangebyscoreActive _ _ _ := fun _ => Or.inl ⟨rfl, fun _ _ _ _ _ => trivial⟩
  zaddIndex _ _ _ := .refl _ _
  zcardIndex _ := .refl _ _
  zrangebyscoreIndex _ _ _ := fun _ => Or.inl ⟨rfl, fun _ _ _ _ _ => trivial⟩
  zremrangebyscoreIndex _ _ _ := .refl _ _
  zrangeIndex _ _ := fun _ => Or.inl ⟨rfl, fun _ _ _ _ _ => trivial⟩
  zremrangebyrankIndex _ _ := .refl _ _
  hgetLimit := .refl _ _
  hmgetConcurrency := .refl _ _
  hsetConcurrency _ := .refl _ _
  publish _ := .refl _ _
  raise _ := .refl _ _

theorem runScript_upTo {E : RedisError → Prop} {α : Type} {x y : Script RedisError σ α}
    (h : (Script.upTo E).Always x y) (reply : α → Reply) (s : σ) :
    runScript x reply s = runScript y reply s ∨ ∃ e, E e ∧ (runScript x reply s).1 = .error e := by
  unfold runScript
  rcases h s with ⟨hxy, -⟩ | ⟨e, s', he, hx⟩
  · rw [hxy]
    exact Or.inl rfl
  · rw [hx]
    exact Or.inr ⟨e, he, rfl⟩

/-- A call on counters with an end does what it does on counters without one, or
it ends in the error of a counter. -/
theorem execOf_upTo (op : Call × RedisTime) (q : Queue) :
    execOf w sha1hex op q = exec sha1hex op q ∨
      ∃ e : RedisError, e.OfCounter ∧ (execOf w sha1hex op q).1 = .error e := by
  have h := commandsOf_upTo w
  have hnames : ∀ c : Call, c.Names fun _ => True := fun c => by cases c <;> trivial
  obtain ⟨call, t⟩ := op
  have hop := hnames call
  cases call with
  | enqueue a => exact runScript_upTo (h.enqueue hop) _ q
  | claimGlobalBatch a => exact runScript_upTo (h.claimGlobalBatch sha1hex a) _ q
  | complete a => exact runScript_upTo (h.complete hop) _ q
  | fail a => exact runScript_upTo (h.fail hop) _ q
  | recover a => exact runScript_upTo (h.recover a) _ q
  | extendLock a => exact runScript_upTo (h.extendLock hop) _ q
  | requeueActive a => exact runScript_upTo (h.requeueActive hop) _ q
  | declareConcurrencyLimit a => exact runScript_upTo (h.declareConcurrencyLimit a) _ q

/-- A run on counters with an end is the run on counters without one, as long as
no call of it ends in the error of a counter. -/
theorem run_of_counters {q : Queue} {ops : List (Call × RedisTime)}
    (h : ∀ x ∈ Machine.trace (execOf w sha1hex) q ops, ∀ e : RedisError,
      x.2 = .error e → ¬ e.OfCounter) :
    Machine.finish (execOf w sha1hex) q ops = Machine.finish (exec sha1hex) q ops ∧
      Machine.trace (execOf w sha1hex) q ops = Machine.trace (exec sha1hex) q ops := by
  induction ops generalizing q with
  | nil => exact ⟨rfl, rfl⟩
  | cons op ops ih =>
    rw [Machine.trace] at h
    obtain ⟨hop, hrest⟩ := List.forall_mem_cons.mp h
    rcases execOf_upTo sha1hex w op q with heq | ⟨e, he, herr⟩
    · obtain ⟨hfinish, htrace⟩ := ih hrest
      rw [heq] at hfinish htrace
      simp only [Machine.finish, Machine.trace, heq, hfinish, htrace, and_self]
    · exact absurd he (hop e herr)

end Panqueue
