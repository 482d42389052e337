-- The flow of every script: which scripts take permits, which free them, and
-- which messages they send.
import Panqueue.Flow

namespace Panqueue

variable {q q' q'' : Queue} {t : RedisTime} {i : String} {α : Type}

/-! ## Scripts that free permits -/

/-- The token check of the lease scripts. -/
theorem guard_freeing (i token : String) (missing stale : α) {rest : QueueScript α}
    (hrest : Freeing rest) :
    Freeing (do
      let found ← Redis.keyExists i
      if found = false then pure missing
      else do
        let stored ← Redis.hget i JobHash.lockToken
        if stored ≠ some token then pure stale else rest) := by
  apply Freeing.bind (Unseen.keyExists i).frees
  intro found
  refine Script.Does.ite (fun _ => (Unseen.pure missing).frees) fun _ => ?_
  apply Freeing.bind (Unseen.hget i _).frees
  intro stored
  exact Script.Does.ite (fun _ => (Unseen.pure stale).frees) fun _ => hrest

theorem enqueue_freeing (a : EnqueueArgs) : Freeing (enqueue t a) := by
  apply Freeing.bind (Unseen.hsetnxId a.jobId).frees
  intro fresh
  refine Script.Does.ite (fun _ => (Unseen.pure _).frees) fun _ => ?_
  apply Closing.freeing
  intro limited
  refine Closing.hset a.jobId (fun h hh => ?_) fun _ => ?_
  · constructor
    · simp
    · simp
    · simp
  · exact closing_push limited a.jobId (Unseen.pure _)

theorem complete_freeing (a : CompleteArgs) : Freeing (complete t a) := by
  apply guard_freeing
  apply Closing.freeing
  intro limited
  apply Closing.after (zremActive_loosens a.jobId)
  intro _
  apply Closing.after (Unseen.hdelLease a.jobId).loosens
  intro _
  apply Closing.after (Unseen.retentionLua .completed a.retention t.now a.jobId).loosens
  intro _
  exact closing_freed limited a.jobId _

theorem fail_freeing (a : FailArgs) : Freeing (fail t a) := by
  apply guard_freeing
  apply Closing.freeing
  intro limited
  apply Closing.after (zremActive_loosens a.jobId)
  intro _
  refine Closing.after (Unseen.hincrby a.jobId (fun h hh => hh.failures)
    fun n h hh => ⟨hh.runs, by simp, hh.stalls⟩).loosens fun failures => ?_
  refine Closing.hset a.jobId (fun h hh => ⟨hh.runs, hh.failures, hh.stalls⟩) fun _ => ?_
  apply Closing.after (Unseen.hdelLease a.jobId).loosens
  intro _
  apply Closing.after (Unseen.hget a.jobId _).loosens
  intro stored
  refine Script.Does.ite (fun _ => ?_) fun _ => ?_
  · refine Closing.hset a.jobId (fun h hh => ⟨hh.runs, hh.failures, hh.stalls⟩) fun _ => ?_
    exact closing_push limited a.jobId (Unseen.pure _)
  · apply Closing.after (Unseen.retentionLua .failed a.retention t.now a.jobId).loosens
    intro _
    exact closing_freed limited a.jobId _

theorem requeueActive_freeing (a : RequeueActiveArgs) : Freeing (requeueActive t a) := by
  apply guard_freeing
  apply Closing.freeing
  intro limited
  apply Closing.after (zremActive_loosens a.jobId)
  intro _
  refine Closing.hset a.jobId (fun h hh => ⟨hh.runs, hh.failures, hh.stalls⟩) fun _ => ?_
  apply Closing.after (Unseen.hdelLease a.jobId).loosens
  intro _
  exact closing_push limited a.jobId (Unseen.pure _)

/-! ## recover -/

theorem closing_recoverRemoved (a : RecoverArgs) (limited : Bool) (i : String) :
    Closing limited (recoverRemoved t a limited i) := by
  apply Closing.after (Unseen.keyExists i).loosens
  intro found
  refine Script.Does.ite (fun _ => ?_) fun _ => ?_
  · exact (closing_publishFreed limited i).before fun _ => Unseen.pure _
  · refine Closing.after (Unseen.hincrby i (fun h hh => hh.stalls)
      fun n h hh => ⟨hh.runs, hh.failures, by simp⟩).loosens fun stalls => ?_
    refine Closing.hset i (fun h hh => ⟨hh.runs, hh.failures, hh.stalls⟩) fun _ => ?_
    apply Closing.after (Unseen.hdelLease i).loosens
    intro _
    apply Closing.after (Unseen.hget i _).loosens
    intro stored
    refine Script.Does.ite (fun _ => ?_) fun _ => ?_
    · refine Closing.hset i (fun h hh => ⟨hh.runs, hh.failures, hh.stalls⟩) fun _ => ?_
      exact closing_push limited i ((Unseen.hgetall i).bind fun h => Unseen.pure _)
    · refine Closing.hset i (fun h hh => ⟨hh.runs, hh.failures, hh.stalls⟩) fun _ => ?_
      apply Closing.after (Unseen.hgetall i).loosens
      intro h
      apply Closing.after (Unseen.retentionLua .failed a.retention t.now i).loosens
      intro _
      exact (closing_publishFreed limited i).before fun _ => Unseen.pure _

/-- A sweep that knows whether a limit is stored. -/
def Sweeps (limited : Bool) (q q' : Queue) : Prop := limited = q.limit.isSome → Frees q q'

theorem Sweeps.trans {limited : Bool} (h : Sweeps limited q q') (h' : Sweeps limited q' q'') :
    Sweeps limited q q'' := by
  intro hl
  have h1 := h hl
  exact h1.trans (h' (by rw [hl, limit_congr h1.concurrency]))

theorem Unseen.sweeps {x : QueueScript α} (h : Unseen x) (limited : Bool) :
    Script.Does Queue.Readable (Sweeps limited) x := h.mono fun _ _ hs _ => hs.frees

theorem recoverOne_sweeps (a : RecoverArgs) (limited : Bool) (i : String) :
    Script.Does Queue.Readable (Sweeps limited) (recoverOne t a limited i) := by
  intro q hq
  by_cases hs : q.Due t.now i
  · -- the candidate is active, so the ZREM takes it
    let q1 := q.setActive (q.active.remove i)
    have h1 : Loosens q q1 := ⟨rfl, SortedSet.card_remove_le q.active i, rfl, rfl⟩
    obtain ⟨entry, q2, r2, hq2, h2⟩ := closing_recoverRemoved (t := t) a limited i q1 hq
    refine ⟨[entry], q2, ?_, hq2, fun hl => h2 hl q h1⟩
    rw [recoverOne_due hs, Script.bind_ok r2]
    rfl
  · exact ⟨[], q, recoverOne_not_due hs, hq, fun _ => Frees.refl q⟩

theorem recoverLoop_sweeps (a : RecoverArgs) (limited : Bool) (ids : List String) :
    Script.Does Queue.Readable (Sweeps limited) (recoverLoop t a limited ids) := by
  induction ids with
  | nil => exact (Unseen.pure []).sweeps limited
  | cons i ids ih =>
    refine Script.Does.seq (recoverOne_sweeps a limited i) (fun entry => ?_)
      fun _ _ _ => Sweeps.trans
    exact Script.Does.seq ih (fun recovered => (Unseen.pure _).sweeps limited)
      fun _ _ _ => Sweeps.trans

theorem recover_freeing (a : RecoverArgs) : Freeing (recover t a) := by
  intro q hq
  obtain ⟨es, q', hrun, hq', hs⟩ := recoverLoop_sweeps (t := t) a q.limit.isSome _ q hq
  refine ⟨es, q', ?_, hq', hs rfl⟩
  simp only [recover, Lua.recover, Lua.recoverBatch, Script.run_bind, Redis.hgetLimit,
    Redis.zrangebyscoreActive]
  exact hrun

/-! ## extend-lock -/

theorem zaddActiveXX_frees (d : Double) (i : String) :
    Script.Keeps Queue.Readable Frees (Redis.zaddActiveXX d i) := by
  intro q hq
  cases d with
  | nan => exact ⟨hq, Frees.refl q⟩
  | val s =>
    by_cases hmem : (q.active.score i).isSome = true
    · have hrun : Redis.zaddActiveXX (.val s) i q = .ok () (q.setActive (q.active.add s i)) := by
        simp only [Redis.zaddActiveXX, if_pos hmem]
      obtain ⟨d, hd⟩ := Option.isSome_iff_exists.mp hmem
      have hcard := SortedSet.card_add_of_mem q.active s hd
      rw [Script.after_ok hrun]
      refine ⟨hq, rfl, Nat.le_of_eq hcard, [], (List.append_nil _).symm, ?_⟩
      rintro - ⟨hw, hl⟩
      refine ⟨hw, ?_⟩
      rw [← hcard]
      exact hl
    · have hrun : Redis.zaddActiveXX (.val s) i q = .ok () q := by
        simp only [Redis.zaddActiveXX, if_neg hmem]
      rw [Script.after_ok hrun]
      exact ⟨hq, Frees.refl q⟩

/-- A renewal may fail on a lease that is not a number; the active set has the
same members. -/
theorem extendLock_frees (a : ExtendLockArgs) :
    Script.Keeps Queue.Readable Frees (extendLock t a) := by
  have htail : Script.Keeps Queue.Readable Frees (do
      Redis.commands.zaddActiveXX (a.leaseMs.plus t.now) a.jobId
      let score ← Redis.commands.zscoreActive a.jobId
      if score.isNone then pure .stale
      else do
        Redis.commands.hset a.jobId fun h =>
          { h with leaseDeadline := some (.ofLua (a.leaseMs.plus t.now)) }
        pure ExtendLockResult.extended) := by
    refine Script.Keeps.seq (zaddActiveXX_frees _ a.jobId) (fun _ => ?_)
      (fun _ _ _ => Frees.trans) fun _ _ => id
    apply Script.Does.keeps
    apply Freeing.bind (Unseen.read fun q => ⟨_, rfl⟩).frees
    intro score
    refine Script.Does.ite (fun _ => (Unseen.pure _).frees) fun _ => Unseen.frees ?_
    exact Unseen.bind (Unseen.hset a.jobId fun h hh => ⟨hh.runs, hh.failures, hh.stalls⟩)
      fun _ => Unseen.pure _
  refine (Unseen.keyExists a.jobId).frees.andThen (fun found => ?_) fun _ _ _ => Frees.trans
  refine Script.Keeps.ite (fun _ => (Unseen.pure _).frees.keeps) fun _ => ?_
  refine (Unseen.hget a.jobId _).frees.andThen (fun stored => ?_) fun _ _ _ => Frees.trans
  exact Script.Keeps.ite (fun _ => (Unseen.pure _).frees.keeps) fun _ => htail

/-! ## The claim -/

/-- A claim takes at most `n` permits and sends no message. -/
structure Takes (n : ℕ) (q q' : Queue) : Prop where
  waiting : q'.waiting ≠ [] → q.waiting ≠ []
  active : q.active.card ≤ q'.active.card
  active_le : q'.active.card ≤ q.active.card + n
  concurrency : q'.concurrency = q.concurrency
  notify : q'.notify = q.notify

theorem SameFlow.takes (h : SameFlow q q') (n : ℕ) : Takes n q q' := by
  refine ⟨?_, ?_, ?_, h.concurrency, h.notify⟩
  · rw [h.waiting]
    exact id
  · rw [h.active]
  · rw [h.active]
    omega

theorem Takes.trans {m n : ℕ} (h : Takes m q q') (h' : Takes n q' q'') : Takes (m + n) q q'' := by
  refine ⟨fun hw => h.waiting (h'.waiting hw), h.active.trans h'.active, ?_,
    h'.concurrency.trans h.concurrency, h'.notify.trans h.notify⟩
  have h1 := h.active_le
  have h2 := h'.active_le
  omega

theorem Takes.mono {m n : ℕ} (h : Takes m q q') (hmn : m ≤ n) : Takes n q q' := by
  refine ⟨h.waiting, h.active, ?_, h.concurrency, h.notify⟩
  have h1 := h.active_le
  omega

theorem Takes.claimable {n : ℕ} (h : Takes n q q') (hc : q'.Claimable) : q.Claimable := by
  obtain ⟨hw, hl⟩ := hc
  refine ⟨h.waiting hw, ?_⟩
  intro limit hs
  have hlt := hl limit (by rw [limit_congr h.concurrency]; exact hs)
  exact Double.lt_of_le_of_lt (Double.ofNat_le.mpr h.active) hlt

theorem zaddActive_takes (d : Double) (i : String) :
    Script.Keeps Queue.Readable (Takes 1) (Redis.zaddActive d i) := by
  intro q hq
  cases d with
  | nan => exact ⟨hq, (SameFlow.refl q).takes 1⟩
  | val s =>
    exact ⟨hq, id, SortedSet.card_le_card_add q.active s i, SortedSet.card_add_le q.active s i,
      rfl, rfl⟩

theorem rpop_takes : Script.Does Queue.Readable (Takes 0) Redis.rpop := by
  intro q hq
  rcases hlast : q.waiting.getLast? with _ | i
  · exact ⟨none, q, by rw [Redis.rpop, hlast], hq, (SameFlow.refl q).takes 0⟩
  · refine ⟨some i, q.setWaiting q.waiting.dropLast, by rw [Redis.rpop, hlast], hq, ?_,
      Nat.le_refl _, Nat.le_refl _, rfl, rfl⟩
    intro hw he
    simp [he] at hw

variable (sha1hex : String → String)

theorem claimOne_takes (now : ℕ) (d : Double) (i : String) :
    Script.Keeps Queue.Readable (Takes 1) (claimOne sha1hex now d i) := by
  have hT : ∀ p q r, SameFlow p q → Takes 1 q r → Takes 1 p r := fun _ _ _ h h' =>
    ((h.takes 0).trans h').mono (by omega)
  refine (Unseen.keyExists i).andThen (fun found => ?_) hT
  refine Script.Keeps.ite (fun _ => ((Unseen.pure _).mono fun _ _ h => h.takes 1).keeps) fun _ => ?_
  refine (Unseen.hincrby i (fun h hh => hh.runs)
    fun n h hh => ⟨by simp, hh.failures, hh.stalls⟩).andThen (fun runs => ?_) hT
  refine Script.Does.andThen
    (Unseen.hset i fun h hh => ⟨hh.runs, hh.failures, hh.stalls⟩) (fun _ => ?_) hT
  refine Script.Keeps.seq (S := SameFlow) (zaddActive_takes d i) (fun _ => ?_)
    (fun _ _ _ h h' => (h.trans (h'.takes 0)).mono (by omega)) fun _ _ => id
  exact Script.Does.keeps ((Unseen.hgetall i).bind fun h => Unseen.pure _)

theorem claimLoop_takes (now : ℕ) (d : Double) (n : ℕ) :
    Script.Keeps Queue.Readable (Takes n) (claimLoop sha1hex now d n) := by
  induction n with
  | zero => exact ((Unseen.pure []).mono fun _ _ h => h.takes 0).keeps
  | succ n ih =>
    refine rpop_takes.andThen (S := Takes (n + 1)) (fun popped => ?_)
      fun _ _ _ h h' => (h.trans h').mono (by omega)
    rcases popped with _ | i
    · exact ((Unseen.pure []).mono fun _ _ h => h.takes (n + 1)).keeps
    · refine Script.Keeps.seq (S := Takes n) (claimOne_takes sha1hex now d i) (fun entry => ?_)
        (fun _ _ _ h h' => (h.trans h').mono (by omega)) fun _ _ h => h.mono (by omega)
      exact Script.Keeps.seq ih
        (fun claimed => ((Unseen.pure _).mono fun _ _ h => h.takes 0).keeps)
        (fun _ _ _ h h' => h.trans h') fun _ _ h => h.mono (by omega)

/-- A claim loop returns at most what it was asked for. It returns nothing only
when it was asked for nothing or nothing waits, and then nothing has changed. -/
theorem claimLoop_reply {now n : ℕ} {d : Double} {es : List ClaimEntry}
    (h : claimLoop sha1hex now d n q = .ok es q') :
    es.length ≤ n ∧ (es = [] → q' = q ∧ (n = 0 ∨ q.waiting = [])) := by
  induction n generalizing q es with
  | zero =>
    cases h
    exact ⟨Nat.le_refl 0, fun _ => ⟨rfl, Or.inl rfl⟩⟩
  | succ n ih =>
    rw [claimLoop, Lua.claimEach] at h
    obtain ⟨popped, q1, hpop, hrest⟩ := Script.bind_eq_ok.mp h
    rcases hlast : q.waiting.getLast? with _ | i
    · simp only [Redis.rpop, hlast] at hpop
      cases hpop
      cases hrest
      exact ⟨Nat.zero_le _, fun _ => ⟨rfl, Or.inr (List.getLast?_eq_none_iff.mp hlast)⟩⟩
    · simp only [Redis.rpop, hlast] at hpop
      cases hpop
      obtain ⟨entry, q2, _, hrest⟩ := Script.bind_eq_ok.mp hrest
      obtain ⟨claimed, q3, hloop, hpure⟩ := Script.bind_eq_ok.mp hrest
      cases hpure
      exact ⟨Nat.succ_le_succ (ih hloop).1, fun he => by cases he⟩

/-- The reply of a claim call has at most as many entries as the call asked for. -/
theorem claim_reply_length {t : RedisTime} {a : ClaimGlobalBatchArgs} {es : List ClaimEntry}
    (h : exec sha1hex (.claimGlobalBatch a, t) q = (.claimGlobalBatch es, q')) :
    es.length ≤ a.count := by
  simp only [exec, Lua.exec, runScript] at h
  split at h
  · rename_i es' q1 hrun
    cases h
    simp only [Lua.claimGlobalBatch, Lua.claimBatch, Script.run_bind, Redis.hgetLimit,
      Redis.zcardActive] at hrun
    exact (claimLoop_reply sha1hex hrun).1.trans (claimCount_le _ _ _)
  · cases h

/-! ## Every call -/

/-- What a call does to the flow of the queue. -/
def Call.Flow (q q' : Queue) : Call → Prop
  | .claimGlobalBatch a => Takes (claimCount q.limit q.active.card a.count) q q'
  | .declareConcurrencyLimit a =>
    q' = q ∨ a.Newer q ∧ q' = { q with concurrency := a.declared }
  | _ => Frees q q'

theorem runScript_after (x : QueueScript α) (reply : α → Reply) (q : Queue) :
    (runScript x reply q).2 = Script.after x q := by
  unfold runScript Script.after
  cases x q <;> rfl

theorem declare_after (a : DeclareConcurrencyLimitArgs) (q : Queue) :
    a.Newer q ∧ Script.after (declareConcurrencyLimit a) q = { q with concurrency := a.declared } ∨
      ¬ a.Newer q ∧ Script.after (declareConcurrencyLimit a) q = q := by
  by_cases h : a.Newer q
  · exact Or.inl ⟨h, Script.after_ok (declare_newer h)⟩
  · rcases declare_not_newer h with hr | ⟨r, _, hr⟩
    · exact Or.inr ⟨h, Script.after_error hr⟩
    · exact Or.inr ⟨h, Script.after_ok hr⟩

/-- The step lemma of the flow. -/
theorem exec_flow (op : Call × RedisTime) (hq : q.Readable) :
    (exec sha1hex op q).2.Readable ∧ op.1.Flow q (exec sha1hex op q).2 := by
  obtain ⟨call, t⟩ := op
  cases call with
  | enqueue a =>
    simp only [exec, Lua.exec, runScript_after, Call.Flow]
    exact (enqueue_freeing a).keeps q hq
  | claimGlobalBatch a =>
    simp only [exec, Lua.exec, runScript_after, Call.Flow]
    exact claimLoop_takes sha1hex t.now _ _ q hq
  | complete a =>
    simp only [exec, Lua.exec, runScript_after, Call.Flow]
    exact (complete_freeing a).keeps q hq
  | fail a =>
    simp only [exec, Lua.exec, runScript_after, Call.Flow]
    exact (fail_freeing a).keeps q hq
  | recover a =>
    simp only [exec, Lua.exec, runScript_after, Call.Flow]
    exact (recover_freeing a).keeps q hq
  | extendLock a =>
    simp only [exec, Lua.exec, runScript_after, Call.Flow]
    exact extendLock_frees a q hq
  | requeueActive a =>
    simp only [exec, Lua.exec, runScript_after, Call.Flow]
    exact (requeueActive_freeing a).keeps q hq
  | declareConcurrencyLimit a =>
    simp only [exec, Lua.exec, runScript_after, Call.Flow]
    rcases declare_after a q with ⟨hn, he⟩ | ⟨_, he⟩
    · rw [he]
      exact ⟨hq, Or.inr ⟨hn, rfl⟩⟩
    · rw [he]
      exact ⟨hq, Or.inl rfl⟩

/-- Every reachable queue has readable job keys, whatever leases were asked for. -/
theorem readable_run (ops : List (Call × RedisTime)) : (run sha1hex ops).Readable :=
  Machine.finish_invariant (C := fun _ => True) Queue.readable_empty
    (fun op _ _ hq => (exec_flow sha1hex op hq).1) fun _ _ => trivial

end Panqueue
