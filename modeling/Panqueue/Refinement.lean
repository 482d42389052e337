-- Each script moves each job along the steps of the ledger, as the reply of
-- the script tells it.
import Panqueue.Retention

namespace Panqueue

variable (sha1hex : String → String) {q q' : Queue} {t : RedisTime} {i : String}

/-! ## A job in the hands of a script -/

/-- In `q'`, a script has taken job `i` from its place in `q`: its hash `h` is
there, and the job is in no collection. The other jobs stand as in `q`. -/
structure Held (i : String) (h : JobHash) (q q' : Queue) : Prop where
  here : q'.sight i = Sight.loose h
  others : ∀ k ≠ i, q'.sight k = q.sight k

namespace Held

variable {h : JobHash}

theorem key (hh : Held i h q q') : q'.jobs i = some (.hash h) := congrArg Sight.key hh.here

theorem setHash (hh : Held i h q q') (h' : JobHash) : Held i h' q (q'.setHash i h') := by
  refine ⟨?_, ?_⟩
  · rw [Queue.sight_setHash_self, hh.here]
    rfl
  · intro k hk
    rw [Queue.sight_setHash_ne _ _ hk, hh.others k hk]

theorem keyExists (hh : Held i h q q') : Redis.keyExists i q' = .ok true q' := by
  simp [Redis.keyExists, hh.key]

theorem hget {β : Type} (hh : Held i h q q') (get : JobHash → Option β) :
    Redis.hget i get q' = .ok (get h) q' := by
  simp [Redis.hget, hh.key]

theorem hgetall (hh : Held i h q q') : Redis.hgetall i q' = .ok h q' := by
  simp [Redis.hgetall, hh.key]

theorem hset (hh : Held i h q q') (put : JobHash → JobHash) :
    ∃ q'', Redis.hset i put q' = .ok () q'' ∧ Held i (put h) q q'' :=
  ⟨_, by simp only [Redis.hset, hh.key], hh.setHash (put h)⟩

theorem hincrby (hh : Held i h q q') (get : JobHash → Option Numeral) {n : ℕ}
    (put : Numeral → JobHash → JobHash) (hg : get h = some (.int n)) :
    ∃ q'', Redis.hincrby i get put q' = .ok (n + 1) q'' ∧
      Held i (put (.int (n + 1)) h) q q'' :=
  ⟨_, by simp only [Redis.hincrbyOf, hh.key, hg, Counters.next], hh.setHash _⟩

theorem hdelLease (hh : Held i h q q') {s : JobStatus} (hs : h.status = some s) :
    ∃ q'', Redis.hdelLease i q' = .ok () q'' ∧
      Held i { h with lockToken := none, leaseDeadline := none } q q'' := by
  refine ⟨q'.setHash i { h with lockToken := none, leaseDeadline := none }, ?_, hh.setHash _⟩
  have hne := JobHash.not_isEmpty (h := { h with lockToken := none, leaseDeadline := none }) hs
  simp only [Redis.hdelLease, hh.key, hne]
  rfl

/-- A held job is pushed back to the waiting list. -/
theorem lpush (hh : Held i h q q') {j : Job} (hj : (Place.waiting j).hash i = some h) :
    ∃ q'', Redis.lpush i q' = .ok () q'' ∧ At q'' i (.waiting j) ∧
      ∀ k ≠ i, q''.sight k = q.sight k := by
  refine ⟨_, rfl, ?_, ?_⟩
  · have hw : q'.waiting.count i = 0 := congrArg Sight.waits hh.here
    rw [At, Queue.sight_setWaiting, hh.here, List.count_cons_self, hw]
    simp only [Place.sight, hj]
    rfl
  · intro k hk
    rw [← hh.others k hk, Queue.sight_setWaiting, List.count_cons_of_ne (Ne.symm hk)]
    rfl

/-- A held job gets a lease. -/
theorem zaddActive (hh : Held i h q q') {j : Job} (token : String) {d : Score}
    (hj : (Place.active j token d).hash i = some h) :
    ∃ q'', Redis.zaddActive (.val d) i q' = .ok () q'' ∧ At q'' i (.active j token d) ∧
      ∀ k ≠ i, q''.sight k = q.sight k := by
  refine ⟨_, rfl, ?_, ?_⟩
  · rw [At, Queue.sight_setActive, hh.here, SortedSet.score_add_self]
    simp only [Place.sight, hj]
    rfl
  · intro k hk
    rw [← hh.others k hk, Queue.sight_setActive, SortedSet.score_add_ne _ _ hk]
    rfl

end Held

/-- A script finished job `i` as `j`: retention ran on the hash of `j`, in a
queue where the script held the job, and no job changed after it. -/
def Retires (s : FinalStatus) (r : ResolvedRetention) (now : ℕ) (i : String) (j : Job)
    (q q' : Queue) : Prop :=
  ∃ h q1 q2, Held i h q q1 ∧
    (Place.finished s j now).hash i =
      some { h with status := some s.status, finishedAt := some (.int now) } ∧
    retentionLua s r now i q1 = .ok () q2 ∧ ∀ k, q'.sight k = q2.sight k

section Retires

variable {s : FinalStatus} {r : ResolvedRetention} {now : ℕ} {j : Job}

theorem Retires.of_sight {q'' : Queue} (h : Retires s r now i j q q')
    (hs : ∀ k, q''.sight k = q'.sight k) : Retires s r now i j q q'' := by
  obtain ⟨x, q1, q2, hheld, hx, hrun, hsame⟩ := h
  exact ⟨x, q1, q2, hheld, hx, hrun, fun k => (hs k).trans (hsame k)⟩

/-- A held job finishes. -/
theorem Held.retires {h : JobHash} (hh : Held i h q q') (s : FinalStatus) (r : ResolvedRetention)
    (now : ℕ) (j : Job)
    (hj : (Place.finished s j now).hash i =
      some { h with status := some s.status, finishedAt := some (.int now) }) :
    ∃ q'', retentionLua s r now i q' = .ok () q'' ∧ Retires s r now i j q q'' := by
  obtain ⟨q'', hrun, -⟩ := retentionLua_spec id (r := r) hh.here hj
  exact ⟨q'', hrun, h, q', q'', hh, hj, hrun, fun _ => rfl⟩

/-- Where retention leaves the jobs. -/
theorem Retires.retired (sha1hex : String → String) (h : Retires s r now i j q q') :
    Retired sha1hex i (.finished s j now) q q' := by
  obtain ⟨x, q1, q2, hheld, hx, hrun, hsame⟩ := h
  obtain ⟨q2', hrun', hret⟩ := retentionLua_spec sha1hex (r := r) hheld.here hx
  rw [hrun] at hrun'
  cases hrun'
  constructor
  · obtain ⟨p, hp, hs⟩ := hret.here
    exact ⟨p, hp.of_sight (hsame i), hs⟩
  · intro k hk p hp
    obtain ⟨p', hp', hs⟩ := hret.others k hk p (hp.of_sight (hheld.others k hk))
    exact ⟨p', hp'.of_sight (hsame k), hs⟩

theorem Retires.moves {p : Place} {es : List Act} (h : Retires s r now i j q q') (hp : At q i p)
    (hs : JobStep (issued sha1hex i) p es (.finished s j now)) :
    Moves sha1hex (fun k => if i = k then es else []) q q' := by
  have hret := h.retired sha1hex
  intro k y hy
  by_cases hk : k = i
  · subst hk
    cases hp.unique hy
    obtain ⟨p', hp', hs'⟩ := hret.here
    exact ⟨p', hp', by simpa using (Reaches.single hs).trans hs'⟩
  · obtain ⟨y', hy', hs'⟩ := hret.others k hk y hy
    exact ⟨y', hy', by simpa [Ne.symm hk] using hs'⟩

end Retires

/-! ## Taking a job from its place -/

/-- ZREM takes an active job. -/
theorem zremActive_held {j : Job} {token : String} {d : Score}
    (h : At q i (.active j token d)) :
    ∃ h' q', (Place.active j token d).hash i = some h' ∧
      Redis.zremActive i q = .ok true q' ∧ Held i h' q q' := by
  refine ⟨_, q.setActive (q.active.remove i), rfl, ?_, ?_, ?_⟩
  · simp only [Redis.zremActive, h.lease]
    rfl
  · rw [Queue.sight_setActive, h, SortedSet.score_remove_self]
    rfl
  · intro k hk
    rw [Queue.sight_setActive, SortedSet.score_remove_ne _ hk]
    rfl

/-- A claim locked job `i`: the hash is that of the claim, whatever deadline it
shows, and the job has a lease or none. -/
def Locked (q : Queue) (i : String) (j : Job) (token : String) : Prop :=
  ∃ v d, q.sight i = ⟨some (.hash { j.hash i .active with
    lockToken := some token, leaseDeadline := some v }), 0, d, fun _ => none⟩

theorem At.locked {j : Job} {token : String} {d : Score} (h : At q i (.active j token d)) :
    Locked q i j token := ⟨_, some d, h⟩

namespace Locked

variable {j : Job} {token : String}

theorem key (h : Locked q i j token) : ∃ v, q.jobs i = some (.hash { j.hash i .active with
    lockToken := some token, leaseDeadline := some v }) := by
  obtain ⟨v, d, hs⟩ := h
  exact ⟨v, congrArg Sight.key hs⟩

/-- ZREM takes a locked job, from the active set when it is there. -/
theorem held (h : Locked q i j token) :
    ∃ v b q', Redis.zremActive i q = .ok b q' ∧ Held i { j.hash i .active with
      lockToken := some token, leaseDeadline := some v } q q' := by
  obtain ⟨v, d, hs⟩ := h
  refine ⟨v, (q.active.score i).isSome, q.setActive (q.active.remove i), rfl, ?_, ?_⟩
  · rw [Queue.sight_setActive, hs, SortedSet.score_remove_self]
    rfl
  · intro k hk
    rw [Queue.sight_setActive, SortedSet.score_remove_ne _ hk]
    rfl

/-- The token check of the four lease scripts lets the holder of the lock through. -/
theorem holder {α : Type} (h : Locked q i j token) (missing stale : α) (rest : QueueScript α) :
    (do
      let found ← Redis.keyExists i
      if found = false then pure missing
      else do
        let stored ← Redis.hget i JobHash.lockToken
        if stored ≠ some token then pure stale else rest) q = rest q := by
  obtain ⟨v, hk⟩ := h.key
  simp [Redis.keyExists, Redis.hget, hk]

end Locked

/-- RPOP takes a waiting job. -/
theorem rpop_held {j : Job} (h : At q i (.waiting j)) (hlast : q.waiting.getLast? = some i) :
    ∃ h' q', (Place.waiting j).hash i = some h' ∧ Redis.rpop q = .ok (some i) q' ∧
      Held i h' q q' := by
  have hsplit : q.waiting = q.waiting.dropLast ++ [i] := by
    obtain ⟨l, hl⟩ := List.getLast?_eq_some_iff.mp hlast
    simp [hl]
  refine ⟨_, q.setWaiting q.waiting.dropLast, rfl, ?_, ?_, ?_⟩
  · simp only [Redis.rpop, hlast]
  · have hw := h.waits
    rw [hsplit, List.count_append, List.count_singleton_self] at hw
    have h0 : q.waiting.dropLast.count i = 0 := Nat.succ_injective hw
    rw [Queue.sight_setWaiting, h, h0]
    rfl
  · intro k hk
    have hc : q.waiting.dropLast.count k = q.waiting.count k := by
      conv_rhs => rw [hsplit]
      simp [List.count_append, Ne.symm hk]
    rw [Queue.sight_setWaiting, hc]
    rfl

/-- HSETNX takes a job that is not there. -/
theorem hsetnxId_held (h : At q i .gone) :
    ∃ q', Redis.hsetnxId i q = .ok true q' ∧ Held i { id := some i } q q' := by
  refine ⟨q.setHash i { id := some i }, ?_, ?_, ?_⟩
  · have hk : q.jobs i = none := h.key
    simp only [Redis.hsetnxId, hk]
  · rw [Queue.sight_setHash_self, h]
    rfl
  · intro k hk
    exact Queue.sight_setHash_ne _ _ hk

/-! ## The check of the lock token -/

/-- The token of the claim that a place holds. -/
def Place.token : Place → Option String
  | active _ token _ => some token
  | _ => none

theorem At.keyExists {p : Place} (h : At q i p) :
    Redis.keyExists i q = .ok (p.hash i).isSome q := by
  rw [Redis.keyExists, h.key, Option.isSome_map]

theorem At.hgetToken {p : Place} (h : At q i p) :
    Redis.hget i JobHash.lockToken q = .ok p.token q := by
  have hk := h.key
  cases p <;> simp_all [Redis.hget, Place.hash, Place.token, Job.hash]

/-- The token check lets the holder of a claim through. -/
theorem At.holder {α : Type} {j : Job} {token : String} {d : Score}
    (h : At q i (.active j token d)) (missing stale : α) (rest : QueueScript α) :
    (do
      let found ← Redis.keyExists i
      if found = false then pure missing
      else do
        let stored ← Redis.hget i JobHash.lockToken
        if stored ≠ some token then pure stale else rest) q = rest q :=
  h.locked.holder missing stale rest

/-- The token check refuses everybody else, and nothing changes. -/
theorem At.refused {α : Type} {p : Place} (h : At q i p) {token : String}
    (hp : p.token ≠ some token) (missing stale : α) (rest : QueueScript α) :
    (do
      let found ← Redis.keyExists i
      if found = false then pure missing
      else do
        let stored ← Redis.hget i JobHash.lockToken
        if stored ≠ some token then pure stale else rest) q =
      .ok (if (p.hash i).isSome then stale else missing) q := by
  rw [Script.bind_ok h.keyExists]
  rcases hs : (p.hash i).isSome with _ | _
  · rfl
  · simp [h.hgetToken, hp]

/-! ## complete -/

theorem publishFreed_ok (limited : Bool) (k : String) (q : Queue) :
    ∃ q', publishFreed limited k q = .ok () q' ∧ ∀ i, q'.sight i = q.sight i := by
  by_cases h : limited = true ∧ 0 < q.waiting.length
  · refine ⟨q.publish k, ?_, fun _ => rfl⟩
    simp [publishFreed, Lua.publishFreed, Redis.llen, h, Redis.publish]
  · refine ⟨q, ?_, fun _ => rfl⟩
    simp only [publishFreed, Lua.publishFreed, Script.run_bind, Redis.llen, if_neg h,
      Script.run_pure]

/-- A holder's complete retires its job. -/
theorem complete_retires {a : CompleteArgs} {j : Job} (h : Locked q a.jobId j a.lockToken) :
    ∃ q', complete t a q = .ok .completed q' ∧
      Retires .completed a.retention t.now a.jobId j q q' := by
  obtain ⟨v, b, q1, r1, o1⟩ := h.held
  obtain ⟨q2, r2, o2⟩ := o1.hdelLease (s := .active) rfl
  obtain ⟨q3, r3, hret⟩ := o2.retires .completed a.retention t.now j rfl
  obtain ⟨q4, r4, hs⟩ := publishFreed_ok q3.limit.isSome a.jobId q3
  refine ⟨q4, ?_, hret.of_sight hs⟩
  rw [complete, Lua.complete, Lua.completeWith, h.holder]
  simp only [Script.run_bind, r1, r2, r3, Redis.hgetLimit, r4, Script.run_pure]

/-- A holder completes its job. -/
theorem complete_holder {a : CompleteArgs} {j : Job} {d : Score}
    (h : At q a.jobId (.active j a.lockToken d)) :
    ∃ q', complete t a q = .ok .completed q' ∧
      Moves sha1hex (fun k => if a.jobId = k then [.complete a.lockToken t.now] else []) q q' := by
  obtain ⟨q', hrun, hret⟩ := complete_retires (t := t) h.locked
  exact ⟨q', hrun, hret.moves sha1hex h (.complete j a.lockToken d t.now)⟩

/-! ## fail -/

/-- A holder's fail, up to the check of the retry budget: the script holds the
job with its new failure. -/
theorem Locked.fails {j : Job} {token : String} (h : Locked q i j token)
    (error : String) (now : ℕ) :
    ∃ q', Held i ((j.failed error now).hash i .active) q q' ∧
      ∀ {α : Type} (missing stale : α) (rest : ℤ → Option Numeral → QueueScript α),
        (do
          let found ← Redis.keyExists i
          if found = false then pure missing
          else do
            let stored ← Redis.hget i JobHash.lockToken
            if stored ≠ some token then pure stale
            else do
              let _ ← Redis.zremActive i
              let failures ← Redis.hincrby i JobHash.failures fun v h =>
                { h with failures := some v }
              Redis.hset i fun h =>
                { h with
                  failureKind := some .handler
                  failedReason := some error
                  lastError := some error
                  lastFailedAt := some (.int now) }
              Redis.hdelLease i
              let stored ← Redis.hget i JobHash.maxRetries
              rest failures stored) q =
          rest (j.failures + 1) (some (.ofDouble j.maxRetries)) q' := by
  obtain ⟨v, b, q1, r1, o1⟩ := h.held
  obtain ⟨q2, r2, o2⟩ := o1.hincrby JobHash.failures (n := j.failures)
    (fun v h => { h with failures := some v }) rfl
  obtain ⟨q3, r3, o3⟩ := o2.hset fun h =>
    { h with
      failureKind := some .handler
      failedReason := some error
      lastError := some error
      lastFailedAt := some (.int now) }
  obtain ⟨q4, r4, o4⟩ := o3.hdelLease (s := .active) rfl
  have r5 : Redis.hget i JobHash.maxRetries q4 =
      .ok (some (Numeral.ofDouble j.maxRetries)) q4 := by
    rw [o4.hget]
    rfl
  refine ⟨q4, o4, fun missing stale rest => ?_⟩
  rw [h.holder]
  simp only [Script.run_bind, r1, r2, r3, r4, r5]

/-- The check of the retry budget, as the script computes it. -/
theorem Job.mayRetry_iff (j : Job) (error : String) (now : ℕ) :
    Double.ofInt (j.failures + 1) ≤
      ((some (Numeral.ofDouble j.maxRetries)).bind Numeral.tonumber).getD (.ofNat 0) ↔
        (j.failed error now).MayRetry := by
  simp [Job.MayRetry, Job.failed, Double.ofInt, Double.ofNat]

/-- A holder's fail gives the job back, or retires it. -/
theorem fail_retires {a : FailArgs} {j : Job} (h : Locked q a.jobId j a.lockToken) :
    ((j.failed a.error t.now).MayRetry ∧ ∃ q', fail t a q = .ok .waiting q' ∧
      At q' a.jobId (.waiting (j.failed a.error t.now)) ∧
      ∀ k ≠ a.jobId, q'.sight k = q.sight k) ∨
    (¬ (j.failed a.error t.now).MayRetry ∧ ∃ q', fail t a q = .ok .failed q' ∧
      Retires .failed a.retention t.now a.jobId (j.failed a.error t.now) q q') := by
  obtain ⟨q1, o1, hfail⟩ := h.fails a.error t.now
  have hb := j.mayRetry_iff a.error t.now
  by_cases hm : (j.failed a.error t.now).MayRetry
  · left
    obtain ⟨q2, r2, o2⟩ := o1.hset fun h => { h with status := some .waiting }
    obtain ⟨q3, r3, hat, hne⟩ := o2.lpush (j := j.failed a.error t.now) rfl
    refine ⟨hm, q3.publish a.jobId, ?_, hat, hne⟩
    rw [fail, Lua.fail, Lua.failWith, hfail, if_pos (hb.mpr hm)]
    simp only [Script.run_bind, r2, r3, Redis.publish, Script.run_pure]
  · right
    obtain ⟨q2, r2, hret⟩ := o1.retires .failed a.retention t.now (j.failed a.error t.now) rfl
    obtain ⟨q3, r3, hs⟩ := publishFreed_ok q2.limit.isSome a.jobId q2
    refine ⟨hm, q3, ?_, hret.of_sight hs⟩
    rw [fail, Lua.fail, Lua.failWith, hfail, if_neg (mt hb.mp hm)]
    simp only [Script.run_bind, r2, Redis.hgetLimit, r3, Script.run_pure]

/-- A holder fails its job: the job waits again, or the retry budget is used up. -/
theorem fail_holder {a : FailArgs} {j : Job} {d : Score}
    (h : At q a.jobId (.active j a.lockToken d)) :
    ((j.failed a.error t.now).MayRetry ∧ ∃ q', fail t a q = .ok .waiting q' ∧
      Moves sha1hex (fun k => if a.jobId = k then [.retry a.lockToken a.error t.now] else [])
        q q') ∨
    (¬ (j.failed a.error t.now).MayRetry ∧ ∃ q', fail t a q = .ok .failed q' ∧
      Moves sha1hex (fun k => if a.jobId = k then [.fail a.lockToken a.error t.now] else [])
        q q') := by
  rcases fail_retires (t := t) h.locked with ⟨hm, q', hrun, hat, hne⟩ | ⟨hm, q', hrun, hret⟩
  · exact Or.inl ⟨hm, q', hrun,
      Moves.one h hat (.single (.retry j a.lockToken d a.error t.now hm)) hne⟩
  · exact Or.inr ⟨hm, q', hrun,
      hret.moves sha1hex h (.fail j a.lockToken d a.error t.now hm)⟩

/-! ## requeue-active -/

/-- A holder's requeue puts its job back on the waiting list. -/
theorem requeueActive_waits {a : RequeueActiveArgs} {j : Job}
    (h : Locked q a.jobId j a.lockToken) :
    ∃ q', requeueActive t a q = .ok .waiting q' ∧
      At q' a.jobId (.waiting (j.requeued a.reason t.now)) ∧
      ∀ k ≠ a.jobId, q'.sight k = q.sight k := by
  obtain ⟨v, b, q1, r1, o1⟩ := h.held
  obtain ⟨q2, r2, o2⟩ := o1.hset fun h =>
    { h with
      lastRequeuedAt := some (.int t.now)
      lastRequeueReason := some a.reason
      status := some .waiting }
  obtain ⟨q3, r3, o3⟩ := o2.hdelLease (s := .waiting) rfl
  obtain ⟨q4, r4, hat, hne⟩ := o3.lpush (j := j.requeued a.reason t.now) rfl
  refine ⟨q4.publish a.jobId, ?_, hat, hne⟩
  rw [requeueActive, Lua.requeueActive, h.holder]
  simp only [Script.run_bind, r1, r2, r3, r4, Redis.publish, Script.run_pure]

/-- A holder gives its job back. -/
theorem requeueActive_holder {a : RequeueActiveArgs} {j : Job} {d : Score}
    (h : At q a.jobId (.active j a.lockToken d)) :
    ∃ q', requeueActive t a q = .ok .waiting q' ∧
      Moves sha1hex (fun k => if a.jobId = k then [.requeue a.lockToken a.reason t.now] else [])
        q q' := by
  obtain ⟨q', hrun, hat, hne⟩ := requeueActive_waits (t := t) h.locked
  exact ⟨q', hrun, Moves.one h hat (.single (.requeue j a.lockToken d a.reason t.now)) hne⟩

/-! ## extend-lock -/

/-- A holder's renewal gives its job the new deadline. -/
theorem extendLock_renews {a : ExtendLockArgs} {j : Job} {d d' : Score}
    (h : At q a.jobId (.active j a.lockToken d)) (hd : a.leaseMs.plus t.now = .val d') :
    ∃ q', extendLock t a q = .ok .extended q' ∧ At q' a.jobId (.active j a.lockToken d') ∧
      ∀ k ≠ a.jobId, q'.sight k = q.sight k := by
  let q1 := q.setActive (q.active.add d' a.jobId)
  let x := { j.hash a.jobId .active with
    lockToken := some a.lockToken, leaseDeadline := some (.ofLua (.val d)) }
  have hk : q1.jobs a.jobId = some (.hash x) := h.key
  refine ⟨q1.setHash a.jobId { x with leaseDeadline := some (.ofLua (.val d')) }, ?_, ?_, ?_⟩
  · have hl : (q.active.score a.jobId).isSome = true := by
      rw [h.lease]
      rfl
    have hs : q1.active.score a.jobId = some d' := SortedSet.score_add_self _ _ _
    have r1 : Redis.zaddActiveXX (.val d') a.jobId q = .ok () q1 := by
      simp only [Redis.zaddActiveXX, if_pos hl]
      rfl
    rw [extendLock, Lua.extendLock, h.holder]
    simp only [hd, Script.run_bind, r1, Redis.zscoreActive, hs, Option.isNone_some,
      Bool.false_eq_true, if_false, Redis.hset, hk, Script.run_pure]
  · rw [At, Queue.sight_setHash_self, Queue.sight_setActive, h, SortedSet.score_add_self]
    rfl
  · intro k hk
    rw [Queue.sight_setHash_ne _ _ hk, Queue.sight_setActive, SortedSet.score_add_ne _ _ hk]
    rfl

/-- A holder renews its lease. -/
theorem extendLock_holder {a : ExtendLockArgs} {j : Job} {d d' : Score}
    (h : At q a.jobId (.active j a.lockToken d)) (hd : a.leaseMs.plus t.now = .val d') :
    ∃ q', extendLock t a q = .ok .extended q' ∧
      Moves sha1hex (fun k => if a.jobId = k then [.extend a.lockToken (.val d')] else [])
        q q' := by
  obtain ⟨q', hrun, hat, hne⟩ := extendLock_renews (t := t) h hd
  exact ⟨q', hrun, Moves.one h hat (.single (.extend j a.lockToken d d')) hne⟩

/-! ## enqueue -/

/-- An id that is not there is put on the waiting list. -/
theorem enqueue_waits {a : EnqueueArgs} (h : At q a.jobId .gone) :
    ∃ q', enqueue t a q = .ok (.enqueued a.jobId) q' ∧
      At q' a.jobId (.waiting (.enqueued a t.now)) ∧ ∀ k ≠ a.jobId, q'.sight k = q.sight k := by
  obtain ⟨q1, r1, o1⟩ := hsetnxId_held h
  obtain ⟨q2, r2, o2⟩ := o1.hset fun h =>
    { h with
      queueId := some a.queueId
      payload := some a.payload
      status := some .waiting
      runs := some (.int 0)
      failures := some (.int 0)
      stalls := some (.int 0)
      maxRetries := some (.ofDouble a.maxRetries)
      maxStalls := some (.ofDouble a.maxStalls)
      createdAt := some (.int t.now) }
  obtain ⟨q3, r3, hat, hne⟩ := o2.lpush (j := .enqueued a t.now) rfl
  refine ⟨q3.publish a.jobId, ?_, hat, hne⟩
  simp only [enqueue, Lua.enqueue, Script.run_bind, r1, Bool.true_eq_false, if_false, r2, r3,
    Redis.publish, Script.run_pure]

theorem enqueue_fresh {a : EnqueueArgs} (h : At q a.jobId .gone) :
    ∃ q', enqueue t a q = .ok (.enqueued a.jobId) q' ∧
      Moves sha1hex (fun k => if a.jobId = k then [.enqueue a t.now] else []) q q' := by
  obtain ⟨q', hrun, hat, hne⟩ := enqueue_waits (t := t) h
  exact ⟨q', hrun, Moves.one h hat (.single (.enqueue a t.now)) hne⟩

theorem enqueue_collision {a : EnqueueArgs} {p : Place} (h : At q a.jobId p) (hp : p ≠ .gone) :
    enqueue t a q = .ok (.collision a.jobId) q := by
  have hk := h.key
  have hr : Redis.hsetnxId a.jobId q = .ok false q := by
    cases p <;> simp_all [Redis.hsetnxId, Place.hash, Job.hash]
  simp only [enqueue, Lua.enqueue, Script.run_bind, hr, if_true, Script.run_pure]

/-! ## claim-global-batch -/

/-- The turn of a waiting job, up to its ZADD: the script holds the job, with the
lock in its hash. -/
theorem claimOne_locks (now : ℕ) (d : Double) {j : Job} (h : At q i (.waiting j))
    (hlast : q.waiting.getLast? = some i) :
    ∃ q1 q2, Redis.rpop q = .ok (some i) q1 ∧
      Held i { (j.claimed now).hash i .active with
        lockToken := some (issued sha1hex i now (j.runs + 1))
        leaseDeadline := some (.ofLua d) } q q2 ∧
      claimOne sha1hex now d i q1 = (do
        Redis.zaddActive d i
        let x ← Redis.hgetall i
        pure (ClaimEntry.job x)) q2 := by
  obtain ⟨x, q1, hx, r1, o1⟩ := rpop_held h hlast
  have r2 := o1.keyExists
  obtain ⟨q3, r3, o3⟩ := o1.hincrby JobHash.runs (n := j.runs)
    (fun v h => { h with runs := some v }) (by cases hx; rfl)
  obtain ⟨q4, r4, o4⟩ := o3.hset fun h =>
    { h with
      status := some .active
      lastStartedAt := some (.int now)
      lockToken := some (sha1hex (tokenText i now (j.runs + 1)))
      leaseDeadline := some (.ofLua d) }
  refine ⟨q1, q4, r1, ?_, ?_⟩
  · cases hx
    exact o4
  · simp only [claimOne, Lua.claimOne, Script.run_bind, r2, Bool.true_eq_false, if_false, r3, r4]

/-- The turn of a waiting job makes it active. -/
theorem claimOne_activates (now : ℕ) (d : Score) {j : Job} (h : At q i (.waiting j))
    (hlast : q.waiting.getLast? = some i) :
    ∃ q1 q2 x, Redis.rpop q = .ok (some i) q1 ∧
      claimOne sha1hex now (.val d) i q1 = .ok (.job x) q2 ∧
      (Place.active (j.claimed now) (issued sha1hex i now (j.runs + 1)) d).hash i = some x ∧
      At q2 i (.active (j.claimed now) (issued sha1hex i now (j.runs + 1)) d) ∧
      ∀ k ≠ i, q2.sight k = q.sight k := by
  obtain ⟨q1, q2, r1, o2, hrun⟩ := claimOne_locks sha1hex now (.val d) h hlast
  obtain ⟨q3, r3, hat, hne⟩ := o2.zaddActive (d := d) (j := j.claimed now)
    (issued sha1hex i now (j.runs + 1)) rfl
  obtain ⟨y, r4, hy⟩ : ∃ y, Redis.hgetall i q3 = .ok y q3 ∧
      (Place.active (j.claimed now) (issued sha1hex i now (j.runs + 1)) d).hash i = some y := by
    refine ⟨_, ?_, rfl⟩
    simp only [Redis.hgetall, hat.key, Place.hash, Option.map_some]
  refine ⟨q1, q3, y, r1, ?_, hy, hat, hne⟩
  simp only [hrun, Script.run_bind, r3, r4, Script.run_pure]

theorem claimOne_waiting (now : ℕ) (d : Score) {j : Job} (h : At q i (.waiting j))
    (hlast : q.waiting.getLast? = some i) :
    ∃ q1 q2 x, Redis.rpop q = .ok (some i) q1 ∧
      claimOne sha1hex now (.val d) i q1 = .ok (.job x) q2 ∧
      (Place.active (j.claimed now) (issued sha1hex i now (j.runs + 1)) d).hash i = some x ∧
      Moves sha1hex
        (fun k => if i = k then [.claim (issued sha1hex i now (j.runs + 1)) now (.val d)] else [])
        q q2 := by
  obtain ⟨q1, q2, x, r1, r2, hx, hat, hne⟩ := claimOne_activates sha1hex now d h hlast
  exact ⟨q1, q2, x, r1, r2, hx, Moves.one h hat (.single (.claim j now d)) hne⟩

/-- An entry of a claim reply shows a job with the lease that it got. -/
def ClaimEntry.Leased (d : Score) (e : ClaimEntry) : Prop :=
  ∃ i j token x, e = .job x ∧ (Place.active j token d).hash i = some x

theorem Sound.waiting_last (hq : Sound q) (hlast : q.waiting.getLast? = some i) :
    ∃ j, At q i (.waiting j) := by
  obtain ⟨p, hp⟩ := hq i
  have hpos : 0 < q.waiting.count i := List.count_pos_iff.mpr (List.mem_of_getLast? hlast)
  rw [hp.waits] at hpos
  cases p with
  | waiting j => exact ⟨j, hp⟩
  | _ => simp [Place.sight] at hpos

variable {sha1hex} in
/-- The claim loop on a queue where nothing waits. -/
theorem claimLoop_empty {now n : ℕ} {d : Double} (h : q.waiting.getLast? = none) :
    claimLoop sha1hex now d (n + 1) q = .ok [] q := by
  simp only [claimLoop, Lua.claimEach, Script.run_bind, Redis.rpop, h, Script.run_pure]

variable {sha1hex} in
/-- The claim loop takes the right end of the waiting list first. -/
theorem claimLoop_pop {now n : ℕ} {d : Double} (h : q.waiting.getLast? = some i) :
    claimLoop sha1hex now d (n + 1) q =
      (do
        let entry ← claimOne sha1hex now d i
        let claimed ← claimLoop sha1hex now d n
        pure (entry :: claimed)) (q.setWaiting q.waiting.dropLast) := by
  have hpop : Redis.rpop q = .ok (some i) (q.setWaiting q.waiting.dropLast) := by
    rw [Redis.rpop, h]
  rw [claimLoop, Lua.claimEach, Script.bind_ok hpop]

theorem claimLoop_moves {leaseMs : Double} {d : Score} (hd : leaseMs.plus t.now = .val d) (n : ℕ)
    (hq : Sound q) :
    ∃ es q', claimLoop sha1hex t.now (.val d) n q = .ok es q' ∧ es.length ≤ n ∧
      (∀ e ∈ es, e.Leased d) ∧
      Moves sha1hex (fun i => es.flatMap (·.acts i t leaseMs)) q q' := by
  induction n generalizing q with
  | zero => exact ⟨[], q, rfl, Nat.le_refl 0, by simp, Moves.refl q⟩
  | succ n ih =>
    rcases hlast : q.waiting.getLast? with _ | i
    · exact ⟨[], q, claimLoop_empty hlast, Nat.zero_le _, by simp, Moves.refl q⟩
    · obtain ⟨j, hj⟩ := hq.waiting_last hlast
      obtain ⟨q1, q2, x, r1, r2, hx, m⟩ :=
        claimOne_waiting sha1hex t.now d hj hlast
      obtain ⟨es, q3, r3, hlen, hes, m3⟩ := ih (m.sound hq)
      refine ⟨.job x :: es, q3, ?_, Nat.succ_le_succ hlen, ?_, (m.trans m3).congr fun k => ?_⟩
      · simp only [claimLoop, Lua.claimEach, Script.run_bind, r1, r2, r3, Script.run_pure]
      · intro e he
        rcases List.mem_cons.mp he with rfl | he
        · exact ⟨i, _, _, x, rfl, hx⟩
        · exact hes e he
      · cases hx
        simp [ClaimEntry.acts, Job.hash, hd]

/-! ## recover -/

/-- An entry of a recover reply shows a job that waits or failed. -/
def RecoverEntry.Shows (now : ℕ) (e : RecoverEntry) : Prop :=
  ∃ i j x, (e = .job .waiting x ∧ (Place.waiting j).hash i = some x) ∨
    (e = .job .failed x ∧ (Place.finished .failed j now).hash i = some x)

instance (j : Job) : Decidable j.MayStall := inferInstanceAs (Decidable (_ ≤ _))

/-- The place that a sweep gives an active job. -/
def Job.sweptTo (j : Job) (reason : String) (now : ℕ) : Place :=
  if (j.stalled reason now).MayStall then .waiting (j.stalled reason now)
  else .finished .failed (j.stalled reason now) now

/-- The entry that a sweep makes of an active job. -/
def Job.sweepEntry (i : String) (j : Job) (reason : String) (now : ℕ) : RecoverEntry :=
  if (j.stalled reason now).MayStall then .job .waiting ((j.stalled reason now).hash i .waiting)
  else .job .failed
    { (j.stalled reason now).hash i .failed with finishedAt := some (.int now) }

theorem Job.sweepEntry_shows (i : String) (j : Job) (reason : String) (now : ℕ) :
    (j.sweepEntry i reason now).Shows now := by
  unfold sweepEntry
  split
  · exact ⟨i, _, _, Or.inl ⟨rfl, rfl⟩⟩
  · exact ⟨i, _, _, Or.inr ⟨rfl, rfl⟩⟩

/-- A sweep gives an expired job back, or retires it. -/
theorem recoverRemoved_retires (a : RecoverArgs) (limited : Bool) {j : Job} {token : String}
    {d : Score} {x : JobHash} (hx : (Place.active j token d).hash i = some x) (ho : Held i x q q') :
    ∃ q'', recoverRemoved t a limited i q' = .ok (j.sweepEntry i a.reason t.now) q'' ∧
      (((j.stalled a.reason t.now).MayStall ∧ At q'' i (.waiting (j.stalled a.reason t.now)) ∧
        ∀ k ≠ i, q''.sight k = q.sight k) ∨
      (¬ (j.stalled a.reason t.now).MayStall ∧
        Retires .failed a.retention t.now i (j.stalled a.reason t.now) q q'')) := by
  unfold Job.sweepEntry
  have r1 := ho.keyExists
  obtain ⟨q2, r2, o2⟩ := ho.hincrby JobHash.stalls (n := j.stalls)
    (fun v h => { h with stalls := some v }) (by cases hx; rfl)
  obtain ⟨q3, r3, o3⟩ := o2.hset fun h =>
    { h with
      failureKind := some .stalled
      failedReason := some a.reason
      lastStalledAt := some (.int t.now) }
  obtain ⟨q4, r4, o4⟩ := o3.hdelLease (s := .active) (by cases hx; rfl)
  have r5 : Redis.hget i JobHash.maxStalls q4 = .ok (some (Numeral.ofDouble j.maxStalls)) q4 := by
    rw [o4.hget]
    cases hx
    rfl
  have hb : Double.ofInt (j.stalls + 1) ≤
      ((some (Numeral.ofDouble j.maxStalls)).bind Numeral.tonumber).getD (.ofNat 5) ↔
        (j.stalled a.reason t.now).MayStall := by
    simp [Job.MayStall, Job.stalled, Double.ofInt, Double.ofNat]
  by_cases hm : (j.stalled a.reason t.now).MayStall
  · obtain ⟨q6, r6, o6⟩ := o4.hset fun h => { h with status := some .waiting }
    obtain ⟨q7, r7, hat, hne⟩ := o6.lpush (j := j.stalled a.reason t.now) (by cases hx; rfl)
    obtain ⟨y, hy⟩ : ∃ y, (Place.waiting (j.stalled a.reason t.now)).hash i = some y := ⟨_, rfl⟩
    have r8 : Redis.hgetall i (q7.publish i) = .ok y (q7.publish i) := by
      simp only [Redis.hgetall, Queue.publish_jobs, hat.key, hy, Option.map_some]
    cases hy
    rw [if_pos hm]
    refine ⟨q7.publish i, ?_, Or.inl ⟨hm, hat, hne⟩⟩
    · simp only [recoverRemoved, Lua.recoverRemoved, Lua.recoverRemovedWith, Script.run_bind, r1,
        Bool.true_eq_false, if_false, r2, r3, r4, r5]
      rw [if_pos (hb.mpr hm)]
      simp only [Script.run_bind, r6, r7, Redis.publish, r8, Script.run_pure]
  · obtain ⟨q6, r6, o6⟩ := o4.hset fun h =>
      { h with status := some .failed, finishedAt := some (.int t.now) }
    obtain ⟨y, r7, hy⟩ : ∃ y, Redis.hgetall i q6 = .ok y q6 ∧
        (Place.finished .failed (j.stalled a.reason t.now) t.now).hash i = some y :=
      ⟨_, o6.hgetall, by cases hx; rfl⟩
    obtain ⟨q8, r8, hret⟩ := o6.retires .failed a.retention t.now (j.stalled a.reason t.now)
      (by cases hx; rfl)
    obtain ⟨q9, r9, hs⟩ := publishFreed_ok limited i q8
    cases hy
    rw [if_neg hm]
    refine ⟨q9, ?_, Or.inr ⟨hm, hret.of_sight hs⟩⟩
    · simp only [recoverRemoved, Lua.recoverRemoved, Lua.recoverRemovedWith, Script.run_bind, r1,
        Bool.true_eq_false, if_false, r2, r3, r4, r5]
      rw [if_neg (mt hb.mp hm)]
      simp only [Script.run_bind, r6, r7, r8, r9, Script.run_pure, FinalStatus.status]

theorem recoverRemoved_held (a : RecoverArgs) (limited : Bool) {j : Job} {token : String}
    {d : Score} {x : JobHash} (h : At q i (.active j token d)) (hd : d ≤ Score.ofNat t.now)
    (hx : (Place.active j token d).hash i = some x) (ho : Held i x q q') :
    ∃ q'', recoverRemoved t a limited i q' = .ok (j.sweepEntry i a.reason t.now) q'' ∧
      Moves sha1hex (fun k => (j.sweepEntry i a.reason t.now).acts k t a.reason) q q'' := by
  obtain ⟨q'', hrun, hcase⟩ := recoverRemoved_retires (t := t) a limited hx ho
  refine ⟨q'', hrun, ?_⟩
  unfold Job.sweepEntry
  rcases hcase with ⟨hm, hat, hne⟩ | ⟨hm, hret⟩
  · rw [if_pos hm]
    refine (Moves.one h hat
      (.single (.stall j token d a.reason t.now hd hm)) hne).congr fun k => ?_
    simp [RecoverEntry.acts, Job.hash]
  · rw [if_neg hm]
    refine (hret.moves sha1hex h (.stallOut j token d a.reason t.now hd hm)).congr fun k => ?_
    simp [RecoverEntry.acts, Job.hash]

/-- The candidate is in the active set, with a lease that ran out. -/
def Queue.Due (q : Queue) (now : ℕ) (i : String) : Prop :=
  (q.active.score i).any (fun s => decide (s ≤ Score.ofNat now)) = true

instance (q : Queue) (now : ℕ) (i : String) : Decidable (q.Due now i) :=
  inferInstanceAs (Decidable (_ = true))

theorem recoverOneOf_not_due (w : Counters) {a : RecoverArgs} {limited : Bool}
    (h : ¬ q.Due t.now i) :
    Lua.recoverOne (Redis.commandsOf w) t a limited i q = .ok [] q := by
  unfold Queue.Due at h
  simp only [Lua.recoverOne, Lua.recoverTaken, Script.run_bind, Redis.zscoreActive]
  rw [if_neg h]
  rfl

theorem recoverOneOf_due (w : Counters) {a : RecoverArgs} {limited : Bool}
    (h : q.Due t.now i) :
    Lua.recoverOne (Redis.commandsOf w) t a limited i q = (do
      let entry ← Lua.recoverRemoved (Redis.commandsOf w) t a limited i
      pure [entry]) (q.setActive (q.active.remove i)) := by
  have hrem : Redis.zremActive i q = .ok true (q.setActive (q.active.remove i)) := by
    unfold Queue.Due at h
    rcases hs : q.active.score i with _ | s
    · simp [hs] at h
    · simp only [Redis.zremActive, hs, Option.isSome_some]
  unfold Queue.Due at h
  simp only [Lua.recoverOne, Lua.recoverTaken, Script.run_bind, Redis.zscoreActive]
  rw [if_pos h]
  simp only [Script.run_bind, hrem, if_true]

theorem recoverOne_not_due {a : RecoverArgs} {limited : Bool} (h : ¬ q.Due t.now i) :
    recoverOne t a limited i q = .ok [] q := recoverOneOf_not_due .unbounded h

theorem recoverOne_due {a : RecoverArgs} {limited : Bool} (h : q.Due t.now i) :
    recoverOne t a limited i q = (do
      let entry ← recoverRemoved t a limited i
      pure [entry]) (q.setActive (q.active.remove i)) := recoverOneOf_due .unbounded h

/-- The turn of a job whose lease ran out takes the job and recovers it. -/
theorem recoverOne_taken {a : RecoverArgs} {limited : Bool} {j : Job} {token : String} {d : Score}
    {e : RecoverEntry} {q1 q2 : Queue} (h : At q i (.active j token d)) (hd : d ≤ Score.ofNat t.now)
    (r1 : Redis.zremActive i q = .ok true q1) (r2 : recoverRemoved t a limited i q1 = .ok e q2) :
    recoverOne t a limited i q = .ok [e] q2 := by
  have hdue : q.Due t.now i := by
    unfold Queue.Due
    rw [h.lease]
    simpa [Place.sight] using hd
  obtain ⟨-, rfl⟩ := EStateM.Result.ok.inj r1
  rw [recoverOne_due hdue]
  rw [Script.bind_ok r2]
  rfl

theorem recoverOne_moves (a : RecoverArgs) (limited : Bool) (i : String) (hq : Sound q) :
    ∃ es q', recoverOne t a limited i q = .ok es q' ∧ (∀ e ∈ es, e.Shows t.now) ∧
      Moves sha1hex (fun k => es.flatMap (·.acts k t a.reason)) q q' := by
  obtain ⟨p, hp⟩ := hq i
  by_cases hs : q.Due t.now i
  · have hl := hp.lease
    cases p with
    | active j token d =>
      have hd : d ≤ Score.ofNat t.now := by simpa [Queue.Due, hl, Place.sight] using hs
      obtain ⟨x, q1, hx, r1, o1⟩ := zremActive_held hp
      obtain ⟨q2, r2, m⟩ := recoverRemoved_held sha1hex a limited hp hd hx o1
      refine ⟨[j.sweepEntry i a.reason t.now], q2, recoverOne_taken hp hd r1 r2, ?_,
        m.congr fun k => by simp⟩
      simpa using j.sweepEntry_shows i a.reason t.now
    | _ =>
      simp [Queue.Due, hl, Place.sight] at hs
  · exact ⟨[], q, recoverOne_not_due hs, by simp, Moves.refl q⟩

theorem recoverLoop_moves (a : RecoverArgs) (limited : Bool) (ids : List String) (hq : Sound q) :
    ∃ es q', recoverLoop t a limited ids q = .ok es q' ∧ (∀ e ∈ es, e.Shows t.now) ∧
      Moves sha1hex (fun k => es.flatMap (·.acts k t a.reason)) q q' := by
  induction ids generalizing q with
  | nil => exact ⟨[], q, rfl, by simp, Moves.refl q⟩
  | cons i ids ih =>
    obtain ⟨es, q1, r1, he, m1⟩ := recoverOne_moves sha1hex (t := t) a limited i hq
    obtain ⟨fs, q2, r2, hf, m2⟩ := ih (m1.sound hq)
    refine ⟨es ++ fs, q2, ?_, ?_, (m1.trans m2).congr fun k => by simp⟩
    · simp only [recoverLoop, Lua.recoverEach, Script.run_bind, r1, r2, Script.run_pure]
    · intro e hmem
      rcases List.mem_append.mp hmem with h | h
      · exact he e h
      · exact hf e h

/-- The candidates of a sweep. -/
def Queue.candidates (q : Queue) (t : RedisTime) (a : RecoverArgs) : List String :=
  let ids := q.active.rangeByScore (Score.ofNat 0) (Score.ofNat t.now)
  if a.batchSize < 0 then ids else ids.take a.batchSize.toNat

theorem recover_run (t : RedisTime) (a : RecoverArgs) (q : Queue) :
    recover t a q = recoverLoop t a q.limit.isSome (q.candidates t a) q := by
  simp only [recover, Lua.recover, Lua.recoverBatch, Script.run_bind, Redis.hgetLimit,
    Redis.zrangebyscoreActive]
  rfl

/-! ## Every call -/

/-- The lease that the call asks for, if it asks for one, is a number. -/
def Call.LeaseIsNumber : Call → Prop
  | .claimGlobalBatch a => a.leaseMs ≠ .nan
  | .extendLock a => a.leaseMs ≠ .nan
  | _ => True

instance : DecidablePred Call.LeaseIsNumber
  | .claimGlobalBatch a => inferInstanceAs (Decidable (a.leaseMs ≠ .nan))
  | .extendLock a => inferInstanceAs (Decidable (a.leaseMs ≠ .nan))
  | .enqueue _ | .complete _ | .fail _ | .recover _ | .requeueActive _
  | .declareConcurrencyLimit _ => inferInstanceAs (Decidable True)

theorem Call.deadline {leaseMs : Double} (h : leaseMs ≠ .nan) (now : ℕ) :
    ∃ d, leaseMs.plus now = .val d := by
  cases leaseMs with
  | nan => exact absurd rfl h
  | val x => exact ⟨_, rfl⟩

theorem Place.holder_or (p : Place) (token : String) :
    (∃ j d, p = .active j token d) ∨ p.token ≠ some token := by
  cases p with
  | active j token' d =>
    by_cases h : token' = token
    · exact Or.inl ⟨j, d, by rw [h]⟩
    · exact Or.inr fun he => h (Option.some.inj he)
  | _ => exact Or.inr (by simp [Place.token])

/-- A claim or a recover met no pointer without a hash, and a claim returned no
more jobs than it asked for. -/
def Reply.Orderly (op : Call × RedisTime) (r : Reply) : Prop :=
  match op with
  | (.claimGlobalBatch a, t) => ∃ es d, r = .claimGlobalBatch es ∧
      a.leaseMs.plus t.now = .val d ∧ es.length ≤ a.count ∧ ∀ e ∈ es, e.Leased d
  | (.recover _, t) => ∃ es, r = .recover es ∧ ∀ e ∈ es, e.Shows t.now
  | _ => True

theorem claimCount_le (limit : Option Double) (active count : ℕ) :
    claimCount limit active count ≤ count := by
  cases limit with
  | none => exact Nat.le_refl count
  | some limit =>
    simp only [claimCount]
    split
    · exact Nat.zero_le count
    · split
      · rename_i h
        exact Double.rounds_le h
      · exact Nat.le_refl count

theorem claimGlobalBatch_moves {a : ClaimGlobalBatchArgs} {d : Score}
    (hd : a.leaseMs.plus t.now = .val d) (hq : Sound q) :
    ∃ es q', claimGlobalBatch sha1hex t a q = .ok es q' ∧ es.length ≤ a.count ∧
      (∀ e ∈ es, e.Leased d) ∧ Moves sha1hex (fun i => es.flatMap (·.acts i t a.leaseMs)) q q' := by
  obtain ⟨es, q', hrun, hlen, hes, hm⟩ := claimLoop_moves sha1hex hd
    (claimCount q.limit q.active.card a.count) hq
  refine ⟨es, q', ?_, Nat.le_trans hlen (claimCount_le _ _ _), hes, hm⟩
  simp only [Lua.claimGlobalBatch, Lua.claimBatch, Script.run_bind, Redis.hgetLimit,
    Redis.zcardActive, hd, hrun]

theorem recover_moves (a : RecoverArgs) (hq : Sound q) :
    ∃ es q', recover t a q = .ok es q' ∧ (∀ e ∈ es, e.Shows t.now) ∧
      Moves sha1hex (fun k => es.flatMap (·.acts k t a.reason)) q q' := by
  rw [recover_run]
  exact recoverLoop_moves sha1hex a q.limit.isSome (q.candidates t a) hq

/-- The declaration is newer than what is stored. -/
def DeclareConcurrencyLimitArgs.Newer (a : DeclareConcurrencyLimitArgs) (q : Queue) : Prop :=
  ∀ v ∈ q.concurrency.version, ∃ stored, v.tonumber = some stored ∧ stored < a.version

def DeclareConcurrencyLimitArgs.declared (a : DeclareConcurrencyLimitArgs) : Concurrency :=
  { limit := some (.ofDouble a.limit), version := some (.ofDouble a.version) }

theorem declare_newer {a : DeclareConcurrencyLimitArgs} (h : a.Newer q) :
    declareConcurrencyLimit a q =
      .ok (.written, some a.limit) { q with concurrency := a.declared } := by
  simp only [declareConcurrencyLimit, Lua.declareConcurrencyLimit, Script.run_bind,
    Redis.hmgetConcurrency]
  rcases hv : q.concurrency.version with _ | v
  · rfl
  · obtain ⟨stored, hs, hlt⟩ := h v hv
    simp only [hs, if_pos hlt]
    rfl

theorem declare_not_newer {a : DeclareConcurrencyLimitArgs} (h : ¬ a.Newer q) :
    declareConcurrencyLimit a q = .error .luaError q ∨
      ∃ r, r.1 ≠ .written ∧ declareConcurrencyLimit a q = .ok r q := by
  simp only [declareConcurrencyLimit, Lua.declareConcurrencyLimit, Script.run_bind,
    Redis.hmgetConcurrency]
  rcases hv : q.concurrency.version with _ | v
  · exact absurd (fun _ hv' => by simp [hv] at hv') h
  · rcases hs : v.tonumber with _ | stored
    · left
      simp only [hs]
      rfl
    · right
      have hlt : ¬ stored < a.version := fun hlt => h fun v' hv' => by
        rw [hv] at hv'
        cases hv'
        exact ⟨stored, hs, hlt⟩
      simp only [hs, if_neg hlt, Script.run_ite]
      split_ifs
      · exact ⟨_, by simp, rfl⟩
      · exact ⟨_, by simp, rfl⟩
      · exact ⟨_, by simp, rfl⟩

theorem declareConcurrencyLimit_moves (a : DeclareConcurrencyLimitArgs) (q : Queue) :
    Moves sha1hex (fun _ => []) q
      (runScript (declareConcurrencyLimit a) Reply.declareConcurrencyLimit q).2 := by
  refine Moves.of_sight fun i => ?_
  by_cases h : a.Newer q
  · simp only [runScript, declare_newer h]
    rfl
  · rcases declare_not_newer h with hr | ⟨r, _, hr⟩
    · simp only [runScript, hr]
    · simp only [runScript, hr]

/-- One call moves each job as its reply tells. -/
theorem exec_moves (op : Call × RedisTime) (hl : op.1.LeaseIsNumber) (hq : Sound q) :
    Moves sha1hex (fun i => actsOf i (op, (exec sha1hex op q).1)) q (exec sha1hex op q).2 ∧
      (exec sha1hex op q).1.Orderly op := by
  obtain ⟨call, t⟩ := op
  cases call with
  | enqueue a =>
    obtain ⟨p, hp⟩ := hq a.jobId
    by_cases hg : p = .gone
    · subst hg
      obtain ⟨q', hrun, hm⟩ := enqueue_fresh sha1hex (t := t) hp
      simp only [exec, Lua.exec, runScript, hrun, actsOf]
      exact ⟨hm, trivial⟩
    · simp only [exec, Lua.exec, runScript, enqueue_collision hp hg, actsOf]
      exact ⟨Moves.refl q, trivial⟩
  | claimGlobalBatch a =>
    obtain ⟨d, hd⟩ := Call.deadline hl t.now
    obtain ⟨es, q', hrun, hlen, hes, hm⟩ := claimGlobalBatch_moves sha1hex hd hq
    simp only [exec, Lua.exec, runScript, hrun, actsOf]
    exact ⟨hm, es, d, rfl, hd, hlen, hes⟩
  | complete a =>
    obtain ⟨p, hp⟩ := hq a.jobId
    refine ⟨?_, trivial⟩
    rcases p.holder_or a.lockToken with ⟨j, d, rfl⟩ | hne
    · obtain ⟨q', hrun, hm⟩ := complete_holder sha1hex (t := t) hp
      simpa only [exec, Lua.exec, runScript, hrun, actsOf] using hm
    · simp only [exec, Lua.exec, runScript, Lua.complete, Lua.completeWith, hp.refused hne]
      split <;> exact Moves.refl q
  | fail a =>
    obtain ⟨p, hp⟩ := hq a.jobId
    refine ⟨?_, trivial⟩
    rcases p.holder_or a.lockToken with ⟨j, d, rfl⟩ | hne
    · rcases fail_holder sha1hex (t := t) hp with ⟨_, q', hrun, hm⟩ | ⟨_, q', hrun, hm⟩
      · simpa only [exec, Lua.exec, runScript, hrun, actsOf] using hm
      · simpa only [exec, Lua.exec, runScript, hrun, actsOf] using hm
    · simp only [exec, Lua.exec, runScript, Lua.fail, Lua.failWith, hp.refused hne]
      split <;> exact Moves.refl q
  | recover a =>
    obtain ⟨es, q', hrun, hes, hm⟩ := recover_moves sha1hex (t := t) a hq
    simp only [exec, Lua.exec, runScript, hrun, actsOf]
    exact ⟨hm, es, rfl, hes⟩
  | extendLock a =>
    obtain ⟨d', hd'⟩ := Call.deadline hl t.now
    obtain ⟨p, hp⟩ := hq a.jobId
    refine ⟨?_, trivial⟩
    rcases p.holder_or a.lockToken with ⟨j, d, rfl⟩ | hne
    · obtain ⟨q', hrun, hm⟩ := extendLock_holder sha1hex (t := t) hp hd'
      simpa only [exec, Lua.exec, runScript, hrun, actsOf, hd'] using hm
    · simp only [exec, Lua.exec, runScript, Lua.extendLock, hp.refused hne]
      split <;> exact Moves.refl q
  | requeueActive a =>
    obtain ⟨p, hp⟩ := hq a.jobId
    refine ⟨?_, trivial⟩
    rcases p.holder_or a.lockToken with ⟨j, d, rfl⟩ | hne
    · obtain ⟨q', hrun, hm⟩ := requeueActive_holder sha1hex (t := t) hp
      simpa only [exec, Lua.exec, runScript, hrun, actsOf] using hm
    · simp only [exec, Lua.exec, runScript, Lua.requeueActive, hp.refused hne]
      split <;> exact Moves.refl q
  | declareConcurrencyLimit a =>
    refine ⟨(declareConcurrencyLimit_moves sha1hex a q).congr fun i => ?_, trivial⟩
    simp only [exec, Lua.exec, runScript]
    split <;> rfl

end Panqueue
