-- Every reachable queue, whatever leases the claims asked for. A claim with a
-- lease of NaN breaks off after it popped a job, and that job is lost: it is in
-- no collection, and its hash has the lock of the claim.
import Panqueue.Pointers

namespace Panqueue

variable {q q' : Queue} {t : RedisTime} {i k : String} (sha1hex : String → String)

/-! ## Tidy queues -/

/-- A claim broke off on job `i`: ZADD refused the deadline that its hash shows. -/
def Lost (q : Queue) (i : String) : Prop :=
  ∃ (j : Job) (token : String), q.sight i = Sight.loose { j.hash i .active with
    lockToken := some token, leaseDeadline := some (.ofLua .nan) }

/-- Each job stands at one place, or it is lost. -/
def Tidy (q : Queue) : Prop := ∀ i, (∃ p, At q i p) ∨ Lost q i

theorem Sound.tidy (hq : Sound q) : Tidy q := fun i => Or.inl (hq i)

theorem Lost.locked (h : Lost q i) : ∃ j token, Locked q i j token := by
  obtain ⟨j, token, hs⟩ := h
  exact ⟨j, token, _, none, hs⟩

theorem Lost.of_sight (h : Lost q i) (hs : q'.sight i = q.sight i) : Lost q' i := by
  obtain ⟨j, token, hi⟩ := h
  exact ⟨j, token, hs.trans hi⟩

namespace Tidy

theorem of_sight (hq : Tidy q) (h : ∀ i, q'.sight i = q.sight i) : Tidy q' := fun i =>
  (hq i).imp (fun ⟨p, hp⟩ => ⟨p, hp.of_sight (h i)⟩) fun hl => hl.of_sight (h i)

/-- One job comes to a place, and the others stay. -/
theorem one {p : Place} (hq : Tidy q) (hp : At q' i p) (hne : ∀ k ≠ i, q'.sight k = q.sight k) :
    Tidy q' := by
  intro k
  by_cases hk : k = i
  · subst hk
    exact Or.inl ⟨p, hp⟩
  · exact (hq k).imp (fun ⟨r, hr⟩ => ⟨r, hr.of_sight (hne k hk)⟩) fun hl => hl.of_sight (hne k hk)

/-! ### The jobs of the collections are not lost -/

theorem at_waiting (hq : Tidy q) (h : i ∈ q.waiting) : ∃ j, At q i (.waiting j) := by
  have hpos : 0 < (q.sight i).waits := List.count_pos_iff.mpr h
  rcases hq i with ⟨p, hp⟩ | ⟨j, token, hs⟩
  · rw [hp] at hpos
    cases p with
    | waiting j => exact ⟨j, hp⟩
    | _ => exact absurd hpos (Nat.lt_irrefl 0)
  · rw [hs] at hpos
    exact absurd hpos (Nat.lt_irrefl 0)

theorem at_active {d : Score} (hq : Tidy q) (h : q.active.score i = some d) :
    ∃ j token, At q i (.active j token d) := by
  have hl : (q.sight i).lease = some d := h
  rcases hq i with ⟨p, hp⟩ | ⟨j, token, hs⟩
  · rw [hp] at hl
    cases p with
    | active j token d' =>
      cases hl
      exact ⟨j, token, hp⟩
    | _ => cases hl
  · rw [hs] at hl
    cases hl

theorem at_index {s : FinalStatus} {d : Score} (hq : Tidy q) (h : (q.index s).score i = some d) :
    ∃ j n, At q i (.finished s j n) ∧ d = Score.ofNat n := by
  have hf : (q.sight i).finishedAt s = some d := h
  rcases hq i with ⟨p, hp⟩ | ⟨j, token, hs⟩
  · rw [hp] at hf
    cases p with
    | finished s' j n =>
      by_cases hs : s = s'
      · subst hs
        simp only [Place.sight, Function.update_self, Option.some.injEq] at hf
        exact ⟨j, n, hp, hf.symm⟩
      · simp [Place.sight, hs] at hf
    | _ => cases hf
  · rw [hs] at hf
    cases hf

end Tidy

/-! ## What the scripts keep -/

/-- A job that a script retires, and the others: those that have not finished stay. -/
theorem Retires.stays {s : FinalStatus} {r : ResolvedRetention} {now : ℕ} {j : Job}
    (h : Retires s r now i j q q') (hk : k ≠ i) (hfin : (q.sight k).finishedAt s = none) :
    q'.sight k = q.sight k := by
  obtain ⟨x, q1, q2, hheld, -, hrun, hsame⟩ := h
  have h1 := hheld.others k hk
  rw [hsame k, retentionLua_sight hheld.key hrun hk (by rw [h1, hfin]), h1]

theorem Retires.tidy {s : FinalStatus} {r : ResolvedRetention} {now : ℕ} {j : Job}
    (h : Retires s r now i j q q') (hq : Tidy q) : Tidy q' := by
  intro k
  by_cases hl : k ≠ i ∧ Lost q k
  · obtain ⟨hk, hl⟩ := hl
    refine Or.inr (hl.of_sight (h.stays hk ?_))
    obtain ⟨j, token, hs⟩ := hl
    rw [hs]
    rfl
  · left
    by_cases hk : k = i
    · subst hk
      obtain ⟨p, hp, -⟩ := (h.retired id).here
      exact ⟨p, hp⟩
    · obtain ⟨p, hp⟩ := (hq k).resolve_right fun hlost => hl ⟨hk, hlost⟩
      obtain ⟨p', hp', -⟩ := (h.retired id).others k hk p hp
      exact ⟨p', hp'⟩

/-- The token check lets a call to a locked job through, and ends every other one. -/
theorem Tidy.guard (hq : Tidy q) (i token : String) :
    (∃ j, Locked q i j token) ∨ ∀ {α : Type} (missing stale : α) (rest : QueueScript α),
      ∃ r, (do
        let found ← Redis.keyExists i
        if found = false then pure missing
        else do
          let stored ← Redis.hget i JobHash.lockToken
          if stored ≠ some token then pure stale else rest) q = .ok r q := by
  rcases hq i with ⟨p, hp⟩ | hl
  · rcases p.holder_or token with ⟨j, d, rfl⟩ | hne
    · exact Or.inl ⟨j, hp.locked⟩
    · exact Or.inr fun missing stale rest => ⟨_, hp.refused hne missing stale rest⟩
  · obtain ⟨j, token', hlock⟩ := hl.locked
    by_cases ht : token' = token
    · exact Or.inl ⟨j, ht ▸ hlock⟩
    · obtain ⟨v, hk⟩ := hlock.key
      refine Or.inr fun missing stale rest => ⟨stale, ?_⟩
      simp [Redis.keyExists, Redis.hget, hk, ht]

/-! ### claim-global-batch -/

theorem Tidy.waiting_last (hq : Tidy q) (hlast : q.waiting.getLast? = some i) :
    ∃ j, At q i (.waiting j) := hq.at_waiting (List.mem_of_getLast? hlast)

/-- A turn of the claim loop on a waiting job writes the lock, and then the lease. -/
theorem claimOne_turn (now : ℕ) (d : Double) {j : Job} (h : At q i (.waiting j)) (l : List String) :
    ∃ x, claimOne sha1hex now d i (q.setWaiting l) =
      (do
        Redis.zaddActive d i
        let x ← Redis.hgetall i
        pure (ClaimEntry.job x)) ((q.setWaiting l).setHash i x) := by
  have hkey : (q.setWaiting l).jobs i = some (.hash (j.hash i .waiting)) := h.key
  have hcount : countOf (j.hash i .waiting).runs = some (j.runs : ℤ) := rfl
  exact ⟨_, claimOne_hash .unbounded sha1hex now d hkey hcount trivial⟩

/-- A claim with a lease of NaN that pops a job breaks off. The job has the lock
then, whatever count was asked for. -/
theorem nan_claim_breaks_off (hq : Tidy q) (hlast : q.waiting.getLast? = some i) :
    ∃ x, ∀ count, claimCount q.limit q.active.card count ≠ 0 →
      exec sha1hex (.claimGlobalBatch ⟨.nan, count⟩, t) q =
        (.error .notAFloat, (q.setWaiting q.waiting.dropLast).setHash i x) := by
  obtain ⟨j, hj⟩ := hq.waiting_last hlast
  obtain ⟨x, hrun⟩ := claimOne_turn sha1hex t.now .nan hj q.waiting.dropLast
  refine ⟨x, fun count hc => ?_⟩
  obtain ⟨n, hn⟩ := Nat.exists_eq_succ_of_ne_zero hc
  have hturn : claimOne sha1hex t.now .nan i (q.setWaiting q.waiting.dropLast) =
      .error .notAFloat ((q.setWaiting q.waiting.dropLast).setHash i x) := hrun.trans rfl
  have hloop : Lua.claimEach Redis.commands (claimOne sha1hex t.now .nan) n.succ q =
      .error .notAFloat ((q.setWaiting q.waiting.dropLast).setHash i x) := by
    apply Eq.trans (claimLoop_pop hlast)
    exact Script.bind_error hturn
  simp only [exec, Lua.exec, runScript, Lua.claimGlobalBatch, Lua.claimBatch, Script.run_bind,
    Redis.hgetLimit, Redis.zcardActive, hn]
  rw [show Double.nan.plus t.now = .nan from rfl, hloop]

/-- On a lease of NaN, the turn of a waiting job breaks off and loses the job. -/
theorem claimOne_loses (now : ℕ) {j : Job} (h : At q i (.waiting j))
    (hlast : q.waiting.getLast? = some i) :
    ∃ q2, claimOne sha1hex now .nan i (q.setWaiting q.waiting.dropLast) =
        .error .notAFloat q2 ∧ Lost q2 i ∧ ∀ k ≠ i, q2.sight k = q.sight k := by
  obtain ⟨q1, q2, r1, o2, hrun⟩ := claimOne_locks sha1hex now .nan h hlast
  rw [Redis.rpop, hlast] at r1
  cases r1
  have hzadd : Redis.zaddActive .nan i q2 = .error .notAFloat q2 := rfl
  exact ⟨q2, hrun.trans (Script.bind_error hzadd), ⟨_, _, o2.here⟩, o2.others⟩

theorem claimLoop_tidy (now : ℕ) (d : Double) (n : ℕ) (hq : Tidy q) :
    Tidy (Script.after (claimLoop sha1hex now d n) q) := by
  induction n generalizing q with
  | zero => exact hq
  | succ n ih =>
    rcases hlast : q.waiting.getLast? with _ | i
    · rw [Script.after_ok (claimLoop_empty hlast)]
      exact hq
    · obtain ⟨j, hj⟩ := hq.waiting_last hlast
      rw [Script.after, claimLoop_pop hlast, ← Script.after]
      cases d with
      | val s =>
        obtain ⟨q1, q2, x, r1, r2, -, hat, hne⟩ := claimOne_activates sha1hex now s hj hlast
        rw [Redis.rpop, hlast] at r1
        cases r1
        have hrest := ih (hq.one hat hne)
        rw [Script.after, Script.bind_ok r2]
        rcases hloop : claimLoop sha1hex now (.val s) n q2 with ⟨es, q3⟩ | ⟨e, q3⟩
        · rw [Script.after_ok hloop] at hrest
          rw [Script.bind_ok hloop]
          exact hrest
        · rw [Script.after_error hloop] at hrest
          rw [Script.bind_error hloop]
          exact hrest
      | nan =>
        obtain ⟨q2, r2, hl, hne⟩ := claimOne_loses sha1hex now hj hlast
        rw [Script.after_error (Script.bind_error r2)]
        intro k
        by_cases hk : k = i
        · subst hk
          exact Or.inr hl
        · rcases hq k with ⟨p, hp⟩ | hlost
          · exact Or.inl ⟨p, hp.of_sight (hne k hk)⟩
          · exact Or.inr (hlost.of_sight (hne k hk))

theorem claimGlobalBatch_tidy (a : ClaimGlobalBatchArgs) (hq : Tidy q) :
    Tidy (Script.after (claimGlobalBatch sha1hex t a) q) := by
  have h := claimLoop_tidy sha1hex t.now (a.leaseMs.plus t.now)
    (claimCount q.limit q.active.card a.count) hq
  simp only [Script.after, claimGlobalBatch, Lua.claimGlobalBatch, Lua.claimBatch, Script.run_bind,
    Redis.hgetLimit, Redis.zcardActive] at h ⊢
  exact h

/-! ### recover -/

/-- A turn of a sweep: a job whose lease ran out is taken, and the rest stays. -/
theorem recoverOne_tidy (a : RecoverArgs) (limited : Bool) (i : String) (hq : Tidy q) :
    Tidy (Script.after (recoverOne t a limited i) q) := by
  by_cases hdue : q.Due t.now i
  · rcases hs : q.active.score i with _ | d
    · simp [Queue.Due, hs] at hdue
    · have hd : d ≤ Score.ofNat t.now := by simpa [Queue.Due, hs] using hdue
      obtain ⟨j, token, hat⟩ := hq.at_active hs
      obtain ⟨x, q1, hx, r1, o1⟩ := zremActive_held hat
      obtain ⟨q2, r2, hcase⟩ := recoverRemoved_retires (t := t) a limited hx o1
      rw [Script.after_ok (recoverOne_taken hat hd r1 r2)]
      rcases hcase with ⟨-, hat', hne⟩ | ⟨-, hret⟩
      · exact hq.one hat' hne
      · exact hret.tidy hq
  · rw [Script.after_ok (recoverOne_not_due hdue)]
    exact hq

theorem recoverLoop_tidy (a : RecoverArgs) (limited : Bool) (ids : List String) (hq : Tidy q) :
    Tidy (Script.after (recoverLoop t a limited ids) q) := by
  have hkeeps : Script.Keeps Tidy (fun _ _ => True) (recoverLoop t a limited ids) := by
    induction ids with
    | nil => exact fun q hq => ⟨hq, trivial⟩
    | cons i ids ih =>
      refine Script.Keeps.seq (S := fun _ _ => True)
        (fun q hq => ⟨recoverOne_tidy a limited i hq, trivial⟩) (fun entry => ?_)
        (fun _ _ _ _ _ => trivial) fun _ _ => id
      exact Script.Keeps.seq (S := fun _ _ => True) ih (fun recovered q hq => ⟨hq, trivial⟩)
        (fun _ _ _ _ _ => trivial) fun _ _ => id
  exact (hkeeps q hq).1

theorem recover_tidy (a : RecoverArgs) (hq : Tidy q) :
    Tidy (Script.after (recover t a) q) := by
  rw [Script.after, recover_run, ← Script.after]
  exact recoverLoop_tidy a q.limit.isSome (q.candidates t a) hq

/-! ### Every call -/

/-- A renewal keeps the queue tidy. On a lease of NaN, and on a lost job, it changes nothing. -/
theorem extendLock_tidy (a : ExtendLockArgs) (hq : Tidy q) :
    Tidy (Script.after (extendLock t a) q) := by
  rcases hq.guard a.jobId a.lockToken with ⟨j, hlock⟩ | href
  · rw [Script.after, extendLock, Lua.extendLock, hlock.holder, ← Script.after]
    rcases hd : a.leaseMs.plus t.now with _ | d'
    · exact hq
    · rcases hs : q.active.score a.jobId with _ | d
      · have hsame : Redis.zaddActiveXX (.val d') a.jobId q = .ok () q := by
          simp only [Redis.zaddActiveXX, hs]
          rfl
        rw [Script.after, Script.bind_ok hsame]
        simp only [Script.run_bind, Redis.zscoreActive, hs, Option.isNone_none, if_true]
        exact hq
      · obtain ⟨j', token', hat⟩ := hq.at_active hs
        obtain ⟨v, hk⟩ := hlock.key
        have htoken : token' = a.lockToken := by
          have hk' := hat.key
          rw [hk] at hk'
          exact (Option.some.inj (congrArg JobHash.lockToken
            (JobKey.hash.inj (Option.some.inj hk')))).symm
        subst htoken
        obtain ⟨q', hrun, hat', hne⟩ := extendLock_renews (t := t) hat hd
        rw [extendLock, Lua.extendLock, hat.holder] at hrun
        rw [hd] at hrun
        rw [Script.after_ok hrun]
        exact hq.one hat' hne
  · obtain ⟨r, hr⟩ := href ExtendLockResult.missing .stale _
    rw [extendLock, Lua.extendLock, Script.after_ok hr]
    exact hq

theorem exec_tidy (op : Call × RedisTime) (hq : Tidy q) : Tidy (exec sha1hex op q).2 := by
  obtain ⟨call, t⟩ := op
  cases call with
  | enqueue a =>
    simp only [exec, Lua.exec, runScript_after]
    rcases hq a.jobId with ⟨p, hp⟩ | hl
    · by_cases hg : p = .gone
      · subst hg
        obtain ⟨q', hrun, hat, hne⟩ := enqueue_waits (t := t) hp
        rw [Script.after_ok hrun]
        exact hq.one hat hne
      · rw [Script.after_ok (enqueue_collision hp hg)]
        exact hq
    · obtain ⟨j, token, hlock⟩ := hl.locked
      obtain ⟨v, hk⟩ := hlock.key
      have hr : Redis.hsetnxId a.jobId q = .ok false q := by
        simp [Redis.hsetnxId, hk, Job.hash]
      have hrun : enqueue t a q = .ok (.collision a.jobId) q := by
        simp only [enqueue, Lua.enqueue, Script.run_bind, hr, if_true, Script.run_pure]
      rw [Script.after_ok hrun]
      exact hq
  | claimGlobalBatch a =>
    simp only [exec, Lua.exec, runScript_after]
    exact claimGlobalBatch_tidy sha1hex a hq
  | complete a =>
    simp only [exec, Lua.exec, runScript_after]
    rcases hq.guard a.jobId a.lockToken with ⟨j, hlock⟩ | href
    · obtain ⟨q', hrun, hret⟩ := complete_retires (t := t) hlock
      rw [Script.after_ok hrun]
      exact hret.tidy hq
    · obtain ⟨r, hr⟩ := href CompleteResult.missing .stale _
      rw [Lua.complete, Lua.completeWith, Script.after_ok hr]
      exact hq
  | fail a =>
    simp only [exec, Lua.exec, runScript_after]
    rcases hq.guard a.jobId a.lockToken with ⟨j, hlock⟩ | href
    · rcases fail_retires (t := t) hlock with ⟨-, q', hrun, hat, hne⟩ | ⟨-, q', hrun, hret⟩
      · rw [Script.after_ok hrun]
        exact hq.one hat hne
      · rw [Script.after_ok hrun]
        exact hret.tidy hq
    · obtain ⟨r, hr⟩ := href FailResult.missing .stale _
      rw [Lua.fail, Lua.failWith, Script.after_ok hr]
      exact hq
  | recover a =>
    simp only [exec, Lua.exec, runScript_after]
    exact recover_tidy a hq
  | extendLock a =>
    simp only [exec, Lua.exec, runScript_after]
    exact extendLock_tidy a hq
  | requeueActive a =>
    simp only [exec, Lua.exec, runScript_after]
    rcases hq.guard a.jobId a.lockToken with ⟨j, hlock⟩ | href
    · obtain ⟨q', hrun, hat, hne⟩ := requeueActive_waits (t := t) hlock
      rw [Script.after_ok hrun]
      exact hq.one hat hne
    · obtain ⟨r, hr⟩ := href RequeueActiveResult.missing .stale _
      rw [Lua.requeueActive, Script.after_ok hr]
      exact hq
  | declareConcurrencyLimit a =>
    refine hq.of_sight fun i => ?_
    simp only [exec, Lua.exec, runScript_after]
    rcases declare_after a q with ⟨-, he⟩ | ⟨-, he⟩
    · rw [he]
      rfl
    · rw [he]

/-- Every reachable queue is tidy. -/
theorem tidy_run (ops : List (Call × RedisTime)) : Tidy (run sha1hex ops) :=
  Machine.finish_invariant (C := fun _ => True) sound_empty.tidy
    (fun op _ _ => exec_tidy sha1hex op) fun _ _ => trivial

end Panqueue
