-- The last durable state of a job: what its key holds just before retention can
-- delete it. It is read off the scripts themselves, each cut off where its
-- retention starts.
import Panqueue.Entries

namespace Panqueue

variable {q q' : Queue} {t : RedisTime} {i : String}

/-! ## Scripts that stop at retention -/

/-- What stands for retention in a script that stops there. -/
def cut : FinalStatus → ResolvedRetention → ℕ → String → QueueScript Unit :=
  fun _ _ _ _ => throw .luaError

/-- The job key of an acknowledgement when retention starts, or at the end of the
call when the job waits again. -/
def heldBy (op : Call × RedisTime) (q : Queue) : Option JobKey :=
  match op.1 with
  | .complete a => (Script.after (Lua.completeWith Redis.commands cut op.2 a) q).jobs a.jobId
  | .fail a => (Script.after (Lua.failWith Redis.commands cut op.2 a) q).jobs a.jobId
  | _ => none

/-- A turn of the recover loop, with the job key when retention starts, or at the
end of the turn when the job waits again. -/
def recoverRemovedHeld (t : RedisTime) (a : RecoverArgs) (limited : Bool) (jobId : String) :
    QueueScript (RecoverEntry × Option JobKey) := fun q =>
  let stopped := Script.after (Lua.recoverRemovedWith Redis.commands cut t a limited jobId) q
  (do
    let entry ← recoverRemoved t a limited jobId
    pure (entry, stopped.jobs jobId)) q

/-- `RECOVER_SCRIPT`, with the job keys when retention starts. -/
def recoverHeld (t : RedisTime) (a : RecoverArgs) :
    QueueScript (List (RecoverEntry × Option JobKey)) :=
  Lua.recoverBatch Redis.commands
    (fun limited => Lua.recoverTaken Redis.commands (recoverRemovedHeld t a limited) t) t a

/-! ## The sweep is the sweep -/

theorem recoverTaken_map {m : Type → Type} [Monad m] [LawfulMonad m] {α β : Type} (R : Commands m)
    (f : α → β) (taken : String → m α) (i : String) :
    Lua.recoverTaken R (fun i => f <$> taken i) t i =
      List.map f <$> Lua.recoverTaken R taken t i := by
  simp only [Lua.recoverTaken, map_bind, map_pure, bind_map_left, List.map_cons, List.map_nil,
    apply_ite (Functor.map (List.map f))]

theorem recoverRemoved_eq_held (a : RecoverArgs) (limited : Bool) (i : String) :
    recoverRemoved t a limited i = Prod.fst <$> recoverRemovedHeld t a limited i := by
  funext q
  rw [map_eq_pure_bind, Script.run_bind]
  simp only [recoverRemovedHeld, Script.run_bind]
  rcases recoverRemoved t a limited i q with ⟨entry, q'⟩ | ⟨e, q'⟩
  · rfl
  · rfl

/-- The recover script is the one with the job keys, with the job keys left out. -/
theorem recover_eq_held (t : RedisTime) (a : RecoverArgs) :
    recover t a = List.map Prod.fst <$> recoverHeld t a := by
  have hone : ∀ limited, recoverOne t a limited = fun i => List.map Prod.fst <$>
      Lua.recoverTaken Redis.commands (recoverRemovedHeld t a limited) t i := by
    intro limited
    funext i
    rw [← recoverTaken_map]
    simp only [← recoverRemoved_eq_held]
    rfl
  unfold recover Lua.recover recoverHeld Lua.recoverBatch
  simp only [hone, recoverEach_map, map_bind]

/-! ## What the keys hold -/

/-- The hash that a holder's complete leaves to retention. -/
theorem complete_held {a : CompleteArgs} {j : Job} {d : Score}
    (h : At q a.jobId (.active j a.lockToken d)) :
    heldBy (.complete a, t) q = some (.hash (j.hash a.jobId .active)) := by
  obtain ⟨x, q1, hx, r1, o1⟩ := zremActive_held h
  obtain ⟨q2, r2, o2⟩ := o1.hdelLease (s := .active) (by cases hx; rfl)
  have hrun : Lua.completeWith Redis.commands cut t a q = .error .luaError q2 := by
    rw [Lua.completeWith, h.holder]
    simp only [Script.run_bind, r1, r2]
    rfl
  simp only [heldBy, Script.after_error hrun, o2.key]
  cases hx
  rfl

/-- The hash that a holder's fail leaves to retention. -/
theorem fail_held {a : FailArgs} {j : Job} {d : Score}
    (h : At q a.jobId (.active j a.lockToken d)) (hm : ¬ (j.failed a.error t.now).MayRetry) :
    heldBy (.fail a, t) q = some (.hash ((j.failed a.error t.now).hash a.jobId .active)) := by
  obtain ⟨q1, o1, hfail⟩ := h.locked.fails a.error t.now
  have hrun : Lua.failWith Redis.commands cut t a q = .error .luaError q1 := by
    rw [Lua.failWith, hfail, if_neg (mt (j.mayRetry_iff a.error t.now).mp hm)]
    rfl
  simp only [heldBy, Script.after_error hrun, o1.key]

/-- The hash that a holder's fail leaves behind when the job waits again. -/
theorem fail_held_waiting {a : FailArgs} {j : Job} {d : Score}
    (h : At q a.jobId (.active j a.lockToken d)) (hm : (j.failed a.error t.now).MayRetry) :
    heldBy (.fail a, t) q = some (.hash ((j.failed a.error t.now).hash a.jobId .waiting)) := by
  obtain ⟨q1, o1, hfail⟩ := h.locked.fails a.error t.now
  obtain ⟨q2, r2, o2⟩ := o1.hset fun h => { h with status := some .waiting }
  have hrun : Lua.failWith Redis.commands cut t a q =
      .ok .waiting ((q2.setWaiting (a.jobId :: q2.waiting)).publish a.jobId) := by
    rw [Lua.failWith, hfail, if_pos ((j.mayRetry_iff a.error t.now).mpr hm)]
    simp only [Script.run_bind, r2]
    rfl
  simp only [heldBy, Script.after_ok hrun, Queue.publish_jobs, Queue.setWaiting_jobs, o2.key]
  rfl

/-- HSET leaves a hash. -/
theorem holds_of_hset {put : JobHash → JobHash} {u : Unit}
    (h : Redis.commands.hset i put q = .ok u q') :
    ∃ x, q'.jobs i = some (.hash x) := by
  simp only [Redis.hset] at h
  rcases hk : q.jobs i with _ | (x | _)
  · rw [hk] at h
    cases h
    exact ⟨put {}, by simp⟩
  · rw [hk] at h
    cases h
    exact ⟨put x, by simp⟩
  · rw [hk] at h
    cases h

/-- The hash in a sweep entry is the one that the store holds when retention
starts, on any queue at all. -/
theorem recoverRemoved_tells {a : RecoverArgs} {limited : Bool} {o : RecoverOutcome} {x : JobHash}
    (h : recoverRemoved t a limited i q = .ok (.job o x) q') :
    (Script.after (Lua.recoverRemovedWith Redis.commands cut t a limited i) q).jobs i =
      some (.hash x) := by
  unfold Lua.recoverRemovedWith
  obtain ⟨found, q1, r1, h⟩ := Script.bind_eq_ok.mp h
  rw [Script.after, Script.bind_ok r1, ← Script.after]
  by_cases hf : found = false
  · rw [if_pos hf] at h
    obtain ⟨_, q2, -, h⟩ := Script.bind_eq_ok.mp h
    cases h
  · rw [if_neg hf] at h ⊢
    obtain ⟨stalls, q2, r2, h⟩ := Script.bind_eq_ok.mp h
    obtain ⟨_, q3, r3, h⟩ := Script.bind_eq_ok.mp h
    obtain ⟨_, q4, r4, h⟩ := Script.bind_eq_ok.mp h
    obtain ⟨stored, q5, r5, h⟩ := Script.bind_eq_ok.mp h
    rw [Script.after, Script.bind_ok r2, Script.bind_ok r3, Script.bind_ok r4, Script.bind_ok r5,
      ← Script.after]
    by_cases hm : Double.ofInt stalls ≤ (stored.bind Numeral.tonumber).getD (.ofNat 5)
    · rw [if_pos hm] at h ⊢
      obtain ⟨_, q6, r6, h⟩ := Script.bind_eq_ok.mp h
      obtain ⟨y, hy⟩ := holds_of_hset r6
      simp only [Script.run_bind, Redis.lpush, Redis.publish, Redis.hgetall, hy,
        Queue.publish_jobs, Queue.setWaiting_jobs, Script.run_pure] at h
      cases h
      rw [Script.after, Script.bind_ok r6]
      simp only [Script.run_bind, Redis.lpush, Redis.publish, Redis.hgetall, hy,
        Queue.publish_jobs, Queue.setWaiting_jobs, Script.run_pure]
    · rw [if_neg hm] at h ⊢
      obtain ⟨_, q6, r6, h⟩ := Script.bind_eq_ok.mp h
      obtain ⟨y, hy⟩ := holds_of_hset r6
      have r7 : Redis.hgetall i q6 = .ok y q6 := by simp only [Redis.hgetall, hy]
      rw [Script.bind_ok r7] at h
      obtain ⟨_, q7, -, h⟩ := Script.bind_eq_ok.mp h
      obtain ⟨_, q8, -, h⟩ := Script.bind_eq_ok.mp h
      cases h
      rw [Script.after, Script.bind_ok r6, Script.bind_ok r7]
      exact hy

theorem recoverTaken_held {a : RecoverArgs} {limited : Bool}
    {xs : List (RecoverEntry × Option JobKey)}
    (h : Lua.recoverTaken Redis.commands (recoverRemovedHeld t a limited) t i q = .ok xs q') :
    ∀ o x held, (.job o x, held) ∈ xs → held = some (.hash x) := by
  intro o x held hmem
  obtain ⟨score, q1, -, h⟩ := Script.bind_eq_ok.mp h
  split at h
  · obtain ⟨removed, q2, -, h⟩ := Script.bind_eq_ok.mp h
    split at h
    · obtain ⟨entry, q3, hentry, h⟩ := Script.bind_eq_ok.mp h
      cases h
      cases List.mem_singleton.mp hmem
      obtain ⟨e, q4, hrun, hpair⟩ := Script.bind_eq_ok.mp hentry
      cases hpair
      exact recoverRemoved_tells hrun
    · cases h
      cases hmem
  · cases h
    cases hmem

/-- Each hash in a sweep reply is the one that the store held. -/
theorem recoverHeld_held {a : RecoverArgs} {xs : List (RecoverEntry × Option JobKey)}
    (h : recoverHeld t a q = .ok xs q') :
    ∀ o x held, (.job o x, held) ∈ xs → held = some (.hash x) := by
  obtain ⟨limit, q1, -, hrest⟩ := Script.bind_eq_ok.mp h
  obtain ⟨ids, q2, -, hloop⟩ := Script.bind_eq_ok.mp hrest
  clear h hrest
  induction ids generalizing q2 xs with
  | nil =>
    cases hloop
    simp
  | cons i ids ih =>
    obtain ⟨ys, q3, hone, hrest⟩ := Script.bind_eq_ok.mp hloop
    obtain ⟨zs, q4, hloop, hpure⟩ := Script.bind_eq_ok.mp hrest
    cases hpure
    intro o x held hmem
    rcases List.mem_append.mp hmem with hmem | hmem
    · exact recoverTaken_held hone o x held hmem
    · exact ih q3 hloop o x held hmem

end Panqueue
