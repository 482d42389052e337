-- The lease option of a worker: any number reaches the claim script. On NaN,
-- ZADD fails after the job was popped, and the job is in no collection then.
import Panqueue.Placement
import Panqueue.Tidy

namespace Panqueue

variable {q : Queue} {t : RedisTime} {i : String} (sha1hex : String → String)

/-! ## Leases that fit -/

/-- The call does not claim with a lease of NaN, or it pops nothing. -/
def Call.LeaseFits (q : Queue) : Call → Prop
  | .claimGlobalBatch a =>
    a.leaseMs ≠ .nan ∨ q.waiting = [] ∨ claimCount q.limit q.active.card a.count = 0
  | _ => True

instance (q : Queue) : DecidablePred (Call.LeaseFits q)
  | .claimGlobalBatch _ => inferInstanceAs (Decidable (_ ∨ _ ∨ _))
  | .enqueue _ | .complete _ | .fail _ | .recover _ | .extendLock _ | .requeueActive _
  | .declareConcurrencyLimit _ => inferInstanceAs (Decidable True)

/-- Each call fits the queue that it meets. -/
def LeasesFit (q : Queue) : List (Call × RedisTime) → Prop
  | [] => True
  | op :: ops => op.1.LeaseFits q ∧ LeasesFit (exec sha1hex op q).2 ops

/-- A claim loop that pops nothing. -/
theorem claimLoop_idle {now n : ℕ} {d : Double} (h : q.waiting = [] ∨ n = 0) :
    claimLoop sha1hex now d n q = .ok [] q := by
  cases n with
  | zero => rfl
  | succ n =>
    rcases h with h | h
    · exact claimLoop_empty (by simp [h])
    · cases h

theorem claim_idle {a : ClaimGlobalBatchArgs}
    (h : q.waiting = [] ∨ claimCount q.limit q.active.card a.count = 0) :
    (exec sha1hex (.claimGlobalBatch a, t) q).2 = q := by
  simp only [exec, Lua.exec, runScript, Lua.claimGlobalBatch, Lua.claimBatch, Script.run_bind,
    Redis.hgetLimit, Script.run_bind, Redis.hgetLimit, Redis.zcardActive, claimLoop_idle sha1hex h]

/-- A renewal with a lease of NaN changes nothing: ZADD refuses the score. -/
theorem extendLock_nan {a : ExtendLockArgs} (ha : a.leaseMs = .nan) (hq : Sound q) :
    (exec sha1hex (.extendLock a, t) q).2 = q := by
  obtain ⟨p, hp⟩ := hq a.jobId
  simp only [exec, Lua.exec, runScript_after]
  rcases p.holder_or a.lockToken with ⟨j, d, rfl⟩ | hne
  · rw [Script.after, Lua.extendLock, hp.holder, ha]
    rfl
  · exact Script.after_ok (hp.refused hne _ _ _)

/-- A call that fits keeps the queue sound. -/
theorem sound_of_fits {op : Call × RedisTime} (hop : op.1.LeaseFits q) (hq : Sound q) :
    Sound (exec sha1hex op q).2 := by
  by_cases hl : op.1.LeaseIsNumber
  · exact (exec_moves sha1hex op hl hq).1.sound hq
  · obtain ⟨call, t⟩ := op
    cases call with
    | claimGlobalBatch a =>
      have hidle := hop.resolve_left fun hne => hl hne
      rw [claim_idle sha1hex hidle]
      exact hq
    | extendLock a =>
      have hnan : a.leaseMs = .nan := not_not.mp hl
      rw [extendLock_nan sha1hex hnan hq]
      exact hq
    | _ => exact absurd trivial hl

theorem sound_finish {ops : List (Call × RedisTime)} (hfit : LeasesFit sha1hex q ops)
    (hq : Sound q) : Sound (Machine.finish (exec sha1hex) q ops) := by
  induction ops generalizing q with
  | nil => exact hq
  | cons op ops ih => exact ih hfit.2 (sound_of_fits sha1hex hfit.1 hq)

/-! ## What a claim keeps -/

/-- Each id that stood in the waiting list or in the active set still does. -/
def KeepsFlow (q q' : Queue) : Prop := ∀ i, q.InFlow i → q'.InFlow i

/-- A claim with a lease that is a number ends no job. -/
theorem claim_keepsFlow {a : ClaimGlobalBatchArgs} (ha : a.leaseMs ≠ .nan) (hq : Sound q) :
    KeepsFlow q (exec sha1hex (.claimGlobalBatch a, t) q).2 := by
  intro i hi
  obtain ⟨p, hp⟩ := hq i
  obtain ⟨p', hp', hs⟩ := (exec_moves sha1hex (.claimGlobalBatch a, t) ha hq).1 i p hp
  refine hp'.inFlow.mpr ((hp.inFlow.mp hi).stays hs fun e he hend => ?_)
  have hof := of_mem_actsOf he
  cases e with
  | complete token now =>
    obtain ⟨b, h, -⟩ := hof
    cases h
  | fail token error now =>
    obtain ⟨b, h, -⟩ := hof
    cases h
  | stallOut reason now =>
    obtain ⟨b, es, x, h, -⟩ := hof
    cases h
  | _ => cases hend

/-- A claim with a lease of NaN loses the first job that it pops. -/
theorem nan_claim_loses {a : ClaimGlobalBatchArgs} (ha : a.leaseMs = .nan) (hq : Sound q)
    (hw : q.waiting ≠ []) (hc : claimCount q.limit q.active.card a.count ≠ 0) :
    ¬ KeepsFlow q (exec sha1hex (.claimGlobalBatch a, t) q).2 := by
  obtain ⟨i, hlast⟩ := Option.ne_none_iff_exists'.mp (mt List.getLast?_eq_none_iff.mp hw)
  obtain ⟨leaseMs, count⟩ := a
  subst ha
  obtain ⟨x, hbreaks⟩ := nan_claim_breaks_off sha1hex (t := t) hq.tidy hlast
  rw [hbreaks count hc]
  -- the popped job got its lock, and then ZADD refused the score
  obtain ⟨j, hj⟩ := hq.waiting_last hlast
  obtain ⟨h, q1, -, hpop, hheld⟩ := rpop_held hj hlast
  rw [Redis.rpop, hlast] at hpop
  cases hpop
  have hout := hheld.setHash x
  intro hkeeps
  rcases hkeeps i (Or.inl (List.mem_of_getLast? hlast)) with hin | hin
  · have hw0 := congrArg Sight.waits hout.here
    exact absurd (List.count_pos_iff.mpr hin) (by rw [show List.count i _ = 0 from hw0]; omega)
  · have ha0 := congrArg Sight.lease hout.here
    exact SortedSet.score_eq_none.mp ha0 hin

/-- In a run where each lease fits, a claim keeps every job in the waiting list
or in the active set if and only if its own lease fits. -/
theorem claim_loses_no_job_iff {ops : List (Call × RedisTime)}
    (hfit : LeasesFit sha1hex {} ops) (t : RedisTime) (a : ClaimGlobalBatchArgs) :
    KeepsFlow (run sha1hex ops) (exec sha1hex (.claimGlobalBatch a, t) (run sha1hex ops)).2 ↔
      (Call.claimGlobalBatch a).LeaseFits (run sha1hex ops) := by
  have hq : Sound (run sha1hex ops) := sound_finish sha1hex hfit sound_empty
  by_cases ha : a.leaseMs = .nan
  · by_cases hidle : (run sha1hex ops).waiting = [] ∨
        claimCount (run sha1hex ops).limit (run sha1hex ops).active.card a.count = 0
    · refine iff_of_true ?_ (Or.inr hidle)
      rw [claim_idle sha1hex hidle]
      exact fun i hi => hi
    · rw [not_or] at hidle
      apply iff_of_false (nan_claim_loses sha1hex ha hq hidle.1 hidle.2)
      rintro (hne | hw | hc)
      · exact hne ha
      · exact hidle.1 hw
      · exact hidle.2 hc
  · exact iff_of_true (claim_keepsFlow sha1hex ha hq) (Or.inl ha)

/-- One job that waits. -/
def sampleEnqueued : List (Call × RedisTime) := [(.enqueue sampleJob, ⟨1, 0⟩)]

/-- An infinite lease loses no job. -/
theorem infinite_lease_keeps_the_job :
    KeepsFlow (run id sampleEnqueued)
      (exec id (.claimGlobalBatch ⟨.val ⊤, 1⟩, ⟨2, 0⟩) (run id sampleEnqueued)).2 := by
  have hfit : LeasesFit id {} sampleEnqueued := ⟨trivial, trivial⟩
  exact (claim_loses_no_job_iff id hfit ⟨2, 0⟩ ⟨.val ⊤, 1⟩).mpr (by decide +kernel)

/-- A lease of NaN loses the waiting job. -/
theorem nan_lease_loses_the_job :
    ¬ KeepsFlow (run id sampleEnqueued)
      (exec id (.claimGlobalBatch ⟨.nan, 1⟩, ⟨2, 0⟩) (run id sampleEnqueued)).2 := by
  intro h
  have hin : "j" ∈ (run id sampleEnqueued).waiting := by decide +kernel
  rcases h "j" (Or.inl hin) with hw | ha
  · change "j" ∈ Queue.waiting _ at hw
    exact absurd hw (by decide +kernel)
  · change "j" ∈ SortedSet.members _ at ha
    exact absurd ha (by decide +kernel)

end Panqueue
