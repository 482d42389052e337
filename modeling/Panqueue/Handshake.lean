-- The wake handshake of a runner: what may happen to the phase of its claim
-- loop and to a pending wake.
import Panqueue.ClaimLoop

namespace Panqueue

variable {δ : Type}

/-- The phases that only a claim reply ends, or nothing. -/
def LoopPhase.Lasting : LoopPhase → Prop
  | claiming _ => True
  | exited => True
  | _ => False

namespace Runner

variable {r r' : Runner δ} {N : ℕ}

/-- What all inputs but a claim reply leave alone: a pending wake stays
pending, the loop does not park, and a claim call and the end of the loop stay. -/
structure Attentive (r r' : Runner δ) : Prop where
  pending : r.wakePending = true → r'.wakePending = true
  parked : r'.loop = .parked → r.loop = .parked
  lasting : r.loop.Lasting → r'.loop = r.loop

theorem Attentive.refl (r : Runner δ) : Attentive r r := ⟨id, id, fun _ => rfl⟩

theorem Attentive.stays (h : Attentive r r') {phase : LoopPhase} (hl : r.loop = phase)
    (hp : phase.Lasting) : r'.loop = phase := by
  rw [← hl] at hp ⊢
  exact h.lasting hp

theorem attentive_loopTop (h : ¬ r.loop.Lasting) : Attentive r r.loopTop := by
  unfold Runner.loopTop
  split
  · split <;> exact ⟨id, by simp, fun hn => absurd hn h⟩
  · exact ⟨id, by simp, fun hn => absurd hn h⟩

theorem wakePending_release (r : Runner δ) : r.release.wakePending = r.wakePending := by
  unfold Runner.release
  split <;> rfl

theorem wakePending_releasePermits (n : ℕ) (r : Runner δ) :
    (Runner.releasePermits n r).wakePending = r.wakePending := by
  induction n generalizing r with
  | zero => rfl
  | succ n ih => exact (ih r.release).trans (wakePending_release r)

theorem attentive_claimBatch (h : ¬ r.loop.Lasting) : Attentive r r.claimBatch := by
  unfold Runner.claimBatch
  split
  · exact ⟨id, by simp, fun hn => absurd hn h⟩
  · refine ⟨?_, by simp, fun hn => absurd hn h⟩
    rw [← wakePending_release]
    exact id

theorem attentive_resume (r : Runner δ) : Attentive r (r.step .resume) := by
  rcases hl : r.loop with _ | _ | _ | _ | n | _ | _ | _
  all_goals simp only [Runner.step, hl]
  all_goals first
    | exact Attentive.refl r
    | exact attentive_claimBatch (by simp [hl, LoopPhase.Lasting])
    | exact attentive_loopTop (by simp [hl, LoopPhase.Lasting])
    | exact ⟨id, by simp, by simp [hl, LoopPhase.Lasting]⟩

theorem attentive_wake (h : Balanced N r) : Attentive r r.wake := by
  unfold Runner.wake
  split
  · rename_i hw
    have hl := h.parked.mp hw
    exact ⟨id, by simp, by simp [hl, LoopPhase.Lasting]⟩
  · exact ⟨fun _ => rfl, id, fun _ => rfl⟩

theorem attentive_stopClaiming (h : Balanced N r) : Attentive r r.stopClaiming := by
  have hp := h.parked
  have hwait := h.waiters
  unfold Runner.stopClaiming
  split
  · by_cases ha : r.loop = .acquiring
    · rw [if_pos ha] at hwait
      have hab : r.semaphore.abort () = (true, { r.semaphore with waiters := [] }) := by
        simp [Semaphore.abort, hwait]
      have hw : r.wakeResolve = false := by
        rw [← Bool.not_eq_true, hp, ha]
        simp
      simp only [hab, Runner.wake, hw]
      exact ⟨fun _ => rfl, by simp, by simp [ha, LoopPhase.Lasting]⟩
    · rw [if_neg ha] at hwait
      have hab : r.semaphore.abort () = (false, r.semaphore) := by
        simp [Semaphore.abort, hwait]
      have hb : Balanced N { r with state := .stopping, aborted := true } :=
        ⟨h.max, h.taken, h.le, h.waiters, h.parked, h.asks⟩
      rw [hab]
      have hw := attentive_wake hb
      exact ⟨hw.pending, hw.parked, hw.lasting⟩
  · exact Attentive.refl r

theorem attentive_settle (h : Balanced N r) (e : InFlightEntry δ) : Attentive r (r.settle e) := by
  have hl := h.settle_loop e
  refine ⟨?_, fun hp => ?_, fun hlast => ?_⟩
  · rw [Runner.settle, wakePending_release]
    exact id
  · rw [hl] at hp
    split at hp
    · cases hp
    · exact hp
  · rw [hl, if_neg]
    intro ha
    rw [ha] at hlast
    exact hlast

theorem attentive_acknowledged (h : Balanced N r) (e : InFlightEntry δ)
    (reply : Except String AckResult) : Attentive r (r.acknowledged e reply) := by
  unfold Runner.acknowledged
  split
  · exact Attentive.refl r
  · rename_i settled _
    have hs := attentive_settle (h.emit (processJobTail e.job settled reply)) e
    exact ⟨hs.pending, hs.parked, hs.lasting⟩

/-- The step lemma of the handshake, for every input but a claim reply. -/
theorem attentive_step (h : Balanced N r) (hf : Fresh r) {x : RunnerInput δ}
    (hx : ∀ reply, x ≠ .claimReply reply) : Attentive r (r.step x) := by
  cases x with
  | start =>
    simp only [Runner.step, Runner.start]
    split
    · rename_i hi
      have hl := attentive_loopTop (r := { r with state := .running })
        (by simp [hf hi, LoopPhase.Lasting])
      exact ⟨hl.pending, hl.parked, hl.lasting⟩
    · exact Attentive.refl r
  | resume => exact attentive_resume r
  | claimReply reply => exact absurd rfl (hx reply)
  | wake => exact attentive_wake h
  | pollTimer =>
    simp only [Runner.step, Runner.pollTimer]
    split
    · rename_i hl
      exact ⟨id, by simp, by simp [hl, LoopPhase.Lasting]⟩
    · exact Attentive.refl r
  | stopClaiming => exact attentive_stopClaiming h
  | finalize => exact ⟨id, id, fun _ => rfl⟩
  | handlerSettled serial settled => exact ⟨id, id, fun _ => rfl⟩
  | acknowledged e reply => exact attentive_acknowledged h e reply
  | rejected e => exact attentive_settle h e

/-- After a claim reply the loop is parked only when the reply was empty and no wake was pending. -/
theorem parked_of_claimReply {n : ℕ} {jobs : List (ClaimResult δ)}
    (h : (r.onClaimReply n (.ok jobs)).loop = .parked) : jobs = [] ∧ r.wakePending = false := by
  cases jobs with
  | nil =>
    refine ⟨rfl, ?_⟩
    simp only [Runner.onClaimReply, Runner.waitForNotification] at h
    split at h
    · cases h
    · rename_i hw
      rw [wakePending_releasePermits] at hw
      simpa using hw
  | cons c jobs =>
    simp only [Runner.onClaimReply, Runner.loopTop] at h
    split at h
    · split at h <;> cases h
    · cases h

end Runner

end Panqueue
