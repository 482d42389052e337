-- The permits of the claim loop: each taken permit is an in-flight job or is
-- held by the loop for its claim, whatever happens between two resumptions.
import Panqueue.Lib.Runs
import Panqueue.Runner

namespace Panqueue

variable {δ : Type}

/-! ## Permits at an await -/

/-- The permits that the loop holds for its current claim. -/
def LoopPhase.held : LoopPhase → ℕ
  | granted => 1
  | claiming n => n
  | _ => 0

namespace Runner

variable {r : Runner δ} {N k m : ℕ}

/-- Between two awaits of the loop: `k` permits are held besides the in-flight jobs. -/
structure Holds (N k : ℕ) (r : Runner δ) : Prop where
  max : r.semaphore.max = N
  taken : r.semaphore.current = r.inFlight.length + k
  le : r.semaphore.current ≤ N
  waiters : r.semaphore.waiters = []
  unparked : r.wakeResolve = false

/-- At an await of the loop. -/
structure Balanced (N : ℕ) (r : Runner δ) : Prop where
  max : r.semaphore.max = N
  taken : r.semaphore.current = r.inFlight.length + r.loop.held
  le : r.semaphore.current ≤ N
  waiters : r.semaphore.waiters = if r.loop = .acquiring then [()] else []
  parked : r.wakeResolve = true ↔ r.loop = .parked
  asks : r.loop ≠ .claiming 0

theorem Balanced.holds (h : Balanced N r) (ha : r.loop ≠ .acquiring) (hp : r.loop ≠ .parked) :
    Holds N r.loop.held r := by
  refine ⟨h.max, h.taken, h.le, ?_, ?_⟩
  · rw [h.waiters, if_neg ha]
  · rw [← Bool.not_eq_true]
    exact fun hw => hp (h.parked.mp hw)

theorem Holds.balanced (h : Holds N r.loop.held r) (ha : r.loop ≠ .acquiring)
    (hp : r.loop ≠ .parked) (hc : r.loop ≠ .claiming 0) : Balanced N r := by
  refine ⟨h.max, h.taken, h.le, ?_, ?_, hc⟩
  · rw [h.waiters, if_neg ha]
  · rw [h.unparked]
    exact ⟨fun hf => absurd hf Bool.false_ne_true, fun hl => absurd hl hp⟩

theorem Holds.release_eq (h : Holds N k r) :
    r.release =
      { r with semaphore := { r.semaphore with current := r.semaphore.current - 1 } } := by
  rw [Runner.release, Semaphore.release_nil h.waiters]

theorem Holds.release (h : Holds N (k + 1) r) : Holds N k r.release := by
  have ht := h.taken
  have hle := h.le
  rw [h.release_eq]
  refine ⟨h.max, ?_, ?_, h.waiters, h.unparked⟩
  · simp only
    push_cast at ht
    omega
  · simp only
    omega

theorem Holds.releasePermits (h : Holds N (k + m) r) : Holds N k (releasePermits m r) := by
  induction m generalizing r with
  | zero => exact h
  | succ m ih => exact ih (Holds.release h)

theorem Holds.emit (h : Holds N k r) (events : List (WorkerEvent δ)) :
    Holds N k (r.emit events) := ⟨h.max, h.taken, h.le, h.waiters, h.unparked⟩

/-- A dispatched job keeps one permit, and a corrupt entry gives one back. -/
theorem Holds.dispatch (h : Holds N (k + 1) r) (c : ClaimResult δ) : Holds N k (r.dispatch c) := by
  cases c with
  | corrupt jobId => exact (h.emit _).release
  | job j =>
    have ht := h.taken
    refine ⟨h.max, ?_, h.le, h.waiters, h.unparked⟩
    simp only [Runner.dispatch, Runner.emit, List.length_append, List.length_singleton]
    push_cast at ht ⊢
    omega

theorem Holds.foldl_dispatch {jobs : List (ClaimResult δ)} (h : Holds N (k + jobs.length) r) :
    Holds N k (jobs.foldl Runner.dispatch r) := by
  induction jobs generalizing r with
  | nil => exact h
  | cons c jobs ih => exact ih (Holds.dispatch h c)

theorem Holds.loopTop (h : Holds N 0 r) : Balanced N r.loopTop := by
  have ht := h.taken
  have hle := h.le
  by_cases hs : r.state = .running
  · rcases ha : r.aborted with _ | _
    · by_cases hc : r.semaphore.current < r.semaphore.max
      · have hmax := h.max
        rw [Runner.loopTop, if_pos hs, ha, Semaphore.acquire_free hc]
        refine Holds.balanced ⟨h.max, ?_, ?_, h.waiters, h.unparked⟩ (by simp) (by simp) (by simp)
        · simp only [LoopPhase.held]
          push_cast at ht ⊢
          omega
        · simp only
          omega
      · rw [Runner.loopTop, if_pos hs, ha, Semaphore.acquire_full hc]
        refine ⟨h.max, ht, hle, ?_, ?_, by simp⟩
        · simp [h.waiters]
        · simp [h.unparked]
    · rw [Runner.loopTop, if_pos hs, ha, Semaphore.acquire_aborted]
      exact Holds.balanced ⟨h.max, ht, hle, h.waiters, h.unparked⟩ (by simp) (by simp) (by simp)
  · rw [Runner.loopTop, if_neg hs]
    exact Holds.balanced ⟨h.max, ht, hle, h.waiters, h.unparked⟩ (by simp) (by simp) (by simp)

theorem Holds.waitForNotification (h : Holds N 0 r) : Balanced N r.waitForNotification := by
  unfold Runner.waitForNotification
  split
  · exact Holds.balanced ⟨h.max, h.taken, h.le, h.waiters, h.unparked⟩ (by simp) (by simp) (by simp)
  · exact ⟨h.max, h.taken, h.le, h.waiters, by simp, by simp⟩

/-- The top-up counts the permits that it takes, and takes none that is not free. -/
theorem topUp_spec (target : Double) (fuel n : ℕ) (s : Semaphore Unit) (hle : s.current ≤ s.max) :
    ∃ k : ℕ, topUp target fuel n s = (n + k, { s with current := s.current + k }) ∧
      s.current + k ≤ s.max := by
  induction fuel generalizing n s with
  | zero => exact ⟨0, by simp [topUp], by simpa using hle⟩
  | succ fuel ih =>
    by_cases ht : Double.ofNat n < target
    · by_cases hc : s.current < s.max
      · obtain ⟨k, hk, hcap⟩ := ih (n + 1) { s with current := s.current + 1 }
          (by simp only; omega)
        refine ⟨k + 1, ?_, by push_cast; simp only at hcap; omega⟩
        simp only [topUp, if_pos ht, Semaphore.tryAcquire_free hc]
        rw [hk]
        simp only [Prod.mk.injEq, Semaphore.mk.injEq, true_and, and_true]
        exact ⟨by omega, by push_cast; omega⟩
      · refine ⟨0, ?_, by simpa using hle⟩
        simp [topUp, Semaphore.tryAcquire_full hc]
    · exact ⟨0, by simp [topUp, if_neg ht], by simpa using hle⟩

theorem Holds.claimBatch (h : Holds N 1 r) : Balanced N r.claimBatch := by
  have ht := h.taken
  have hmax := h.max
  by_cases hs : r.state = .running
  · obtain ⟨k, hk, hcap⟩ := topUp_spec
      (Double.min r.claimBatchCap (.ofInt (r.semaphore.available + 1)))
      r.semaphore.available.toNat 1 r.semaphore (by rw [hmax]; exact h.le)
    simp only [Runner.claimBatch, if_pos hs, hk]
    refine Holds.balanced ⟨hmax, ?_, ?_, h.waiters, h.unparked⟩ (by simp) (by simp) (by simp)
    · simp only [LoopPhase.held]
      push_cast at ht ⊢
      omega
    · rw [← hmax]
      exact hcap
  · have hr := Holds.release h
    rw [Runner.claimBatch, if_neg hs]
    exact Holds.balanced ⟨hr.max, hr.taken, hr.le, hr.waiters, hr.unparked⟩ (by simp) (by simp)
      (by simp)

/-- The reply of a claim call for `n` jobs finds `n` permits held. -/
theorem Holds.onClaimReply {n : ℕ} (h : Holds N n r) (reply : Except String (List (ClaimResult δ)))
    (hn : ∀ jobs, reply = .ok jobs → jobs.length ≤ n) : Balanced N (r.onClaimReply n reply) := by
  have h0 : Holds N 0 (Runner.releasePermits n r) := Holds.releasePermits (by simpa using h)
  rcases reply with e | jobs
  · exact (h0.emit _).waitForNotification
  · cases jobs with
    | nil => exact h0.waitForNotification
    | cons c jobs =>
      have hlen := hn _ rfl
      refine Holds.loopTop (Holds.releasePermits ?_)
      apply Holds.foldl_dispatch
      rw [Nat.zero_add, Nat.sub_add_cancel hlen]
      exact h

/-! ## Inputs from outside -/

theorem Balanced.wake (h : Balanced N r) : Balanced N r.wake := by
  have hp := h.parked
  have ht := h.taken
  unfold Runner.wake
  split
  · rename_i hw
    have hl := hp.mp hw
    refine ⟨h.max, ?_, h.le, ?_, by simp, by simp⟩
    · rw [ht, hl]
      rfl
    · have hwait := h.waiters
      rw [hl] at hwait
      simpa using hwait
  · exact ⟨h.max, ht, h.le, h.waiters, hp, h.asks⟩

theorem Balanced.pollTimer (h : Balanced N r) : Balanced N r.pollTimer := by
  unfold Runner.pollTimer
  split
  · rename_i hl
    have ht := h.taken
    have hwait := h.waiters
    rw [hl] at ht hwait
    exact ⟨h.max, ht, h.le, by simpa using hwait, by simp, by simp⟩
  · exact h

theorem Balanced.stopClaiming (h : Balanced N r) : Balanced N r.stopClaiming := by
  have ht := h.taken
  have hwait := h.waiters
  unfold Runner.stopClaiming
  split
  · by_cases ha : r.loop = .acquiring
    · rw [if_pos ha] at hwait
      rw [ha] at ht
      have hab : r.semaphore.abort () = (true, { r.semaphore with waiters := [] }) := by
        simp [Semaphore.abort, hwait]
      rw [hab]
      refine Balanced.wake ⟨h.max, ht, h.le, by simp, ?_, by simp⟩
      have hp := h.parked
      simp only [ha] at hp
      simpa using hp
    · rw [if_neg ha] at hwait
      have hab : r.semaphore.abort () = (false, r.semaphore) := by
        simp [Semaphore.abort, hwait]
      rw [hab]
      exact Balanced.wake ⟨h.max, ht, h.le, h.waiters, h.parked, h.asks⟩
  · exact h

/-! ## In-flight jobs -/

/-- Each entry has a serial number of its own, and its job was given to the processor under it. -/
structure Numbered (r : Runner δ) : Prop where
  nodup : (r.inFlight.map InFlightEntry.serial).Nodup
  invoked : ∀ e ∈ r.inFlight, r.invoked[e.serial]? = some e.job

/-- No job was dispatched or removed, and the lifecycle state is the same. -/
structure SameJobs (r r' : Runner δ) : Prop where
  inFlight : r'.inFlight = r.inFlight
  invoked : r'.invoked = r.invoked
  state : r'.state = r.state

variable {r' r'' : Runner δ}

theorem SameJobs.refl (r : Runner δ) : SameJobs r r := ⟨rfl, rfl, rfl⟩

theorem SameJobs.trans (h : SameJobs r r') (h' : SameJobs r' r'') : SameJobs r r'' :=
  ⟨h'.inFlight.trans h.inFlight, h'.invoked.trans h.invoked, h'.state.trans h.state⟩

theorem SameJobs.numbered (h : SameJobs r r') (hn : Numbered r) : Numbered r' := by
  refine ⟨?_, ?_⟩
  · rw [h.inFlight]
    exact hn.nodup
  · rw [h.inFlight, h.invoked]
    exact hn.invoked

theorem sameJobs_release (r : Runner δ) : SameJobs r r.release := by
  unfold Runner.release
  split <;> exact ⟨rfl, rfl, rfl⟩

theorem sameJobs_releasePermits (n : ℕ) (r : Runner δ) :
    SameJobs r (Runner.releasePermits n r) := by
  induction n generalizing r with
  | zero => exact SameJobs.refl r
  | succ n ih => exact (sameJobs_release r).trans (ih r.release)

theorem sameJobs_loopTop (r : Runner δ) : SameJobs r r.loopTop := by
  unfold Runner.loopTop
  split
  · split <;> exact ⟨rfl, rfl, rfl⟩
  · exact ⟨rfl, rfl, rfl⟩

theorem sameJobs_claimBatch (r : Runner δ) : SameJobs r r.claimBatch := by
  unfold Runner.claimBatch
  split
  · exact ⟨rfl, rfl, rfl⟩
  · have hs := sameJobs_release r
    exact ⟨hs.inFlight, hs.invoked, hs.state⟩

theorem sameJobs_waitForNotification (r : Runner δ) : SameJobs r r.waitForNotification := by
  unfold Runner.waitForNotification
  split <;> exact ⟨rfl, rfl, rfl⟩

theorem sameJobs_wake (r : Runner δ) : SameJobs r r.wake := by
  unfold Runner.wake
  split <;> exact ⟨rfl, rfl, rfl⟩

theorem sameJobs_resume (r : Runner δ) : SameJobs r (r.step .resume) := by
  simp only [Runner.step]
  split
  · exact sameJobs_claimBatch r
  · exact ⟨rfl, rfl, rfl⟩
  · exact sameJobs_loopTop r
  · exact SameJobs.refl r

theorem sameJobs_pollTimer (r : Runner δ) : SameJobs r r.pollTimer := by
  unfold Runner.pollTimer
  split <;> exact ⟨rfl, rfl, rfl⟩

/-- A stop leaves the jobs, and a runner that was started stays started. -/
theorem stopClaiming_jobs (r : Runner δ) :
    r.stopClaiming.inFlight = r.inFlight ∧ r.stopClaiming.invoked = r.invoked ∧
      (r.stopClaiming.state = .idle → r.state = .idle) := by
  unfold Runner.stopClaiming
  split
  · split
    · refine ⟨(sameJobs_wake _).inFlight, (sameJobs_wake _).invoked, fun hs => ?_⟩
      rw [(sameJobs_wake _).state] at hs
      cases hs
    · refine ⟨(sameJobs_wake _).inFlight, (sameJobs_wake _).invoked, fun hs => ?_⟩
      rw [(sameJobs_wake _).state] at hs
      cases hs
  · exact ⟨rfl, rfl, id⟩

/-- So does a start. -/
theorem start_jobs (r : Runner δ) : r.start.inFlight = r.inFlight ∧ r.start.invoked = r.invoked ∧
    r.start.state ≠ .idle := by
  unfold Runner.start
  split
  · refine ⟨(sameJobs_loopTop _).inFlight, (sameJobs_loopTop _).invoked, ?_⟩
    rw [(sameJobs_loopTop _).state]
    simp
  · rename_i hi
    exact ⟨rfl, rfl, hi⟩

theorem Numbered.dispatch (h : Numbered r) (c : ClaimResult δ) :
    Numbered (r.dispatch c) ∧ (r.dispatch c).invoked = r.invoked ++ c.healthy.toList ∧
      (r.dispatch c).state = r.state := by
  cases c with
  | corrupt jobId =>
    have hs : SameJobs r (r.dispatch (.corrupt jobId)) :=
      ⟨(sameJobs_release _).inFlight, (sameJobs_release _).invoked, (sameJobs_release _).state⟩
    exact ⟨hs.numbered h, by rw [hs.invoked]; simp [ClaimResult.healthy], hs.state⟩
  | job j =>
    have hlt : ∀ e ∈ r.inFlight, e.serial < r.invoked.length := fun e he =>
      (List.getElem?_eq_some_iff.mp (h.invoked e he)).1
    refine ⟨⟨?_, ?_⟩, rfl, rfl⟩
    · simp only [Runner.dispatch, List.map_append, List.map_cons, List.map_nil]
      refine List.nodup_append.mpr ⟨h.nodup, List.nodup_singleton _, ?_⟩
      intro a ha b hb hab
      obtain ⟨e, he, rfl⟩ := List.mem_map.mp ha
      have hlt := hlt e he
      have hb := List.mem_singleton.mp hb
      omega
    · intro e he
      simp only [Runner.dispatch] at he ⊢
      rcases List.mem_append.mp he with he | he
      · rw [List.getElem?_append_left (hlt e he)]
        exact h.invoked e he
      · rw [List.mem_singleton.mp he]
        simp

theorem Numbered.foldl_dispatch (h : Numbered r) (jobs : List (ClaimResult δ)) :
    Numbered (jobs.foldl Runner.dispatch r) ∧
      (jobs.foldl Runner.dispatch r).invoked =
        r.invoked ++ jobs.filterMap ClaimResult.healthy ∧
      (jobs.foldl Runner.dispatch r).state = r.state := by
  induction jobs generalizing r with
  | nil => exact ⟨h, by simp, rfl⟩
  | cons c jobs ih =>
    obtain ⟨h1, hi, hs⟩ := h.dispatch c
    obtain ⟨h2, hj, hs'⟩ := ih h1
    refine ⟨h2, ?_, hs'.trans hs⟩
    rw [List.foldl_cons, hj, hi, List.append_assoc]
    cases c <;> rfl

theorem Numbered.handlerSettled (h : Numbered r) (serial : ℕ) (settled : Settled) :
    Numbered (r.handlerSettled serial settled) := by
  refine ⟨?_, ?_⟩
  · have hmap : (r.handlerSettled serial settled).inFlight.map InFlightEntry.serial =
        r.inFlight.map InFlightEntry.serial := by
      simp only [Runner.handlerSettled, List.map_map]
      refine List.map_congr_left fun e _ => ?_
      simp only [Function.comp_apply]
      split <;> rfl
    rw [hmap]
    exact h.nodup
  · intro e he
    obtain ⟨e', he', rfl⟩ := List.mem_map.mp he
    have := h.invoked e' he'
    split <;> exact this

/-- A settled entry leaves, and no other. -/
theorem Numbered.length_filter (h : Numbered r) {e : InFlightEntry δ} (he : e ∈ r.inFlight) :
    (r.inFlight.filter fun x => x.serial ≠ e.serial).length + 1 = r.inFlight.length := by
  have hone : r.inFlight.countP (fun x => x.serial = e.serial) = 1 := by
    have hc := List.count_eq_one_of_mem h.nodup (List.mem_map_of_mem he)
    rw [List.count, List.countP_map] at hc
    rw [← hc]
    exact List.countP_congr fun x _ => by simp
  have hsum := r.inFlight.length_eq_countP_add_countP fun x => decide (x.serial = e.serial)
  rw [hone] at hsum
  rw [hsum, ← List.countP_eq_length_filter, Nat.add_comm]
  simp

theorem Numbered.settle (h : Numbered r) (e : InFlightEntry δ) :
    Numbered (r.settle e) ∧ (r.settle e).invoked = r.invoked ∧ (r.settle e).state = r.state := by
  unfold Runner.settle
  refine ⟨(sameJobs_release _).numbered ⟨?_, ?_⟩, (sameJobs_release _).invoked,
    (sameJobs_release _).state⟩
  · exact h.nodup.sublist (List.Sublist.map _ List.filter_sublist)
  · intro x hx
    exact h.invoked x (List.mem_of_mem_filter hx)

theorem Numbered.emit (h : Numbered r) (events : List (WorkerEvent δ)) :
    Numbered (r.emit events) := ⟨h.nodup, h.invoked⟩

theorem Numbered.acknowledged (h : Numbered r) (e : InFlightEntry δ)
    (reply : Except String AckResult) :
    Numbered (r.acknowledged e reply) ∧ (r.acknowledged e reply).invoked = r.invoked ∧
      (r.acknowledged e reply).state = r.state := by
  unfold Runner.acknowledged
  split
  · exact ⟨h, rfl, rfl⟩
  · exact (h.emit _).settle e

/-- A settled entry gives its permit back, or hands it to the waiting loop. -/
theorem Balanced.settle (h : Balanced N r) (hn : Numbered r) {e : InFlightEntry δ}
    (he : e ∈ r.inFlight) : Balanced N (r.settle e) := by
  have ht := h.taken
  have hle := h.le
  have hwait := h.waiters
  have hp := h.parked
  have hlen := hn.length_filter he
  unfold Runner.settle
  by_cases ha : r.loop = .acquiring
  · rw [if_pos ha] at hwait
    rw [ha] at ht hp
    simp only [Runner.release, Semaphore.release_cons hwait]
    refine ⟨h.max, ?_, hle, by simp, by simpa using hp, by simp⟩
    simp only [LoopPhase.held] at ht ⊢
    omega
  · rw [if_neg ha] at hwait
    simp only [Runner.release, Semaphore.release_nil hwait]
    refine ⟨h.max, ?_, ?_, ?_, hp, h.asks⟩
    · simp only
      omega
    · simp only
      omega
    · simp [ha, hwait]

/-- The waiting loop gets the permit of a settled entry. -/
theorem Balanced.settle_loop (h : Balanced N r) (e : InFlightEntry δ) :
    (r.settle e).loop = if r.loop = .acquiring then .granted else r.loop := by
  have hwait := h.waiters
  unfold Runner.settle
  by_cases ha : r.loop = .acquiring
  · rw [if_pos ha] at hwait ⊢
    simp only [Runner.release, Semaphore.release_cons hwait]
  · rw [if_neg ha] at hwait ⊢
    simp only [Runner.release, Semaphore.release_nil hwait]

theorem Balanced.emit (h : Balanced N r) (events : List (WorkerEvent δ)) :
    Balanced N (r.emit events) := ⟨h.max, h.taken, h.le, h.waiters, h.parked, h.asks⟩

theorem Balanced.acknowledged (h : Balanced N r) (hn : Numbered r) {e : InFlightEntry δ}
    (he : e ∈ r.inFlight) (reply : Except String AckResult) :
    Balanced N (r.acknowledged e reply) := by
  unfold Runner.acknowledged
  split
  · exact h
  · exact (h.emit _).settle (hn.emit _) he

end Runner

/-! ## The jobs in flight -/

/-- The jobs in flight, each with its serial number. -/
def Runner.entries (r : Runner δ) : List (JobData δ × ℕ) :=
  r.inFlight.map fun e => (e.job, e.serial)

/-- The inputs that neither carry a reply of a script nor settle a job. -/
def RunnerInput.Own : RunnerInput δ → Prop
  | .claimReply _ => False
  | .acknowledged _ _ => False
  | .rejected _ => False
  | _ => True

theorem RunnerInput.Own.admits {x : RunnerInput δ} (hx : x.Own) {r : Runner δ} : r.Admits x := by
  cases x <;> trivial

namespace Runner

variable {r r' : Runner δ}

theorem mem_entries {e : InFlightEntry δ} (he : e ∈ r.inFlight) : (e.job, e.serial) ∈ r.entries :=
  List.mem_map_of_mem (f := fun e => (e.job, e.serial)) he

theorem SameJobs.entries (h : SameJobs r r') : r'.entries = r.entries := by
  rw [Runner.entries, h.inFlight, Runner.entries]

theorem Numbered.serial_lt (h : Numbered r) {x : JobData δ × ℕ} (hx : x ∈ r.entries) :
    x.2 < r.invoked.length := by
  obtain ⟨e, he, rfl⟩ := List.mem_map.mp hx
  exact (List.getElem?_eq_some_iff.mp (h.invoked e he)).1

/-- Jobs with one serial number are one job. -/
theorem Numbered.entries_inj (h : Numbered r) {x y : JobData δ × ℕ} (hx : x ∈ r.entries)
    (hy : y ∈ r.entries) (hxy : x.2 = y.2) : x = y := by
  obtain ⟨e, he, rfl⟩ := List.mem_map.mp hx
  obtain ⟨e', he', rfl⟩ := List.mem_map.mp hy
  have h1 := h.invoked e he
  have h2 := h.invoked e' he'
  simp only at hxy
  rw [hxy, h2] at h1
  rw [Option.some.inj h1, hxy]

/-- A batch adds its healthy jobs, under the next serial numbers. -/
theorem foldl_dispatch_entries (jobs : List (ClaimResult δ)) (r : Runner δ) :
    (jobs.foldl Runner.dispatch r).entries =
      r.entries ++ (jobs.filterMap ClaimResult.healthy).zipIdx r.invoked.length := by
  induction jobs generalizing r with
  | nil => simp
  | cons c jobs ih =>
    rw [List.foldl_cons, ih]
    cases c with
    | corrupt jobId =>
      have hs : SameJobs r (r.dispatch (.corrupt jobId)) :=
        ⟨(sameJobs_release _).inFlight, (sameJobs_release _).invoked, (sameJobs_release _).state⟩
      rw [hs.entries, hs.invoked]
      rfl
    | job j => simp [Runner.dispatch, Runner.emit, Runner.entries, ClaimResult.healthy]

theorem onClaimReply_entries (n : ℕ) (jobs : List (ClaimResult δ)) :
    (r.onClaimReply n (.ok jobs)).entries =
      r.entries ++ (jobs.filterMap ClaimResult.healthy).zipIdx r.invoked.length := by
  cases jobs with
  | nil =>
    have hs := (sameJobs_releasePermits n r).trans (sameJobs_waitForNotification _)
    simpa [Runner.onClaimReply] using hs.entries
  | cons c jobs =>
    have hs := (sameJobs_releasePermits (n - (c :: jobs).length)
      ((c :: jobs).foldl Runner.dispatch r)).trans (sameJobs_loopTop _)
    rw [← foldl_dispatch_entries, ← hs.entries]
    rfl

/-- A settled entry takes its job out. -/
theorem settle_entries (r : Runner δ) (e : InFlightEntry δ) :
    (r.settle e).entries = r.entries.filter fun x => x.2 ≠ e.serial := by
  unfold Runner.settle
  rw [(sameJobs_release _).entries]
  simp only [Runner.entries, List.filter_map]
  rfl

theorem acknowledged_entries {e : InFlightEntry δ} (he : e.stage ≠ .handling)
    (reply : Except String AckResult) :
    (r.acknowledged e reply).entries = r.entries.filter fun x => x.2 ≠ e.serial := by
  unfold Runner.acknowledged
  split
  · rename_i hs
    exact absurd hs he
  · exact settle_entries _ e

theorem step_entries (r : Runner δ) {x : RunnerInput δ} (hx : x.Own) :
    (r.step x).entries = r.entries := by
  cases x with
  | start => rw [Runner.entries, Runner.step, (start_jobs r).1, Runner.entries]
  | resume => exact (sameJobs_resume r).entries
  | claimReply reply => exact hx.elim
  | wake => exact (sameJobs_wake r).entries
  | pollTimer => exact (sameJobs_pollTimer r).entries
  | stopClaiming => rw [Runner.entries, Runner.step, (stopClaiming_jobs r).1, Runner.entries]
  | finalize => rfl
  | handlerSettled serial settled =>
    simp only [Runner.entries, Runner.step, Runner.handlerSettled, List.map_map]
    refine List.map_congr_left fun e _ => ?_
    simp only [Function.comp_apply]
    split <;> rfl
  | acknowledged e reply => exact hx.elim
  | rejected e => exact hx.elim

end Runner

/-! ## Whole runs -/

/-- The jobs that an input brings to the runner, in order. -/
def RunnerInput.healthy : RunnerInput δ → List (JobData δ)
  | .claimReply (.ok jobs) => jobs.filterMap ClaimResult.healthy
  | _ => []

/-- One input of a runner. -/
def RunnerStep (r : Runner δ) (xs : List (RunnerInput δ)) (r' : Runner δ) : Prop :=
  ∃ x, xs = [x] ∧ r.Admits x ∧ r' = r.step x

namespace Runner

variable {r : Runner δ} {N : ℕ}

theorem Numbered.onClaimReply (hn : Numbered r) (n : ℕ)
    (reply : Except String (List (ClaimResult δ))) :
    Numbered (r.onClaimReply n reply) ∧
      (r.onClaimReply n reply).invoked = r.invoked ++ (RunnerInput.claimReply reply).healthy ∧
      (r.onClaimReply n reply).state = r.state := by
  rcases reply with e | jobs
  · have hs := sameJobs_releasePermits n r
    have hs' := sameJobs_waitForNotification
      ((Runner.releasePermits n r).emit [.onWorkerError .claim none])
    have h : SameJobs r (r.onClaimReply n (.error e)) :=
      ⟨hs'.inFlight.trans hs.inFlight, hs'.invoked.trans hs.invoked, hs'.state.trans hs.state⟩
    exact ⟨h.numbered hn, by rw [h.invoked]; exact (List.append_nil _).symm, h.state⟩
  · cases jobs with
    | nil =>
      have h : SameJobs r (r.onClaimReply n (.ok [])) :=
        (sameJobs_releasePermits n r).trans (sameJobs_waitForNotification _)
      exact ⟨h.numbered hn, by rw [h.invoked]; exact (List.append_nil _).symm, h.state⟩
    | cons c jobs =>
      obtain ⟨h1, hi, hst⟩ := hn.foldl_dispatch (c :: jobs)
      have h : SameJobs ((c :: jobs).foldl Runner.dispatch r)
          (r.onClaimReply n (.ok (c :: jobs))) :=
        (sameJobs_releasePermits _ _).trans (sameJobs_loopTop _)
      exact ⟨h.numbered h1, by rw [h.invoked, hi]; rfl, h.state.trans hst⟩

/-- What one input does to the jobs. -/
theorem Numbered.step (hn : Numbered r) {x : RunnerInput δ} (hx : r.Admits x) :
    Numbered (r.step x) ∧ (r.step x).invoked = r.invoked ++ x.healthy ∧
      ((r.step x).state = .idle → r.state = .idle) := by
  have hsame : ∀ {r'}, SameJobs r r' →
      Numbered r' ∧ r'.invoked = r.invoked ++ [] ∧ (r'.state = .idle → r.state = .idle) :=
    fun hs => ⟨hs.numbered hn, by rw [hs.invoked, List.append_nil], by rw [hs.state]; exact id⟩
  cases x with
  | start =>
    obtain ⟨hj, hi, hs⟩ := start_jobs r
    refine ⟨⟨?_, ?_⟩, ?_, fun h => absurd h hs⟩
    · rw [Runner.step, hj]
      exact hn.nodup
    · rw [Runner.step, hj, hi]
      exact hn.invoked
    · rw [Runner.step, hi]
      exact (List.append_nil _).symm
  | resume => exact hsame (sameJobs_resume r)
  | claimReply reply =>
    obtain ⟨n, hl, _⟩ := hx
    obtain ⟨h1, hi, hs⟩ := hn.onClaimReply n reply
    simp only [Runner.step, hl]
    exact ⟨h1, hi, by rw [hs]; exact id⟩
  | wake => exact hsame (sameJobs_wake r)
  | pollTimer => exact hsame (sameJobs_pollTimer r)
  | stopClaiming =>
    obtain ⟨hj, hi, hs⟩ := stopClaiming_jobs r
    refine ⟨⟨?_, ?_⟩, ?_, hs⟩
    · rw [Runner.step, hj]
      exact hn.nodup
    · rw [Runner.step, hj, hi]
      exact hn.invoked
    · rw [Runner.step, hi]
      exact (List.append_nil _).symm
  | finalize => exact ⟨⟨hn.nodup, hn.invoked⟩, (List.append_nil _).symm, fun h => by cases h⟩
  | handlerSettled serial settled =>
    exact ⟨hn.handlerSettled serial settled, (List.append_nil _).symm, id⟩
  | acknowledged e reply =>
    obtain ⟨h1, hi, hs⟩ := hn.acknowledged e reply
    refine ⟨h1, by rw [Runner.step, hi]; exact (List.append_nil _).symm, ?_⟩
    rw [Runner.step, hs]
    exact id
  | rejected e =>
    obtain ⟨h1, hi, hs⟩ := hn.settle e
    refine ⟨h1, by rw [Runner.step, Runner.rejected, hi]; exact (List.append_nil _).symm, ?_⟩
    rw [Runner.step, Runner.rejected, hs]
    exact id

/-- A runner that was not started has no loop. -/
def Fresh (r : Runner δ) : Prop := r.state = .idle → r.loop = .notStarted

theorem Fresh.step (hf : Fresh r) (h : Balanced N r) (hn : Numbered r) {x : RunnerInput δ}
    (hx : r.Admits x) : Fresh (r.step x) := by
  intro hs
  have hi := (hn.step hx).2.2 hs
  have hl := hf hi
  have hw : r.wakeResolve = false := by
    rw [← Bool.not_eq_true, h.parked, hl]
    simp
  have hwait : r.semaphore.waiters = [] := by rw [h.waiters, hl, if_neg (by simp)]
  cases x with
  | start => exact absurd hs (start_jobs r).2.2
  | claimReply reply =>
    obtain ⟨n, hc, _⟩ := hx
    rw [hl] at hc
    cases hc
  | finalize => cases hs
  | acknowledged e reply =>
    simp only [Runner.step, Runner.acknowledged]
    split
    · exact hl
    · simp [Runner.settle, Runner.release, Runner.emit, Semaphore.release_nil hwait, hl]
  | rejected e =>
    simp [Runner.step, Runner.rejected, Runner.settle, Runner.release,
      Semaphore.release_nil hwait, hl]
  | resume | wake | pollTimer | stopClaiming | handlerSettled =>
    simp [Runner.step, Runner.wake, Runner.pollTimer, Runner.stopClaiming,
      Runner.handlerSettled, hl, hw, hi]

theorem Balanced.start (h : Balanced N r) (hf : Fresh r) : Balanced N r.start := by
  unfold Runner.start
  split
  · rename_i hi
    have hl := hf hi
    have hh := h.holds (by simp [hl]) (by simp [hl])
    rw [hl] at hh
    exact Holds.loopTop ⟨hh.max, hh.taken, hh.le, hh.waiters, hh.unparked⟩
  · exact h

theorem Balanced.resume (h : Balanced N r) : Balanced N (r.step .resume) := by
  have hh := h.holds
  rcases hl : r.loop with _ | _ | _ | _ | n | _ | _ | _
  all_goals
    simp only [Runner.step, hl]
    first | exact h | skip
  · have hh := h.holds (by simp [hl]) (by simp [hl])
    rw [hl] at hh
    exact hh.claimBatch
  · have hh := h.holds (by simp [hl]) (by simp [hl])
    rw [hl] at hh
    exact Holds.balanced ⟨hh.max, hh.taken, hh.le, hh.waiters, hh.unparked⟩ (by simp) (by simp)
      (by simp)
  · have hh := h.holds (by simp [hl]) (by simp [hl])
    rw [hl] at hh
    exact hh.loopTop

theorem Balanced.step (h : Balanced N r) (hn : Numbered r) (hf : Fresh r) {x : RunnerInput δ}
    (hx : r.Admits x) : Balanced N (r.step x) := by
  cases x with
  | start => exact h.start hf
  | resume => exact h.resume
  | claimReply reply =>
    obtain ⟨n, hl, hlen⟩ := hx
    have hh := h.holds (by simp [hl]) (by simp [hl])
    rw [hl] at hh
    simp only [Runner.step, hl]
    exact hh.onClaimReply reply hlen
  | wake => exact h.wake
  | pollTimer => exact h.pollTimer
  | stopClaiming => exact h.stopClaiming
  | finalize => exact ⟨h.max, h.taken, h.le, h.waiters, h.parked, h.asks⟩
  | handlerSettled serial settled =>
    refine ⟨h.max, ?_, h.le, h.waiters, h.parked, h.asks⟩
    simpa [Runner.step, Runner.handlerSettled] using h.taken
  | acknowledged e reply => exact h.acknowledged hn hx.1 reply
  | rejected e => exact h.settle hn hx

end Runner

theorem Runner.new_loop {options : WorkerDefinitionOptions} {retention : QueueRetention}
    {r : Runner δ} (h : Runner.new options retention = .ok r) : r.loop = .notStarted := by
  unfold Runner.new Semaphore.new at h
  split at h
  · cases h
  · cases h
    rfl

theorem Runner.new_inFlight {options : WorkerDefinitionOptions} {retention : QueueRetention}
    {r : Runner δ} (h : Runner.new options retention = .ok r) : r.inFlight = [] := by
  unfold Runner.new Semaphore.new at h
  split at h
  · cases h
  · cases h
    rfl

/-- Every state of a runner keeps its books. -/
theorem runner_keeps_books {options : WorkerDefinitionOptions} {retention : QueueRetention}
    {r₀ r : Runner δ} {xs : List (RunnerInput δ)}
    (hnew : Runner.new options retention = .ok r₀) (h : Reaches RunnerStep r₀ xs r) :
    r.Balanced options.concurrency ∧ r.Numbered ∧ r.Fresh ∧
      r.invoked = xs.flatMap RunnerInput.healthy := by
  refine Reaches.invariant (P := fun xs r => r.Balanced options.concurrency ∧ r.Numbered ∧
    r.Fresh ∧ r.invoked = xs.flatMap RunnerInput.healthy) ?_ ?_ h
  · rw [Runner.new, Semaphore.new] at hnew
    split at hnew
    · cases hnew
    · cases hnew
      refine ⟨⟨rfl, rfl, Int.natCast_nonneg _, rfl, by simp, by simp⟩, ⟨List.nodup_nil, ?_⟩,
        fun _ => rfl, rfl⟩
      intro e he
      cases he
  · rintro xs r ys r' ⟨hb, hn, hf, hi⟩ ⟨x, rfl, hx, rfl⟩
    obtain ⟨hn', hi', -⟩ := hn.step hx
    refine ⟨hb.step hn hf hx, hn', hf.step hb hn hx, ?_⟩
    rw [hi', hi, List.flatMap_append]
    simp

/-- A state that a runner can come to. -/
def Runner.Reachable (r : Runner δ) : Prop :=
  ∃ options retention r₀ xs, Runner.new options retention = .ok r₀ ∧ Reaches RunnerStep r₀ xs r

theorem Runner.Reachable.step {r : Runner δ} (h : r.Reachable) {x : RunnerInput δ}
    (hx : r.Admits x) : (r.step x).Reachable := by
  obtain ⟨options, retention, r₀, xs, hnew, hr⟩ := h
  exact ⟨options, retention, r₀, xs ++ [x], hnew, hr.next ⟨x, rfl, hx, rfl⟩⟩

theorem Runner.Reachable.books {r : Runner δ} (h : r.Reachable) :
    ∃ N, r.Balanced N ∧ r.Numbered ∧ r.Fresh := by
  obtain ⟨options, retention, r₀, xs, hnew, hr⟩ := h
  obtain ⟨hb, hn, hf, -⟩ := runner_keeps_books hnew hr
  exact ⟨options.concurrency, hb, hn, hf⟩

/-- The serial number of the job whose promise an input settles. -/
def RunnerInput.settles : RunnerInput δ → Option ℕ
  | .acknowledged e _ => some e.serial
  | .rejected e => some e.serial
  | _ => none

/-- What one input does to the jobs in flight. -/
theorem Runner.Admits.entries {r : Runner δ} {x : RunnerInput δ} (hx : r.Admits x) :
    (r.step x).entries = (r.entries ++ x.healthy.zipIdx r.invoked.length).filter
      fun y => x.settles ≠ some y.2 := by
  have hown : x.Own → (r.step x).entries =
      (r.entries ++ x.healthy.zipIdx r.invoked.length).filter fun y => x.settles ≠ some y.2 := by
    intro ho
    rw [Runner.step_entries r ho]
    cases x <;> first | exact ho.elim | simp [RunnerInput.settles, RunnerInput.healthy]
  cases x with
  | claimReply reply =>
    obtain ⟨n, hl, -⟩ := hx
    simp only [Runner.step, hl, RunnerInput.settles]
    rcases reply with e | jobs
    · have hs := (sameJobs_releasePermits n r).inFlight
      have hs' := (sameJobs_waitForNotification
        ((Runner.releasePermits n r).emit [.onWorkerError .claim none])).inFlight
      simp [Runner.entries, Runner.onClaimReply, hs', show (Runner.emit (Runner.releasePermits n r)
        [.onWorkerError .claim none]).inFlight = r.inFlight from hs, RunnerInput.healthy]
    · simp [Runner.onClaimReply_entries, RunnerInput.healthy]
  | acknowledged e reply =>
    rw [Runner.step, Runner.acknowledged_entries hx.2]
    simp [RunnerInput.settles, RunnerInput.healthy, eq_comm]
  | rejected e =>
    rw [Runner.step, Runner.rejected, Runner.settle_entries]
    simp [RunnerInput.settles, RunnerInput.healthy, eq_comm]
  | _ => exact hown trivial

/-- The jobs in flight are those that were given to the processor and whose
promise has not settled, in order. -/
theorem entries_are_unsettled {options : WorkerDefinitionOptions} {retention : QueueRetention}
    {r₀ r : Runner δ} {xs : List (RunnerInput δ)}
    (hnew : Runner.new options retention = .ok r₀) (h : Reaches RunnerStep r₀ xs r) :
    (r.entries = r.invoked.zipIdx.filter fun y => y.2 ∉ xs.filterMap RunnerInput.settles) ∧
      ∀ k ∈ xs.filterMap RunnerInput.settles, k < r.invoked.length := by
  have hkeep : r.Numbered ∧
      (r.entries = r.invoked.zipIdx.filter fun y => y.2 ∉ xs.filterMap RunnerInput.settles) ∧
      ∀ k ∈ xs.filterMap RunnerInput.settles, k < r.invoked.length := by
    refine Reaches.invariant (P := fun xs r => r.Numbered ∧
      (r.entries = r.invoked.zipIdx.filter fun y => y.2 ∉ xs.filterMap RunnerInput.settles) ∧
      ∀ k ∈ xs.filterMap RunnerInput.settles, k < r.invoked.length) ?_ ?_ h
    · refine ⟨(runner_keeps_books hnew .start).2.1, ?_, fun k hk => by cases hk⟩
      rw [(runner_keeps_books hnew .start).2.2.2, Runner.entries, Runner.new_inFlight hnew]
      rfl
    · rintro xs r _ _ ⟨hn, he, hlt⟩ ⟨x, rfl, hx, rfl⟩
      obtain ⟨hn', hi, -⟩ := hn.step hx
      refine ⟨hn', ?_, ?_⟩
      · rw [hx.entries, hi, List.zipIdx_append, List.filter_append, List.filter_append, he,
          List.filter_filter]
        congr 1
        · refine List.filter_congr fun y _ => ?_
          rcases hs : x.settles with _ | k <;> simp [hs, and_comm, eq_comm]
        · -- the new serial numbers have not settled
          rw [Nat.zero_add]
          refine List.filter_congr fun y hy => ?_
          have hle := List.le_snd_of_mem_zipIdx hy
          have hold : y.2 ∉ xs.filterMap RunnerInput.settles := fun hm => by
            have := hlt _ hm
            omega
          rcases hs : x.settles with _ | k <;>
            simp only [List.filterMap_append, List.mem_append, hold, List.filterMap_cons, hs,
              List.filterMap_nil, List.mem_singleton, List.not_mem_nil] <;> simp [eq_comm]
      · intro k hk
        rw [hi, List.length_append]
        rw [List.filterMap_append] at hk
        rcases List.mem_append.mp hk with hk | hk
        · have := hlt k hk
          omega
        · have hk' : k < r.invoked.length := by
            cases x with
            | acknowledged e reply =>
              rw [List.mem_singleton.mp hk]
              exact hn.serial_lt (Runner.mem_entries hx.1)
            | rejected e =>
              rw [List.mem_singleton.mp hk]
              exact hn.serial_lt (Runner.mem_entries hx)
            | _ => cases hk
          omega
  exact hkeep.2

/-- The processors that run. -/
def Runner.executing (r : Runner δ) : ℕ :=
  r.inFlight.countP fun e => decide (e.stage = .handling)

/-- The claim loop neither leaks nor over-spends permits. In every state the
taken permits are those of the in-flight jobs and those that the loop holds,
no more processors run than there are permits, each healthy entry of a reply
was given to the processor once and in order, and is in flight until its promise
settles, a parked loop holds nothing, and after the end of the loop and of the
last job all permits are free. -/
theorem the_claim_loop_keeps_its_permits (options : WorkerDefinitionOptions)
    (retention : QueueRetention) (r₀ r : Runner δ) (xs : List (RunnerInput δ))
    (hnew : Runner.new options retention = .ok r₀) (h : Reaches RunnerStep r₀ xs r) :
    r.semaphore.current = r.inFlight.length + r.loop.held ∧
    r.executing ≤ options.concurrency ∧
    r.invoked = xs.flatMap RunnerInput.healthy ∧
    (r.entries = r.invoked.zipIdx.filter fun x => x.2 ∉ xs.filterMap RunnerInput.settles) ∧
    (r.loop = .parked → r.semaphore.current = r.inFlight.length) ∧
    (r.loop = .exited → (∀ k < r.invoked.length, k ∈ xs.filterMap RunnerInput.settles) →
      r.inFlight = [] ∧ r.semaphore.available = options.concurrency) := by
  obtain ⟨hb, hn, hf, hi⟩ := runner_keeps_books hnew h
  have hent := (entries_are_unsettled hnew h).1
  have ht := hb.taken
  have hle := hb.le
  refine ⟨ht, ?_, hi, hent, ?_, ?_⟩
  · have hex : r.executing ≤ r.inFlight.length := List.countP_le_length
    omega
  · intro hl
    rw [ht, hl]
    simp [LoopPhase.held]
  · intro hl hall
    have hnone : r.entries = [] := by
      rw [hent, List.filter_eq_nil_iff]
      intro x hx
      have hlt := List.snd_lt_of_mem_zipIdx hx
      simpa using hall x.2 (by simpa using hlt)
    have he : r.inFlight = [] := List.map_eq_nil_iff.mp hnone
    refine ⟨he, ?_⟩
    rw [hl, he] at ht
    rw [Semaphore.available, hb.max, ht]
    simp [LoopPhase.held]

/-- Two permits, and the default batch cap. -/
def sampleRunner : Runner String where
  leaseMs := .ofNat 30000
  claimBatchCap := Double.min (.ofNat 64) (Double.max (.ofNat 1) (.ofNat 16))
  retention := ⟨⟨.delete, -1, -1⟩, ⟨.keep, -1, -1⟩⟩
  semaphore := { max := 2 }

/-- A job for the processor. -/
def sampleClaim : JobData String where
  id := "j"
  queueId := "mail"
  status := .active
  data := "{}"
  numeric := fun _ => none
  lastRequeueReason := none
  failureKind := none
  failedReason := none
  lastError := none
  lockToken := some "t"

/-- Of a batch of two, one entry is corrupt and the other runs. After a failed
claim call, the acknowledgement of the job and a stop both permits are back. -/
theorem sample_batch_is_dispatched : ∃ r : Runner String,
    r.invoked = [sampleClaim] ∧ r.loop = .exited ∧ r.semaphore.available = 2 := by
  have h1 : Reaches RunnerStep sampleRunner _ _ :=
    Reaches.start.next ⟨.start, rfl, trivial, rfl⟩
  have h2 := h1.next ⟨.resume, rfl, trivial, rfl⟩
  have h3 := h2.next ⟨.claimReply (.ok [.corrupt "x", .job sampleClaim]), rfl,
    ⟨2, by decide +kernel, fun _ hj => by cases hj; exact Nat.le_refl 2⟩, rfl⟩
  have h4 := h3.next ⟨.resume, rfl, trivial, rfl⟩
  have h5 := h4.next ⟨.claimReply (.error "lost"), rfl,
    ⟨1, by decide +kernel, fun _ hj => by cases hj⟩, rfl⟩
  have h6 := h5.next ⟨.handlerSettled 0 .returned, rfl, trivial, rfl⟩
  have h7 := h6.next ⟨.acknowledged ⟨0, sampleClaim, .acknowledging .returned⟩ (.ok .completed),
    rfl, ⟨List.mem_singleton.mpr rfl, by simp⟩, rfl⟩
  have h8 := h7.next ⟨.stopClaiming, rfl, trivial, rfl⟩
  have h9 := h8.next ⟨.resume, rfl, trivial, rfl⟩
  have h := the_claim_loop_keeps_its_permits { concurrency := 2 } sampleRunner.retention
    sampleRunner _ _ rfl h9
  have hexit := h.2.2.2.2.2 (by decide +kernel)
  refine ⟨_, h.2.2.1, by decide +kernel, (hexit fun k hk => ?_).2⟩
  obtain rfl : k = 0 := Nat.lt_one_iff.mp hk
  decide

end Panqueue
