-- A job and a dead worker. One runner with its sweep, on one queue and under one
-- clock: what a dead worker held is claimed again, or fails as stalled, in time.
import Panqueue.SweepTimer
import Panqueue.WaitingTime

namespace Panqueue

variable {δ : Type}

/-! ## The system -/

/-- A runner with its sweep. -/
structure Manned (δ : Type) where
  occupied : Occupied δ
  sweeping : Sweeping

variable (sha1hex : String → String) (parse : String → Except String δ) (poll handle : ℕ)
  (late : Lateness) (v : StalledRecoverySweep) (lateSweep : Lateness)

/-- One step of both, or of one of them while the other rests. A call of the one is
a call of someone else for the other. -/
structure MannedStep (s : Manned δ) (ops : List (Call × RedisTime)) (s' : Manned δ) : Prop where
  occupied : OccupiedStep sha1hex parse poll handle late s.occupied ops s'.occupied ∨
    ops = [] ∧ s'.occupied = s.occupied
  sweeping : SweepStep sha1hex v lateSweep s.sweeping ops s'.sweeping ∨
    ops = [] ∧ s'.sweeping = s.sweeping
  queue : s'.occupied.polling.queue = s'.sweeping.queue
  clock : s'.occupied.polling.now = s'.sweeping.now

variable {sha1hex parse poll handle late v lateSweep} {s s' s₀ : Manned δ}
  {ops before : List (Call × RedisTime)}

/-! ## The parts of a run -/

theorem SweepStep.now_le {s s' : Sweeping} (h : SweepStep sha1hex v lateSweep s ops s') :
    s'.now ≤ s.now + 1 := by
  cases h <;> simp

theorem MannedStep.now_le
    (h : MannedStep sha1hex parse poll handle late v lateSweep s ops s') :
    s'.sweeping.now ≤ s.sweeping.now + 1 := by
  rcases h.sweeping with hst | ⟨-, hsame⟩
  · exact hst.now_le
  · rw [hsame]
    exact Nat.le_succ _

theorem Manned.occupied_run
    (h : Reaches (MannedStep sha1hex parse poll handle late v lateSweep) s ops s') :
    Reaches (OccupiedStep sha1hex parse poll handle late) s.occupied ops s'.occupied :=
  h.part Manned.occupied fun _ _ _ hst => hst.occupied

theorem Manned.sweeping_run
    (h : Reaches (MannedStep sha1hex parse poll handle late v lateSweep) s ops s') :
    Reaches (SweepStep sha1hex v lateSweep) s.sweeping ops s'.sweeping :=
  h.part Manned.sweeping fun _ _ _ hst => hst.sweeping

/-- The loop came to its await in the past. -/
theorem PollStep.since_le {s s' : Polling δ} (h : PollStep sha1hex parse poll late s ops s')
    (hs : s.since ≤ s.now) : s'.since ≤ s'.now := by
  have htake : ∀ x : RunnerInput δ, (s.take x).since ≤ (s.take x).now := by
    intro x
    unfold Polling.take
    dsimp only
    split
    · exact hs
    · exact Nat.le_refl _
  cases h with
  | call => exact hs
  | runner x => exact htake x
  | pollTimer => exact htake _
  | claim => exact Nat.le_refl _
  | reply => exact htake _
  | failed => exact htake _
  | waited => exact Nat.le_succ_of_le hs

theorem Occupied.Timely.run {s s' : Occupied δ} (h : s.Timely poll handle late)
    (hs : s.polling.since ≤ s.polling.now)
    (hrun : Reaches (OccupiedStep sha1hex parse poll handle late) s ops s') :
    s'.Timely poll handle late ∧ s'.polling.since ≤ s'.polling.now := by
  induction hrun with
  | start => exact ⟨h, hs⟩
  | next _ hst ih => exact ⟨ih.1.step hst, hst.step.since_le ih.2⟩

/-- The parts have one queue and one clock, as the step has it. -/
theorem Manned.agree_run
    (h : Reaches (MannedStep sha1hex parse poll handle late v lateSweep) s ops s')
    (hqueue : s.occupied.polling.queue = s.sweeping.queue)
    (hclock : s.occupied.polling.now = s.sweeping.now) :
    s'.occupied.polling.queue = s'.sweeping.queue ∧
      s'.occupied.polling.now = s'.sweeping.now := by
  induction h with
  | start => exact ⟨hqueue, hclock⟩
  | next _ hst _ => exact ⟨hst.queue, hst.clock⟩

/-! ## What becomes of the job -/

variable {i token : String}

/-- A job that a call claimed has a claim among its acts. -/
theorem claim_of_departs {q : Queue} {op : Call × RedisTime} (hq : Sound q)
    (hop : op.1.LeaseIsNumber) (hi : i ∈ departures (op, (exec sha1hex op q).1)) :
    ∃ e ∈ actsOf i (op, (exec sha1hex op q).1), e.isClaim = true := by
  obtain ⟨call, t⟩ := op
  cases call with
  | claimGlobalBatch a =>
    obtain ⟨ps, d, hd, hreply, -, hps⟩ := exec_claim_sound sha1hex (t := t) hop hq
    rw [hreply] at hi ⊢
    change i ∈ (ps.map Prod.snd).filterMap ClaimEntry.jobId at hi
    rw [filterMap_of_map (claimed_ids sha1hex hps)] at hi
    obtain ⟨x, hx, rfl⟩ := List.mem_map.mp hi
    obtain ⟨j, hj⟩ := hps x hx
    have hacts := hj.acts (k := x.1) hd
    rw [if_pos rfl] at hacts
    refine ⟨.claim (issued sha1hex x.1 t.now (j.runs + 1)) t.now (.val d), ?_, rfl⟩
    refine List.mem_flatMap.mpr ⟨x.2, List.mem_map_of_mem hx, ?_⟩
    rw [hacts]
    exact List.mem_singleton_self _
  | _ => cases hi

theorem claim_of_claimedAfter (hl : LeasesAreNumbers (before ++ ops))
    (hi : i ∈ claimedAfter sha1hex before ops) :
    ∃ e ∈ history i (Machine.trace (exec sha1hex) (run sha1hex before) ops), e.isClaim = true := by
  obtain ⟨⟨op, r⟩, hx, hdep⟩ := List.mem_flatMap.mp hi
  obtain ⟨as, bs, htrace⟩ := List.append_of_mem hx
  have hops : (Machine.trace (exec sha1hex) (run sha1hex before) ops).map Prod.fst = ops :=
    Machine.trace_map_fst _ _
  rw [htrace, List.map_append, List.map_cons] at hops
  have hr := Machine.reply_of_trace htrace
  rw [← run_append] at hr
  rw [← hops, ← List.append_assoc] at hl
  have hop : op.1.LeaseIsNumber := hl op (List.mem_append_right _ List.mem_cons_self)
  rw [hr] at hdep
  obtain ⟨e, he, hclaim⟩ := claim_of_departs (sound_run sha1hex hl.left) hop hdep
  rw [← hr] at he
  exact ⟨e, List.mem_flatMap.mpr ⟨(op, r), hx, he⟩, hclaim⟩

/-- A job that a sweep took, and that was not claimed and did not end since, waits. -/
theorem waits_after_sweep {p p' : Place} {es : List Act} {issue : ℕ → ℕ → String}
    (h : Reaches (JobStep issue) p es p') (hs : ∃ e ∈ es, e.OfSweep)
    (hno : ∀ e ∈ es, e.isClaim = false ∧ ¬ e.EndsJob) : 0 < (p'.sight i).waits := by
  have hcount := reaches_waits (i := i) h
  have hclaims : es.countP Act.isClaim = 0 := by
    rw [List.countP_eq_zero]
    exact fun e he => by simp [(hno e he).1]
  have harrives : 0 < es.countP Act.arrives := by
    obtain ⟨e, he, hsweep⟩ := hs
    refine List.countP_pos_iff.mpr ⟨e, he, ?_⟩
    cases e with
    | stall => rfl
    | stallOut => exact absurd trivial (hno _ he).2
    | _ => cases hsweep
  omega

/-- A job outlives its worker. Its lease has run out and nobody presents its token any
more: then a runner with its sweep has it claimed again in time, whatever others call
meanwhile with leases of a millisecond or more, unless the sweep ends it as stalled.
The sweep needs `n` batches, each in its interval, and what failed besides; then the job
waits its rounds. Only a moment at which the active jobs reach the stored limit can
prevent it. -/
theorem a_job_outlives_its_worker {pollInterval : Option Double} {m n w : ℕ}
    (hstart : s₀.occupied.Timely (pollDelay pollInterval) handle late)
    (hsince : s₀.occupied.polling.since ≤ s₀.occupied.polling.now)
    (hq : s₀.occupied.polling.queue = run sha1hex before)
    (hsweeping : s₀.sweeping = .start (run sha1hex before) s₀.occupied.polling.now)
    (hl : LeasesAreNumbers before) (hon : v.enabled = true) (hm : m ≤ s₀.occupied.polling.now)
    (hclock : m + 1 < 2 ^ 53)
    (hbatch : ((run sha1hex before).overdue m).length ≤ v.batchSize * n)
    (hi : i ∈ (run sha1hex before).overdue m) (ht : (run sha1hex before).lockToken i = some token)
    (hdead : ∀ op ∈ ops, op.1.presents ≠ some (i, token))
    (hw : ∀ pre post, ops = pre ++ post → (run sha1hex (before ++ pre)).waiting.length ≤ w)
    (hrun : Reaches
      (MannedStep sha1hex parse (pollDelay pollInterval) handle late v lateSweep) s₀ ops s)
    (hlate : s₀.occupied.polling.now + (n + lateSweep.failures) * (v.interval + lateSweep.delay) +
      lateSweep.delay + 1 +
      w * ((late.failures + 1) * claimRound (pollDelay pollInterval) handle late.delay) <
        s.occupied.polling.now) :
    (∃ e ∈ history i (Machine.trace (exec sha1hex) (run sha1hex before) ops),
      e.isClaim = true ∨ e.EndsJob) ∨
    ∃ pre post, ops = pre ++ post ∧ ∃ limit ∈ (run sha1hex (before ++ pre)).limit,
      ¬ .ofNat (run sha1hex (before ++ pre)).active.card < limit := by
  have hqueue₀ : s₀.occupied.polling.queue = s₀.sweeping.queue := by
    rw [hq, hsweeping]
    rfl
  have hclock₀ : s₀.occupied.polling.now = s₀.sweeping.now := by
    rw [hsweeping]
    rfl
  have hnow := (Manned.agree_run hrun hqueue₀ hclock₀).2
  have hall := Manned.sweeping_run hrun
  rw [hsweeping] at hall
  obtain ⟨-, hops, -⟩ := Sweeping.swept_in_time hl hon hm hclock hall hbatch (by omega)
  -- the moment after the sweep
  obtain ⟨pre, post, u, rfl, hpre, hpost, hu⟩ := hrun.passes
    (n := s₀.occupied.polling.now + (n + lateSweep.failures) * (v.interval + lateSweep.delay) +
      lateSweep.delay + 1) (fun _ _ _ hst => hst.now_le) (by omega) (by omega)
  have hswept := Manned.sweeping_run hpre
  rw [hsweeping] at hswept
  obtain ⟨hqueue, hes, hempty⟩ := Sweeping.swept_in_time hl hon hm hclock hswept hbatch (by omega)
  obtain ⟨hqueue', hclock'⟩ := Manned.agree_run hpre hqueue₀ hclock₀
  have htaken := abandoned_is_swept hl hes (hqueue ▸ hempty) hi ht fun op hop =>
    hdead op (List.mem_append_left _ hop)
  have hhistory : history i (Machine.trace (exec sha1hex) (run sha1hex before) (pre ++ post)) =
      history i (Machine.trace (exec sha1hex) (run sha1hex before) pre) ++
        history i (Machine.trace (exec sha1hex) (run sha1hex (before ++ pre)) post) := by
    rw [Machine.trace_append, history_append, run_append]
  by_cases hdone : ∃ e ∈ history i (Machine.trace (exec sha1hex) (run sha1hex before) pre),
      e.isClaim = true ∨ e.EndsJob
  · left
    obtain ⟨e, he, h⟩ := hdone
    rw [hhistory]
    exact ⟨e, List.mem_append_left _ he, h⟩
  · -- it waits
    obtain ⟨p, hp⟩ := sound_run sha1hex hl i
    obtain ⟨p', ⟨-, hp'⟩, hsteps⟩ := finish_refines sha1hex (sound_run sha1hex hl) hes hp
    have hwaits : 0 < (p'.sight i).waits := by
      refine waits_after_sweep hsteps htaken fun e he =>
        ⟨?_, fun hends => hdone ⟨e, he, .inr hends⟩⟩
      rw [← Bool.not_eq_true]
      exact fun hclaim => hdone ⟨e, he, .inl hclaim⟩
    rw [← hp'.waits, ← run_append, List.count_pos_iff, ← List.mem_reverse] at hwaits
    obtain ⟨k, hk⟩ := List.getElem?_of_mem hwaits
    have hkw : k + 1 ≤ w := by
      obtain ⟨hlt, -⟩ := List.getElem?_eq_some_iff.mp hk
      have hlen := hw pre post rfl
      rw [List.length_reverse] at hlt
      omega
    have hrounds := Nat.mul_le_mul_right
      ((late.failures + 1) * claimRound (pollDelay pollInterval) handle late.delay) hkw
    rw [Nat.add_one_mul] at hrounds
    obtain ⟨htimely, hsince'⟩ := hstart.run hsince (Manned.occupied_run hpre)
    have hnumbers : LeasesAreNumbers (before ++ pre ++ post) := by
      intro op hop
      rw [List.append_assoc] at hop
      rcases List.mem_append.mp hop with hop | hop
      · exact hl op hop
      · exact hops op hop
    rcases (htimely.first hsince').claims (hqueue'.trans hqueue) hnumbers hk
      (Manned.occupied_run hpost) (by omega) with hclaimed | ⟨pre', post', hsplit, hlimit⟩
    · left
      obtain ⟨e, he, hclaim⟩ := claim_of_claimedAfter hnumbers hclaimed
      rw [hhistory]
      exact ⟨e, List.mem_append_right _ he, .inl hclaim⟩
    · right
      refine ⟨pre ++ pre', post', by rw [hsplit, List.append_assoc], ?_⟩
      rw [← List.append_assoc]
      exact hlimit

/-- One job that may not stall, claimed at 2000 ms for 30 seconds. -/
def sampleLast : List (Call × RedisTime) :=
  [(.enqueue { sampleJob with maxStalls := .ofNat 0 }, ⟨1, 0⟩),
    (.claimGlobalBatch ⟨.ofNat 30000, 1⟩, ⟨2, 0⟩)]

/-- The calls of the sample sweep after that. -/
def sampleSweeps : List (Call × RedisTime) :=
  [(sampleSweeper.recover, ⟨32, 1000⟩), (sampleSweeper.recover, ⟨32, 2000⟩)]

/-- The sample runner polls once in a second. -/
def sampleManned : Manned String where
  occupied :=
    { polling := { samplePolling with queue := run id sampleLast, now := 32000, since := 32000 }
      entered := fun _ => 0 }
  sweeping := .start (run id sampleLast) 32000

theorem sample_sweep_works : ∃ s,
    Reaches (MannedStep id Except.ok (pollDelay (some (.ofNat 1000))) 0 ⟨0, 0⟩ sampleSweeper ⟨0, 0⟩)
      sampleManned sampleSweeps s ∧ s.occupied.polling.now = 32003 := by
  have hpoll : pollDelay (some (.ofNat 1000)) = 1000 := by decide +kernel
  have hi : sampleSweeper.interval = 1 := by decide +kernel
  have hon : sampleSweeper.enabled = true := by decide +kernel
  have whole : ∀ {q : Queue}, q.limit = none → q.LimitIsWhole := by
    intro q hq
    unfold Queue.LimitIsWhole
    rw [hq]
    exact fun limit hlimit => by cases hlimit
  have both : ∀ {p p' : Polling String} {b b' : Sweeping} {ops : List (Call × RedisTime)},
      PollStep id Except.ok (pollDelay (some (.ofNat 1000))) ⟨0, 0⟩ p ops p' →
      SweepStep id sampleSweeper ⟨0, 0⟩ b ops b' → p'.runner.inFlight.isEmpty = true →
      p'.queue = b'.queue → p'.now = b'.now →
      MannedStep id Except.ok (pollDelay (some (.ofNat 1000))) 0 ⟨0, 0⟩ sampleSweeper ⟨0, 0⟩
        ⟨⟨p, fun _ => 0⟩, b⟩ ops ⟨⟨p', fun _ => 0⟩, b'⟩ :=
    fun hp hb hnone hq hnow => ⟨.inl (.idle hp hnone), .inl hb, hq, hnow⟩
  have alone : ∀ {a : Occupied String} {b b' : Sweeping},
      SweepStep id sampleSweeper ⟨0, 0⟩ b [] b' → a.polling.queue = b'.queue →
      a.polling.now = b'.now →
      MannedStep id Except.ok (pollDelay (some (.ofNat 1000))) 0 ⟨0, 0⟩ sampleSweeper ⟨0, 0⟩
        ⟨a, b⟩ [] ⟨a, b'⟩ :=
    fun hb hq hnow => ⟨.inr ⟨rfl, rfl⟩, .inl hb, hq, hnow⟩
  have r1 := Reaches.single (both (p := sampleManned.occupied.polling)
    (.waited _ (by rw [hpoll]; exact .inr (by decide +kernel)))
    (.waited sampleManned.sweeping
      ⟨fun _ => show 32001 ≤ 32000 + sampleSweeper.interval + 0 by omega,
        fun x hx => absurd hx List.not_mem_nil⟩)
    (by decide +kernel) rfl rfl)
  have r2 := r1.next (alone (.timer _ hon
    (show 32000 + sampleSweeper.interval ≤ 32001 by omega)) rfl rfl)
  have r3 := r2.next (both (.call _ (sampleSweeper.recover, ⟨32, 1000⟩) (whole (by decide +kernel)))
    (.swept _ (1, 32001) (by decide) ⟨32, 1000⟩ rfl) (by decide +kernel) rfl rfl)
  have r4 := r3.next (both (.waited _ (by rw [hpoll]; exact .inr (by decide +kernel)))
    (.waited _ ⟨fun _ => show 32002 ≤ 32001 + sampleSweeper.interval + 0 by omega,
      fun x hx => absurd hx List.not_mem_nil⟩) (by decide +kernel) rfl rfl)
  have r5 := r4.next (alone (.timer _ hon
    (show 32001 + sampleSweeper.interval ≤ 32002 by omega)) rfl rfl)
  have r6 := r5.next (both (.call _ (sampleSweeper.recover, ⟨32, 2000⟩) (whole (by decide +kernel)))
    (.swept _ (2, 32002) (by decide) ⟨32, 2000⟩ rfl) (by decide +kernel) rfl rfl)
  have r7 := r6.next (both (.waited _ (by rw [hpoll]; exact .inr (by decide +kernel)))
    (.waited _ ⟨fun _ => show 32003 ≤ 32002 + sampleSweeper.interval + 0 by omega,
      fun x hx => absurd hx List.not_mem_nil⟩) (by decide +kernel) rfl rfl)
  exact ⟨_, r7, rfl⟩

/-- The sweep ends it: no call of anyone else came. -/
theorem sample_job_outlives_its_worker :
    ∃ e ∈ history "j" (Machine.trace (exec id) (run id sampleLast) sampleSweeps),
      e.isClaim = true ∨ e.EndsJob := by
  obtain ⟨s, hrun, hnow⟩ := sample_sweep_works
  have hoverdue : (run id sampleLast).overdue 32000 = ["j"] := by
    rw [Queue.overdue_eq]
    decide +kernel
  have hlate : sampleManned.occupied.polling.now +
      (1 + 0) * (sampleSweeper.interval + 0) + 0 + 1 +
      0 * ((0 + 1) * claimRound (pollDelay (some (.ofNat 1000))) 0 0) <
        s.occupied.polling.now := by
    rw [hnow]
    decide +kernel
  refine (a_job_outlives_its_worker (n := 1) (w := 0)
    (sample_runner_is_timely (by decide +kernel) 32000 fun _ => 0) (Nat.le_refl _) rfl rfl
    (by decide) (by decide +kernel) (Nat.le_refl 32000) (by norm_num) ?_ ?_
    (show _ = some "j:2000:1" by decide +kernel) ?_ ?_ hrun hlate).resolve_right ?_
  · rw [hoverdue]
    exact Nat.le_refl _
  · rw [hoverdue]
    exact List.mem_singleton_self _
  · intro op hop
    rcases List.mem_cons.mp hop with rfl | hop
    · exact fun h => by cases h
    · rw [List.mem_singleton.mp hop]
      exact fun h => by cases h
  · intro pre post hops
    exact forall_prefix (P := fun pre => (run id (sampleLast ++ pre)).waiting.length ≤ 0)
      (by decide +kernel) hops
  · rintro ⟨pre, post, hops, limit, hlimit, -⟩
    have hnone : (run id (sampleLast ++ pre)).limit = none :=
      forall_prefix (P := fun pre => (run id (sampleLast ++ pre)).limit = none)
        (by decide +kernel) hops
    rw [hnone] at hlimit
    cases hlimit

end Panqueue
