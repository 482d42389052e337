-- How long a job waits. A runner whose processors and calls take bounded time
-- claims every waiting job in time, whatever others call meanwhile.
import Panqueue.Arrivals
import Panqueue.Polling

namespace Panqueue

variable {δ : Type}

/-! ## The system -/

/-- A polling runner, and the time at which each job in flight came to its stage,
by its serial number. -/
structure Occupied (δ : Type) where
  polling : Polling δ
  entered : ℕ → ℕ

/-- How long a job stays at its stage, at most. -/
def JobStage.stay (handle delay : ℕ) : JobStage → ℕ
  | .handling => handle
  | .acknowledging _ => delay

/-- No processor takes longer than `handle`, and no acknowledgement longer than a delay. -/
def Occupied.Prompt (handle : ℕ) (late : Lateness) (s : Occupied δ) : Prop :=
  ∀ e ∈ s.polling.runner.inFlight,
    s.polling.now ≤ s.entered e.serial + e.stage.stay handle late.delay

variable (sha1hex : String → String) (parse : String → Except String δ) (poll handle : ℕ)
  (late : Lateness)

/-- A step of the polling runner. What is new in flight comes to its stage now. -/
structure OccupiedStep (s : Occupied δ) (ops : List (Call × RedisTime)) (s' : Occupied δ) :
    Prop where
  step : PollStep sha1hex parse poll late s.polling ops s'.polling
  stays : ∀ e ∈ s'.polling.runner.inFlight, e ∈ s.polling.runner.inFlight →
    s'.entered e.serial = s.entered e.serial
  enters : ∀ e ∈ s'.polling.runner.inFlight, e ∉ s.polling.runner.inFlight →
    s'.entered e.serial = s'.polling.now
  prompt : s'.Prompt handle late

/-! ## What an input does to the jobs in flight and to the loop -/

namespace Runner

variable {r : Runner δ} {N : ℕ} {x : RunnerInput δ}

/-- But for a claim reply, what comes to a stage comes from its processor. -/
theorem entry_step (hx : ∀ reply, x ≠ .claimReply reply) {e : InFlightEntry δ}
    (he : e ∈ (r.step x).inFlight) : e ∈ r.inFlight ∨
      e.stage ≠ .handling ∧ ∃ f ∈ r.inFlight, f.serial = e.serial ∧ f.stage = .handling := by
  cases x with
  | start => exact .inl ((start_jobs r).1 ▸ he)
  | resume => exact .inl ((sameJobs_resume r).inFlight ▸ he)
  | claimReply reply => exact absurd rfl (hx reply)
  | wake => exact .inl ((sameJobs_wake r).inFlight ▸ he)
  | pollTimer => exact .inl ((sameJobs_pollTimer r).inFlight ▸ he)
  | stopClaiming => exact .inl ((stopClaiming_jobs r).1 ▸ he)
  | finalize => exact .inl he
  | handlerSettled serial settled =>
    obtain ⟨f, hf, rfl⟩ := List.mem_map.mp he
    split
    · rename_i h
      exact .inr ⟨by simp, f, hf, rfl, h.2⟩
    · exact .inl hf
  | acknowledged f reply =>
    simp only [Runner.step, Runner.acknowledged] at he
    split at he
    · exact .inl he
    · rw [settle, (sameJobs_release _).inFlight] at he
      exact .inl (List.mem_of_mem_filter he)
  | rejected f =>
    rw [Runner.step, Runner.rejected, settle, (sameJobs_release _).inFlight] at he
    exact .inl (List.mem_of_mem_filter he)

/-- A wait for a permit ends when the promise of a job does. -/
theorem acquiring_step (hb : r.Balanced N) (hs : r.state = .running) (hl : r.loop = .acquiring)
    (hx : r.Admits x) (hno : ∀ reply, x ≠ .claimReply reply) (hstop : x ≠ .stopClaiming) :
    (r.step x).loop = .acquiring ∨
      (r.step x).loop = .granted ∧ ∃ e, e ∈ r.inFlight := by
  cases x with
  | start =>
    left
    simp only [Runner.step, Runner.start]
    rw [if_neg (by simp [hs])]
    exact hl
  | resume =>
    left
    simp only [Runner.step, hl]
  | claimReply reply => exact absurd rfl (hno reply)
  | wake =>
    left
    have hw : ¬ r.wakeResolve = true := by
      rw [hb.parked, hl]
      simp
    simp only [Runner.step, Runner.wake]
    rw [if_neg hw]
    exact hl
  | pollTimer =>
    left
    simp only [Runner.step, Runner.pollTimer]
    rw [if_neg (by simp [hl])]
    exact hl
  | stopClaiming => exact absurd rfl hstop
  | finalize => exact .inl hl
  | handlerSettled serial settled => exact .inl hl
  | acknowledged e reply =>
    obtain ⟨he, hstage⟩ := hx
    right
    refine ⟨?_, e, he⟩
    simp only [Runner.step, Runner.acknowledged]
    split
    · rename_i h
      exact absurd h hstage
    · rw [(hb.emit _).settle_loop e]
      exact if_pos hl
  | rejected e =>
    right
    refine ⟨?_, e, hx⟩
    rw [Runner.step, Runner.rejected, hb.settle_loop e, if_pos hl]

/-- A granted permit is used for a claim call. -/
theorem granted_step (hb : r.Balanced N) (hs : r.state = .running) (hl : r.loop = .granted)
    (hno : ∀ reply, x ≠ .claimReply reply) (hstop : x ≠ .stopClaiming) :
    (r.step x).loop = .granted ∨ ∃ n, (r.step x).loop = .claiming n := by
  have hw : ¬ r.wakeResolve = true := by
    rw [hb.parked, hl]
    simp
  have hwait : r.loop ≠ .acquiring := by simp [hl]
  cases x with
  | start =>
    left
    simp only [Runner.step, Runner.start]
    rw [if_neg (by simp [hs])]
    exact hl
  | resume =>
    right
    simp only [Runner.step, hl]
    rw [Runner.claimBatch, if_pos hs]
    exact ⟨_, rfl⟩
  | claimReply reply => exact absurd rfl (hno reply)
  | wake =>
    left
    simp only [Runner.step, Runner.wake]
    rw [if_neg hw]
    exact hl
  | pollTimer =>
    left
    simp only [Runner.step, Runner.pollTimer]
    rw [if_neg (by simp [hl])]
    exact hl
  | stopClaiming => exact absurd rfl hstop
  | finalize => exact .inl hl
  | handlerSettled serial settled => exact .inl hl
  | acknowledged e reply =>
    left
    simp only [Runner.step, Runner.acknowledged]
    split
    · exact hl
    · rw [(hb.emit _).settle_loop e]
      exact (if_neg hwait).trans hl
  | rejected e =>
    left
    rw [Runner.step, Runner.rejected, hb.settle_loop e, if_neg hwait, hl]

end Runner

/-! ## What is left until the next claim call -/

/-- How long it takes until a job is acknowledged. -/
def JobStage.togo (handle delay : ℕ) : JobStage → ℕ
  | .handling => handle + delay
  | .acknowledging _ => delay

/-- The time until Redis runs a claim call of the loop, if the call does not fail
and, at the wait for a permit, all jobs in flight have just begun. -/
def LoopPhase.wait (poll handle delay : ℕ) : LoopPhase → ℕ
  | .parked => poll + handle + 5 * delay
  | .woken => handle + 4 * delay
  | .acquiring => handle + 3 * delay
  | .granted => 2 * delay
  | _ => delay

/-- The longest way from one claim call to the next. -/
def claimRound (poll handle delay : ℕ) : ℕ := poll + handle + 6 * delay

variable {poll handle} {delay : ℕ}

theorem LoopPhase.wait_le (p : LoopPhase) :
    p.wait poll handle delay + delay ≤ claimRound poll handle delay := by
  unfold claimRound
  cases p <;> simp only [LoopPhase.wait] <;> omega

/-- A loop with a permit, or on its way to one, pays for the await that it leaves. -/
theorem LoopPhase.wait_add_stay {p p' : LoopPhase} (h : p'.distance < p.distance)
    (hp : p = .granted → p' ≠ .acquiring) :
    p'.wait poll handle delay + p.stay poll delay ≤ p.wait poll handle delay := by
  cases p <;> cases p' <;> simp only [LoopPhase.distance] at h <;>
    simp only [LoopPhase.wait, LoopPhase.stay] <;> first | omega | exact absurd rfl (hp rfl)

theorem JobStage.togo_le (g : JobStage) : g.togo handle delay ≤ handle + delay := by
  cases g <;> simp only [JobStage.togo] <;> omega

theorem JobStage.stay_le (g : JobStage) : g.stay handle delay ≤ g.togo handle delay := by
  cases g <;> simp only [JobStage.stay, JobStage.togo] <;> omega

namespace Polling

variable {sha1hex parse late} {s s' : Polling δ} {ops : List (Call × RedisTime)}

theorem Prompt.take (h : s.Prompt poll late) (x : RunnerInput δ) :
    (s.take x).Prompt poll late := by
  unfold Prompt Polling.take at *
  dsimp only
  split
  · rename_i hl
    rw [hl]
    exact h
  · exact .inr (Nat.le_add_right _ _)

/-- A sane runner that is in time stays so. -/
theorem Sane.step (h : s.Sane) (hp : s.Prompt poll late)
    (hst : PollStep sha1hex parse poll late s ops s') :
    s'.Sane ∧ s'.Prompt poll late ∧ s.now ≤ s'.now := by
  cases hst with
  | call op hw => exact ⟨⟨h.reachable, h.running, h.reply, hw⟩, hp, Nat.le_refl _⟩
  | runner x hx hno htimer hstop hfin =>
    exact ⟨h.take hx hno hstop hfin, hp.take x, Nat.le_refl _⟩
  | pollTimer hl hdue =>
    exact ⟨h.take trivial (by simp) (by simp) (by simp), hp.take _, Nat.le_refl _⟩
  | claim n t es q' hl hr hx =>
    have hlen : es.length ≤ n := claim_reply_length sha1hex hx
    have hlimit : q'.limit = s.queue.limit := by
      have hcalm := (exec_calm sha1hex (.claimGlobalBatch ⟨s.runner.leaseMs, n⟩, t) s.queue).1
        fun a ha => by cases ha
      rw [hx] at hcalm
      exact limit_congr hcalm
    refine ⟨⟨h.reachable, h.running, fun es' hes => ?_, ?_⟩, .inr (Nat.le_add_right _ _),
      Nat.le_refl _⟩
    · cases hes
      exact ⟨n, hl, hlen⟩
    · unfold Queue.LimitIsWhole
      rw [hlimit]
      exact h.limit
  | reply es hr =>
    obtain ⟨n, hl, hlen⟩ := h.reply es hr
    refine ⟨(h.replied hl (fun jobs hj => ?_) s.failures).1, hp.take _, Nat.le_refl _⟩
    cases hj
    simpa using hlen
  | failed n hl e hf =>
    exact ⟨(h.replied hl (fun jobs hj => by cases hj) (s.failures + 1)).1, hp.take _, Nat.le_refl _⟩
  | waited hp' => exact ⟨⟨h.reachable, h.running, h.reply, h.limit⟩, hp', Nat.le_succ _⟩

end Polling

namespace Occupied

/-- The time that is left, but for the calls that fail. -/
def togo (poll handle : ℕ) (late : Lateness) (s : Occupied δ) : ℕ :=
  match s.polling.reply with
  | some _ => claimRound poll handle late.delay
  | none => s.polling.runner.loop.wait poll handle late.delay

/-- The time that the calls can cost that still may fail. -/
def spare (poll handle : ℕ) (late : Lateness) (s : Occupied δ) : ℕ :=
  (late.failures - s.polling.failures) * claimRound poll handle late.delay

/-- The jobs in flight came to their stages in the past, and none of them and no await is late. -/
structure Timely (poll handle : ℕ) (late : Lateness) (s : Occupied δ) : Prop where
  sane : s.polling.Sane
  entered : ∀ e ∈ s.polling.runner.inFlight, s.entered e.serial ≤ s.polling.now
  jobs : s.Prompt handle late
  loop : s.polling.Prompt poll late

/-- The next claim call runs by `last`. At the wait for a permit, the jobs in flight
are what it takes so long for, and elsewhere the loop itself. -/
structure Due (poll handle : ℕ) (late : Lateness) (last : ℕ) (s : Occupied δ) : Prop where
  timely : s.Timely poll handle late
  waits : s.polling.runner.loop = .acquiring → ∀ e ∈ s.polling.runner.inFlight,
    s.entered e.serial + e.stage.togo handle late.delay + 2 * late.delay +
      s.spare poll handle late ≤ last
  goes : s.polling.runner.loop ≠ .acquiring →
    s.polling.since + s.togo poll handle late + s.spare poll handle late ≤ last

variable {sha1hex parse late} {s s' : Occupied δ} {ops : List (Call × RedisTime)} {last : ℕ}

/-- A step keeps what is in time. -/
theorem Timely.step (h : s.Timely poll handle late)
    (hst : OccupiedStep sha1hex parse poll handle late s ops s') :
    s'.Timely poll handle late := by
  obtain ⟨hs, hp, hnow⟩ := h.sane.step h.loop hst.step
  refine ⟨hs, fun e he => ?_, hst.prompt, hp⟩
  by_cases hold : e ∈ s.polling.runner.inFlight
  · rw [hst.stays e he hold]
    exact (h.entered e hold).trans hnow
  · rw [hst.enters e he hold]

/-- The loop has come to its await now. -/
theorem Timely.due (h : s.Timely poll handle late) (hr : s.polling.reply = none)
    (hsince : s.polling.since = s.polling.now)
    (hle : s.polling.now + s.polling.runner.loop.wait poll handle late.delay +
      s.spare poll handle late ≤ last) : s.Due poll handle late last := by
  refine ⟨h, fun hl e he => ?_, fun _ => ?_⟩
  · have hentered := h.entered e he
    have htogo := @JobStage.togo_le handle late.delay e.stage
    rw [hl] at hle
    simp only [LoopPhase.wait] at hle
    omega
  · unfold togo
    rw [hr, hsince]
    exact hle

/-- The loop stands where it stood, beside the same jobs or jobs that their processors left. -/
theorem Due.stays (h : s.Due poll handle late last)
    (hst : OccupiedStep sha1hex parse poll handle late s ops s')
    (hentry : ∀ e ∈ s'.polling.runner.inFlight, e ∈ s.polling.runner.inFlight ∨
      s'.polling.now = s.polling.now ∧ e.stage ≠ .handling ∧
        ∃ f ∈ s.polling.runner.inFlight, f.serial = e.serial ∧ f.stage = .handling)
    (hl : s'.polling.runner.loop = s.polling.runner.loop)
    (hsince : s'.polling.since = s.polling.since) (hr : s'.polling.reply = s.polling.reply)
    (hf : s'.polling.failures = s.polling.failures) : s'.Due poll handle late last := by
  have hspare : s'.spare poll handle late = s.spare poll handle late := by
    unfold spare
    rw [hf]
  refine ⟨h.timely.step hst, fun hwait e he => ?_, fun hgo => ?_⟩
  · rw [hl] at hwait
    rw [hspare]
    by_cases hold : e ∈ s.polling.runner.inFlight
    · rw [hst.stays e he hold]
      exact h.waits hwait e hold
    · obtain ⟨hsame, hstage, f, hf, hserial, hhandling⟩ := (hentry e he).resolve_left hold
      have hlate := h.timely.jobs f hf
      have hdue := h.waits hwait f hf
      rw [hst.enters e he hold, hsame]
      rw [hhandling] at hlate hdue
      simp only [JobStage.stay, JobStage.togo] at hlate hdue
      cases hs : e.stage with
      | handling => exact absurd hs hstage
      | acknowledging settled =>
        simp only [JobStage.togo]
        omega
  · rw [hspare, hsince]
    unfold togo
    rw [hr, hl]
    rw [hl] at hgo
    exact h.goes hgo

/-- An input of the runner. -/
theorem Due.take (h : s.Due poll handle late last) {x : RunnerInput δ}
    (hst : OccupiedStep sha1hex parse poll handle late s ops s')
    (hs : s'.polling = s.polling.take x) (hx : s.polling.runner.Admits x)
    (hno : ∀ reply, x ≠ .claimReply reply) (hstop : x ≠ .stopClaiming) (hfin : x ≠ .finalize) :
    s'.Due poll handle late last := by
  have hnow : s'.polling.now = s.polling.now := by rw [hs]; rfl
  have hloop : s'.polling.runner.loop = (s.polling.runner.step x).loop := by rw [hs]; rfl
  have hreply : s'.polling.reply = s.polling.reply := by rw [hs]; rfl
  have hfailures : s'.polling.failures = s.polling.failures := by rw [hs]; rfl
  by_cases hsame : (s.polling.runner.step x).loop = s.polling.runner.loop
  · refine h.stays hst (fun e he => ?_) (hloop.trans hsame) ?_ hreply hfailures
    · rw [hs] at he
      exact (Runner.entry_step hno he).imp_right fun hnew => ⟨hnow, hnew⟩
    · rw [hs]
      exact if_pos hsame
  · obtain ⟨N, hb, hn, hf⟩ := h.timely.sane.reachable.books
    have hrunning := h.timely.sane.running
    have hnone : s.polling.reply = none := by
      rcases hr : s.polling.reply with _ | es
      · rfl
      · obtain ⟨n, hl, -⟩ := h.timely.sane.reply es hr
        exact absurd ((Runner.attentive_step hb hf hno).stays hl trivial |>.trans hl.symm) hsame
    refine (h.timely.step hst).due (hreply.trans hnone) ?_ ?_
    · rw [hnow, hs]
      exact if_neg hsame
    · have hspare : s'.spare poll handle late = s.spare poll handle late := by
        unfold spare
        rw [hfailures]
      rw [hspare, hnow, hloop]
      by_cases hl : s.polling.runner.loop = .acquiring
      · -- a job in flight has left its permit to the loop
        rcases Runner.acquiring_step hb hrunning hl hx hno hstop with hl' | ⟨hl', e, he⟩
        · exact absurd (hl'.trans hl.symm) hsame
        · have hlate := h.timely.jobs e he
          have hdue := h.waits hl e he
          have hstay := @JobStage.stay_le handle late.delay e.stage
          rw [hl']
          simp only [LoopPhase.wait]
          omega
      · have hrun' := Runner.running_step hn hrunning hx hstop hfin
        have hr := h.timely.sane.reachable.alive.1.2 hrunning
        rcases (hr.step hb hn hrunning hx hrun').2 with hl' | hzero | hlt
        · exact absurd hl' hsame
        · exfalso
          rcases hr.loop with hl' | ⟨n, hl'⟩ | hpos
          · exact hl hl'
          · exact hsame ((Runner.attentive_step hb hf hno).stays hl' trivial |>.trans hl'.symm)
          · omega
        · have hpay := @LoopPhase.wait_add_stay poll handle late.delay _ _ hlt fun hg ha => by
            rcases Runner.granted_step hb hrunning hg hno hstop with hg' | ⟨n, hg'⟩
            · exact hsame (hg'.trans hg.symm)
            · rw [hg'] at ha
              cases ha
          have hprompt := h.timely.loop.resolve_left hl
          have hdue := h.goes hl
          unfold togo at hdue
          rw [hnone] at hdue
          simp only at hdue
          omega

/-- The answer of a claim call, when the time that was left pays for the next round. -/
theorem Due.answered (h : s.Due poll handle late last)
    (hst : OccupiedStep sha1hex parse poll handle late s ops s') {n : ℕ}
    (hl : s.polling.runner.loop = .claiming n) {reply : Except String (List (ClaimResult δ))}
    {failures : ℕ}
    (hs : s'.polling = { s.polling.take (.claimReply reply) with reply := none, failures })
    (hcost : s'.spare poll handle late + claimRound poll handle late.delay ≤
      s.togo poll handle late + s.spare poll handle late) : s'.Due poll handle late last := by
  have hleft : (s.polling.runner.step (.claimReply reply)).loop ≠ s.polling.runner.loop := by
    rw [hl]
    exact Runner.replied_loop hl reply
  have hnow : s'.polling.now = s.polling.now := by rw [hs]; rfl
  refine (h.timely.step hst).due (by rw [hs]) ?_ ?_
  · rw [hnow, hs]
    exact if_neg hleft
  · have hprompt := h.timely.loop.resolve_left (by simp [hl])
    have hdue := h.goes (by simp [hl])
    have hwait := @LoopPhase.wait_le poll handle late.delay s'.polling.runner.loop
    rw [hl] at hprompt
    rw [hnow]
    simp only [LoopPhase.stay] at hprompt
    omega

/-- The step lemma: the call stays due, or Redis runs it and the next one is due a round later. -/
theorem Due.step (h : s.Due poll handle late last)
    (hst : OccupiedStep sha1hex parse poll handle late s ops s') :
    s'.Due poll handle late last ∨
      (∃ t n es, ops = [(.claimGlobalBatch ⟨s.polling.runner.leaseMs, n⟩, t)] ∧ 0 < n ∧
        exec sha1hex (.claimGlobalBatch ⟨s.polling.runner.leaseMs, n⟩, t) s.polling.queue =
          (.claimGlobalBatch es, s'.polling.queue)) ∧
      s'.Due poll handle late
        (last + (late.failures + 1) * claimRound poll handle late.delay) := by
  obtain ⟨N, hb, -⟩ := h.timely.sane.reachable.books
  have ht := h.timely.step hst
  have hp := hst.step
  generalize hs' : s'.polling = p' at hp
  cases hp with
  | call op hw =>
    left
    refine h.stays hst (fun e he => ?_) (by rw [hs']) (by rw [hs']) (by rw [hs']) (by rw [hs'])
    rw [hs'] at he
    exact .inl he
  | runner x hx hno htimer hstop hfin => exact .inl (h.take hst hs' hx hno hstop hfin)
  | pollTimer hl hdue =>
    exact .inl (h.take hst hs' trivial (by simp) (by simp) (by simp))
  | claim n t es q' hl hr hx =>
    right
    have hpos : 0 < n := Nat.pos_of_ne_zero fun hn => hb.asks (by rw [hl, hn])
    refine ⟨⟨t, n, es, rfl, hpos, hx⟩, ht, fun hwait => ?_, fun _ => ?_⟩
    · rw [hs'] at hwait
      simp [hl] at hwait
    · have hprompt := h.timely.loop.resolve_left (by simp [hl])
      have hdue := h.goes (by simp [hl])
      rw [hl] at hprompt
      unfold togo spare
      rw [hs']
      unfold togo at hdue
      rw [hr, hl] at hdue
      simp only [LoopPhase.stay, LoopPhase.wait, Nat.sub_zero, Nat.succ_mul] at hprompt hdue ⊢
      omega
  | reply es hr =>
    left
    obtain ⟨n, hl, -⟩ := h.timely.sane.reply es hr
    apply h.answered hst hl hs'
    unfold togo spare
    rw [hs', hr]
    simp only [Polling.take]
    omega
  | failed n hl e hf =>
    left
    apply h.answered hst hl hs'
    have hpay : (late.failures - (s.polling.failures + 1)) * claimRound poll handle late.delay +
        claimRound poll handle late.delay = s.spare poll handle late := by
      unfold spare
      rw [← Nat.succ_mul]
      congr 1
      omega
    rw [← hpay]
    unfold spare
    rw [hs']
    exact Nat.le_add_left _ _
  | waited hp =>
    left
    refine h.stays hst (fun e he => ?_) (by rw [hs']) (by rw [hs']) (by rw [hs']) (by rw [hs'])
    rw [hs'] at he
    exact .inl he

theorem Due.mono {last' : ℕ} (h : s.Due poll handle late last) (hle : last ≤ last') :
    s.Due poll handle late last' :=
  ⟨h.timely, fun hl e he => (h.waits hl e he).trans hle, fun hl => (h.goes hl).trans hle⟩

theorem Due.now_le (h : s.Due poll handle late last) : s.polling.now ≤ last := by
  by_cases hl : s.polling.runner.loop = .acquiring
  · -- some job in flight has the permit that the loop waits for
    obtain ⟨-, hpos⟩ := h.timely.sane.reachable.full h.timely.sane.running hl
    obtain ⟨e, he⟩ := List.exists_mem_of_length_pos hpos
    have hlate := h.timely.jobs e he
    have hdue := h.waits hl e he
    have hstay := @JobStage.stay_le handle late.delay e.stage
    omega
  · have hprompt := h.timely.loop.resolve_left hl
    have hdue := h.goes hl
    have hstay : s.polling.runner.loop.stay poll late.delay ≤ s.togo poll handle late := by
      unfold togo
      split
      · rename_i es hr
        obtain ⟨n, hl', -⟩ := h.timely.sane.reply es hr
        unfold claimRound
        rw [hl']
        simp only [LoopPhase.stay]
        omega
      · cases s.polling.runner.loop <;> simp only [LoopPhase.stay, LoopPhase.wait] <;> omega
    omega

/-- From any moment on, the first call is due a round later. -/
theorem Timely.first (h : s.Timely poll handle late) (hsince : s.polling.since ≤ s.polling.now) :
    s.Due poll handle late
      (s.polling.now + (late.failures + 1) * claimRound poll handle late.delay) := by
  have hspare : s.spare poll handle late ≤ late.failures * claimRound poll handle late.delay := by
    unfold spare
    exact Nat.mul_le_mul_right _ (Nat.sub_le _ _)
  have hsum : (late.failures + 1) * claimRound poll handle late.delay =
      late.failures * claimRound poll handle late.delay + claimRound poll handle late.delay :=
    Nat.succ_mul _ _
  refine ⟨h, fun hl e he => ?_, fun _ => ?_⟩
  · have hentered := h.entered e he
    have htogo := @JobStage.togo_le handle late.delay e.stage
    have hround : claimRound poll handle late.delay = poll + handle + 6 * late.delay := rfl
    omega
  · have htogo : s.togo poll handle late ≤ claimRound poll handle late.delay := by
      unfold togo
      split
      · exact Nat.le_refl _
      · exact Nat.le_trans (Nat.le_add_right _ _) (LoopPhase.wait_le _)
    omega

end Occupied

/-! ## The bound -/

theorem PollStep.queue {sha1hex : String → String} {parse : String → Except String δ}
    {late : Lateness} {s s' : Polling δ} {ops : List (Call × RedisTime)}
    (h : PollStep sha1hex parse poll late s ops s') :
    s'.queue = Machine.finish (exec sha1hex) s.queue ops := by
  cases h with
  | claim n t es q' hl hr hx =>
    unfold Machine.finish
    rw [hx]
    rfl
  | _ => rfl

variable {sha1hex parse late} {s₀ s : Occupied δ} {ops before : List (Call × RedisTime)}

/-- A claim call that brings jobs takes jobs from the waiting list. -/
theorem departures_pos {q q' : Queue} {a : ClaimGlobalBatchArgs} {t : RedisTime}
    {es : List ClaimEntry} (ha : a.leaseMs ≠ .nan) (hq : Sound q)
    (hx : exec sha1hex (.claimGlobalBatch a, t) q = (.claimGlobalBatch es, q')) (hes : es ≠ []) :
    0 < (departures ((.claimGlobalBatch a, t), .claimGlobalBatch es)).length := by
  obtain ⟨ps, d, -, hreply, -, hps⟩ := exec_claim_sound sha1hex (t := t) ha hq
  rw [hx] at hreply hps
  cases hreply
  change 0 < ((ps.map Prod.snd).filterMap ClaimEntry.jobId).length
  rw [filterMap_of_map (claimed_ids sha1hex hps), List.length_map]
  apply List.length_pos_iff.mpr
  rintro rfl
  exact hes rfl

/-- The queue is the one that all calls make. And while nothing stopped the claims of the
runner, each of them after the first has left one job less. -/
theorem Occupied.Due.rounds {last : ℕ} (h : s₀.Due poll handle late last)
    (hq : s₀.polling.queue = run sha1hex before) (hl : LeasesAreNumbers (before ++ ops))
    (hrun : Reaches (OccupiedStep sha1hex parse poll handle late) s₀ ops s) :
    s.polling.queue = run sha1hex (before ++ ops) ∧
      ((∃ pre post, ops = pre ++ post ∧ ¬ (run sha1hex (before ++ pre)).Claimable) ∨
        s.Due poll handle late (last + (claimedAfter sha1hex before ops).length *
          ((late.failures + 1) * claimRound poll handle late.delay))) := by
  induction hrun with
  | start =>
    refine ⟨?_, .inr ?_⟩
    · rw [List.append_nil]
      exact hq
    · simpa [claimedAfter] using h
  | @next es fs s s' hrun hst ih =>
    rw [← List.append_assoc] at hl
    obtain ⟨hqueue, hcase⟩ := ih hl.left
    have hqueue' : s'.polling.queue = run sha1hex (before ++ (es ++ fs)) := by
      rw [hst.step.queue, hqueue, ← run_append, List.append_assoc]
    refine ⟨hqueue', ?_⟩
    rcases hcase with ⟨pre, post, hops, hclaim⟩ | hdue
    · left
      refine ⟨pre, post ++ fs, ?_, hclaim⟩
      rw [hops, List.append_assoc]
    · have hmore : claimedAfter sha1hex before (es ++ fs) = claimedAfter sha1hex before es ++
          (Machine.trace (exec sha1hex) s.polling.queue fs).flatMap departures := by
        unfold claimedAfter
        rw [Machine.trace_append, List.flatMap_append, hqueue, run_append]
      rw [hmore, List.length_append, Nat.add_mul]
      rcases hdue.step hst with hdue' | ⟨⟨t, n, cs, hfs, hpos, hx⟩, hdue'⟩
      · right
        exact hdue'.mono (by omega)
      · by_cases hcs : cs = []
        · left
          refine ⟨es ++ fs, [], (List.append_nil _).symm, ?_⟩
          rw [hcs] at hx
          rw [← hqueue']
          exact empty_claim sha1hex hdue.timely.sane.limit hpos hx
        · right
          have hsound : Sound s.polling.queue := by
            rw [hqueue]
            exact sound_run sha1hex hl.left
          have hnum : s.polling.runner.leaseMs ≠ .nan := by
            refine hl (.claimGlobalBatch ⟨s.polling.runner.leaseMs, n⟩, t) ?_
            rw [hfs]
            exact List.mem_append_right _ List.mem_cons_self
          have hone := departures_pos hnum hsound hx hcs
          have hdep : (Machine.trace (exec sha1hex) s.polling.queue fs).flatMap departures =
              departures ((.claimGlobalBatch ⟨s.polling.runner.leaseMs, n⟩, t),
                .claimGlobalBatch cs) := by
            rw [hfs]
            simp only [Machine.trace, hx, List.flatMap_cons, List.flatMap_nil, List.append_nil]
          rw [hdep]
          apply hdue'.mono
          have := Nat.mul_le_mul_right
            ((late.failures + 1) * claimRound poll handle late.delay) hone
          omega

/-- When the next call is due by `last`, a job with `k` jobs before it is claimed `k` rounds
later, or a limit was reached. -/
theorem Occupied.Due.claims {last : ℕ} {i : String} {k : ℕ} (h : s₀.Due poll handle late last)
    (hq : s₀.polling.queue = run sha1hex before) (hl : LeasesAreNumbers (before ++ ops))
    (hi : (run sha1hex before).waiting.reverse[k]? = some i)
    (hrun : Reaches (OccupiedStep sha1hex parse poll handle late) s₀ ops s)
    (hlate : last + k * ((late.failures + 1) * claimRound poll handle late.delay) <
      s.polling.now) :
    i ∈ claimedAfter sha1hex before ops ∨
      ∃ pre post, ops = pre ++ post ∧ ∃ limit ∈ (run sha1hex (before ++ pre)).limit,
        ¬ .ofNat (run sha1hex (before ++ pre)).active.card < limit := by
  have hsound := sound_run sha1hex hl.left
  have hl' : LeasesAreNumbers ops := fun op hop => hl op (List.mem_append_right _ hop)
  rcases (h.rounds hq hl hrun).2 with ⟨pre, post, hops, hno⟩ | hdue
  · by_cases hempty : (run sha1hex (before ++ pre)).waiting = []
    · left
      rw [hops] at hl'
      have hfifo := finish_fifo sha1hex hl'.left hsound
      rw [← run_append, hempty] at hfifo
      have hleft : i ∈ claimedAfter sha1hex before pre := hfifo.emptied (List.mem_of_getElem? hi)
      unfold claimedAfter at hleft ⊢
      rw [hops, Machine.trace_append, List.flatMap_append]
      exact List.mem_append_left _ hleft
    · right
      refine ⟨pre, post, hops, ?_⟩
      by_contra hroom
      push Not at hroom
      exact hno ⟨hempty, hroom⟩
  · left
    apply (finish_fifo sha1hex hl' hsound).has_left hi
    change k < (claimedAfter sha1hex before ops).length
    by_contra hfew
    have hnow := hdue.now_le
    have hle := Nat.mul_le_mul_right
      ((late.failures + 1) * claimRound poll handle late.delay) (Nat.not_lt.mp hfew)
    omega

/-- A waiting job is claimed in time, whatever others call meanwhile: with `k` jobs before
it, after `k + 1` rounds at the latest, a round being the poll interval, the longest that
a processor takes and six delays, and as much again for each claim call that may fail.
Only a moment at which the active jobs reach the stored limit can prevent it. -/
theorem a_waiting_job_is_claimed_in_time {pollInterval : Option Double} {i : String} {k : ℕ}
    (h : s₀.Timely (pollDelay pollInterval) handle late)
    (hsince : s₀.polling.since ≤ s₀.polling.now)
    (hq : s₀.polling.queue = run sha1hex before) (hl : LeasesAreNumbers (before ++ ops))
    (hi : (run sha1hex before).waiting.reverse[k]? = some i)
    (hrun : Reaches (OccupiedStep sha1hex parse (pollDelay pollInterval) handle late) s₀ ops s)
    (hlate : s₀.polling.now + (k + 1) *
      ((late.failures + 1) * claimRound (pollDelay pollInterval) handle late.delay) <
        s.polling.now) :
    i ∈ claimedAfter sha1hex before ops ∨
      ∃ pre post, ops = pre ++ post ∧ ∃ limit ∈ (run sha1hex (before ++ pre)).limit,
        ¬ .ofNat (run sha1hex (before ++ pre)).active.card < limit := by
  apply (h.first hsince).claims hq hl hi hrun
  rw [Nat.add_one_mul k] at hlate
  omega

/-- What holds of each beginning of a list holds of what stands before any of its parts. -/
theorem forall_prefix {α : Type} {P : List α → Prop} {l : List α}
    (h : ∀ n < l.length + 1, P (l.take n)) {pre post : List α} (hl : l = pre ++ post) : P pre := by
  have hlength := congrArg List.length hl
  rw [List.length_append] at hlength
  have hp := h pre.length (by omega)
  rwa [hl, List.take_left] at hp

/-- A step that leaves no job in flight. -/
theorem OccupiedStep.idle {s s' : Polling δ} {entered : ℕ → ℕ}
    (hst : PollStep sha1hex parse poll late s ops s') (hnone : s'.runner.inFlight.isEmpty = true) :
    OccupiedStep sha1hex parse poll handle late ⟨s, entered⟩ ops ⟨s', entered⟩ := by
  have hno : ∀ e, e ∉ s'.runner.inFlight := by
    rw [List.isEmpty_iff.mp hnone]
    exact fun e => List.not_mem_nil
  exact ⟨hst, fun e _ _ => rfl, fun e he => absurd he (hno e), fun e he => absurd he (hno e)⟩

/-- The sample runner parks while a job waits. Its jobs come to their stages at 1 ms. -/
def sampleWaiting : Occupied String where
  polling := { samplePolling with queue := run id [(.enqueue sampleJob, ⟨0, 0⟩)] }
  entered := fun _ => 1

/-- The reply of its claim call, and the one of the next call. -/
def sampleReply (q : Queue) : List ClaimEntry :=
  match (exec id (.claimGlobalBatch ⟨.ofNat 30000, 2⟩, ⟨0, 1000⟩) q).1 with
  | .claimGlobalBatch es => es
  | _ => []

/-- The job that it runs, while its acknowledgement is on its way. -/
def sampleSettled : Runner String :=
  let claiming := ((samplePolling.runner.step .pollTimer).step .resume).step .resume
  let reply := Reply.claimed Except.ok (.claimGlobalBatch (sampleReply sampleWaiting.polling.queue))
  (claiming.step (.claimReply reply)).step (.handlerSettled 0 .returned)

theorem sample_in_flight : sampleSettled.inFlight ≠ [] := by
  rw [Ne, ← List.isEmpty_iff]
  decide +kernel

/-- Its claim calls. -/
def sampleClaims : List (Call × RedisTime) :=
  [(.claimGlobalBatch ⟨.ofNat 30000, 2⟩, ⟨0, 1000⟩),
    (.claimGlobalBatch ⟨.ofNat 30000, 2⟩, ⟨0, 1000⟩)]

/-- It claims the job at its poll timer, runs and acknowledges it, and polls once more. -/
theorem sample_runner_works : ∃ s,
    Reaches (OccupiedStep id Except.ok (pollDelay (some (.ofNat 1))) 0 ⟨0, 0⟩) sampleWaiting
      sampleClaims s ∧ s.polling.now = 2 := by
  have hpoll : pollDelay (some (.ofNat 1)) = 1 := by decide +kernel
  have hstage : (sampleSettled.inFlight.head sample_in_flight).stage ≠ .handling := by
    decide +kernel
  have meanwhile : ∀ {s s' : Polling String} {ops : List (Call × RedisTime)},
      PollStep id Except.ok (pollDelay (some (.ofNat 1))) ⟨0, 0⟩ s ops s' → s'.now = 1 →
      OccupiedStep id Except.ok (pollDelay (some (.ofNat 1))) 0 ⟨0, 0⟩ ⟨s, fun _ => 1⟩ ops
        ⟨s', fun _ => 1⟩ := by
    intro s s' ops hst hnow
    refine ⟨hst, fun e _ _ => rfl, fun e _ _ => hnow.symm, fun e _ => ?_⟩
    rw [hnow]
    exact Nat.le_add_right _ _
  have resume : ∀ s : Polling String,
      PollStep id Except.ok (pollDelay (some (.ofNat 1))) ⟨0, 0⟩ s [] (s.take .resume) :=
    fun s => .runner s .resume trivial (by simp) (by simp) (by simp) (by simp)
  have r1 : Reaches (OccupiedStep id Except.ok (pollDelay (some (.ofNat 1))) 0 ⟨0, 0⟩)
      sampleWaiting _ _ :=
    Reaches.start.next (meanwhile (.waited _ (by rw [hpoll]; exact .inr (by decide +kernel))) rfl)
  have r2 := r1.next (meanwhile (.pollTimer _ (by decide +kernel)
    (by rw [hpoll]; exact Nat.le_refl _)) rfl)
  have r3 := r2.next (meanwhile (resume _) rfl)
  have r4 := r3.next (meanwhile (resume _) rfl)
  have r5 := r4.next (meanwhile (.claim _ 2 ⟨0, 1000⟩ (sampleReply sampleWaiting.polling.queue) _
    (by decide +kernel) rfl (Prod.ext (by decide +kernel) rfl)) rfl)
  have r6 := r5.next (meanwhile (.reply _ (sampleReply sampleWaiting.polling.queue) rfl) rfl)
  have r7 := r6.next (meanwhile (.runner _ (.handlerSettled 0 .returned) trivial (by simp) (by simp)
    (by simp) (by simp)) rfl)
  have r8 := r7.next (meanwhile (.runner _
    (.acknowledged (sampleSettled.inFlight.head sample_in_flight) (.ok .completed))
    ⟨List.head_mem sample_in_flight, hstage⟩ (by simp) (by simp) (by simp) (by simp)) rfl)
  have r9 := r8.next (meanwhile (resume _) rfl)
  have r10 := r9.next (meanwhile (.claim _ 2 ⟨0, 1000⟩ [] _ (by decide +kernel) rfl
    (Prod.ext (by decide +kernel) rfl)) rfl)
  have r11 := r10.next (meanwhile (.reply _ [] rfl) rfl)
  exact ⟨_, r11.next (.idle (.waited _ (by rw [hpoll]; exact .inr (by decide +kernel)))
    (by decide +kernel)), rfl⟩

/-- The sample runner is in time when it has just parked, on any queue without a limit. -/
theorem sample_runner_is_timely {q : Queue} (hq : q.limit = none) (now : ℕ) (entered : ℕ → ℕ) :
    Occupied.Timely poll handle ⟨0, 0⟩
      ⟨{ samplePolling with queue := q, now, since := now }, entered⟩ := by
  have hno : ∀ e, e ∉ samplePolling.runner.inFlight := by
    rw [List.isEmpty_iff.mp (show samplePolling.runner.inFlight.isEmpty = true by decide +kernel)]
    exact fun e => List.not_mem_nil
  have hrunning : samplePolling.runner.state = .running := by decide +kernel
  refine ⟨⟨sample_polling_reachable, hrunning, (fun _ hr => by cases hr), ?_⟩,
    fun e he => absurd he (hno e), fun e he => absurd he (hno e), .inr (Nat.le_add_right _ _)⟩
  unfold Queue.LimitIsWhole
  rw [hq]
  exact fun limit hlimit => by cases hlimit

/-- Its job is claimed, for no limit stands in the way. -/
theorem sample_waiting_job_is_claimed :
    "j" ∈ claimedAfter id [(.enqueue sampleJob, ⟨0, 0⟩)] sampleClaims := by
  obtain ⟨s, hrun, hnow⟩ := sample_runner_works
  have hround : sampleWaiting.polling.now + (0 + 1) *
      ((0 + 1) * claimRound (pollDelay (some (.ofNat 1))) 0 0) < s.polling.now := by
    rw [hnow]
    decide +kernel
  refine (a_waiting_job_is_claimed_in_time
    (sample_runner_is_timely (by decide +kernel) 0 fun _ => 1) (Nat.le_refl _) rfl (by decide)
    (by decide +kernel) hrun hround).resolve_right ?_
  rintro ⟨pre, post, hops, limit, hlimit, -⟩
  have hnone : (run id ([(.enqueue sampleJob, ⟨0, 0⟩)] ++ pre)).limit = none :=
    forall_prefix (P := fun pre => (run id ([(.enqueue sampleJob, ⟨0, 0⟩)] ++ pre)).limit = none)
      (by decide +kernel) hops
  rw [hnone] at hlimit
  cases hlimit

end Panqueue
