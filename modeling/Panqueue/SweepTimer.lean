-- stalled-recovery-sweep.ts: the interval timer of the recovery sweeps beside a
-- clock, among the calls of all other callers. What is overdue is swept in time.
import Mathlib.Order.Interval.Finset.Nat
import Panqueue.Fencing
import Panqueue.LeaseRenewer
import Panqueue.Overdue

namespace Panqueue

/-! ## The system -/

/-- The sweep of a runner. The scheduler adds the reason and the retention. -/
structure StalledRecoverySweep where
  intervalMs : Double
  batchSize : ℕ
  retention : ResolvedRetention

namespace StalledRecoverySweep

variable (v : StalledRecoverySweep)

/-- The sweep that a runner makes of its options. -/
def new (recoverIntervalMs : Option Double) (recoverBatchSize : Option ℕ)
    (retention : ResolvedRetention) : StalledRecoverySweep where
  intervalMs := recoverIntervalMs.getD (.ofNat 30000)
  batchSize := recoverBatchSize.getD 100
  retention

/-- `start` sets no timer when the interval is not positive. -/
def enabled : Bool := ¬ v.intervalMs ≤ .ofNat 0

/-- The interval between two sweeps. -/
def interval : ℕ := setTimeoutDelay v.intervalMs

/-- The call of `run`. -/
def recover : Call :=
  .recover
    { batchSize := v.batchSize, reason := "stalled: lease expired", retention := v.retention }

end StalledRecoverySweep

/-- A queue with the sweep of one running runner. `since` is when its timer was
set last. `pending` are its calls on their way, each with its number and the time
it was sent at, `swept` counts those that Redis ran, and `failures` those that failed. -/
structure Sweeping where
  queue : Queue
  now : ℕ
  since : ℕ
  fired : ℕ := 0
  pending : List (ℕ × ℕ) := []
  swept : ℕ := 0
  failures : ℕ := 0

/-- The queue at the moment that the timer is set. -/
def Sweeping.start (q : Queue) (now : ℕ) : Sweeping := { queue := q, now, since := now }

/-- The lease that the call sets, if it sets one, lasts a millisecond or more. -/
def Call.LeaseLasts : Call → Prop
  | .claimGlobalBatch a => .ofNat 1 ≤ a.leaseMs
  | .extendLock a => .ofNat 1 ≤ a.leaseMs
  | _ => True

variable (sha1hex : String → String) (v : StalledRecoverySweep) (late : Lateness)

/-- Nothing is later than it can be. -/
def Sweeping.Prompt (s : Sweeping) : Prop :=
  (v.enabled = true → s.now ≤ s.since + v.interval + late.delay) ∧
    ∀ x ∈ s.pending, s.now ≤ x.2 + late.delay

/-- One step: a call of anyone else, with a lease that lasts, the timer, a call of
the sweep that Redis runs or that fails, and a millisecond, which passes when
nothing is late then. -/
inductive SweepStep : Sweeping → List (Call × RedisTime) → Sweeping → Prop
  | call (s : Sweeping) (op : Call × RedisTime) (hnow : op.2.now = s.now)
      (hl : op.1.LeaseLasts) :
    SweepStep s [op] { s with queue := (exec sha1hex op s.queue).2 }
  | timer (s : Sweeping) (hon : v.enabled = true) (hdue : s.since + v.interval ≤ s.now) :
    SweepStep s []
      { s with
        since := s.now, fired := s.fired + 1, pending := s.pending ++ [(s.fired + 1, s.now)] }
  | swept (s : Sweeping) (x : ℕ × ℕ) (hx : x ∈ s.pending) (t : RedisTime) (hnow : t.now = s.now) :
    SweepStep s [(v.recover, t)]
      { s with
        queue := (exec sha1hex (v.recover, t) s.queue).2
        pending := s.pending.erase x
        swept := s.swept + 1 }
  | failed (s : Sweeping) (x : ℕ × ℕ) (hx : x ∈ s.pending) (hf : s.failures < late.failures) :
    SweepStep s [] { s with pending := s.pending.erase x, failures := s.failures + 1 }
  | waited (s : Sweeping) (hp : Sweeping.Prompt v late { s with now := s.now + 1 }) :
    SweepStep s [] { s with now := s.now + 1 }

variable {sha1hex v late} {q : Queue} {op : Call × RedisTime} {m : ℕ}

/-! ## What is overdue gets no more -/

theorem Call.LeaseLasts.isNumber {c : Call} (h : c.LeaseLasts) : c.LeaseIsNumber := by
  cases c with
  | claimGlobalBatch a => exact Double.ne_nan_of_le h
  | extendLock a => exact Double.ne_nan_of_le h
  | _ => trivial

/-- A lease that is set at `m` or later runs out after `m`. -/
theorem lt_plus {d : Double} (h : .ofNat 1 ≤ d) (hclock : m + 1 < 2 ^ 53) {n : ℕ} (hmn : m ≤ n) :
    ∃ s, d.plus n = .val s ∧ Score.ofNat m < s := by
  rcases d with _ | (_ | _ | x)
  · exact absurd h (Double.not_le_nan _)
  · exact absurd (Double.val_le.mp h) (WithBot.not_coe_le_bot _)
  · exact ⟨_, rfl, WithBot.coe_lt_coe.mpr (WithTop.coe_lt_top _)⟩
  · have hx : (1 : ℚ) ≤ x := by
      have := Double.val_le.mp h
      simpa using Score.ofRat_le.mp this
    refine ⟨_, rfl, ?_⟩
    -- the next millisecond is a double, and no later than the sum
    calc Score.ofNat m < Score.ofNat (m + 1) := Score.ofNat_lt.mpr (Nat.lt_succ_self m)
      _ = (Score.ofNat (m + 1)).round := (Score.round_ofNat hclock).symm
      _ ≤ (Score.ofRat (x + n)).round := by
        refine Score.round_mono (Score.ofRat_le.mpr ?_)
        have : (m : ℚ) ≤ n := by exact_mod_cast hmn
        push_cast
        linarith

/-- A lease that the act sets runs out after `m`. -/
def Act.After (m : ℕ) : Act → Prop
  | claim _ _ d => ∃ s, d = .val s ∧ Score.ofNat m < s
  | extend _ d => ∃ s, d = .val s ∧ Score.ofNat m < s
  | _ => True

theorem Act.Of.after {i : String} {r : Reply} {e : Act} (ho : e.Of i op r)
    (hl : op.1.LeaseLasts) (hclock : m + 1 < 2 ^ 53) (hm : m ≤ op.2.now) : e.After m := by
  cases e with
  | claim token now d =>
    obtain ⟨a, es, h, hop, -, -, -, -, hnow, hd⟩ := ho
    rw [hop] at hl
    rw [← hnow] at hm
    unfold Act.After
    rw [hd]
    exact lt_plus hl hclock hm
  | extend token d =>
    obtain ⟨a, hop, -, -, -, hd⟩ := ho
    rw [hop] at hl
    unfold Act.After
    rw [hd]
    exact lt_plus hl hclock hm
  | _ => trivial

/-- A lease of the place that runs out by `m` is this one. -/
def Place.Was (m : ℕ) (lease : Option Score) (i : String) (p : Place) : Prop :=
  ∀ s, (p.sight i).lease = some s → s ≤ Score.ofNat m → lease = some s

theorem JobStep.was {issue : ℕ → ℕ → String} {p p' : Place} {es : List Act} {i : String}
    {lease : Option Score} (h : JobStep issue p es p') (hp : p.Was m lease i)
    (hes : ∀ e ∈ es, e.After m) : p'.Was m lease i := by
  cases h with
  | claim j now d =>
    intro s hs hle
    cases hs
    obtain ⟨s', hs', hlt⟩ := hes _ (List.mem_singleton_self _)
    cases hs'
    exact absurd hle (not_le.mpr hlt)
  | extend j token d d' =>
    intro s hs hle
    cases hs
    obtain ⟨s', hs', hlt⟩ := hes _ (List.mem_singleton_self _)
    cases hs'
    exact absurd hle (not_le.mpr hlt)
  | _ =>
    intro s hs
    cases hs

theorem Place.Was.run {issue : ℕ → ℕ → String} {p p' : Place} {es : List Act} {i : String}
    {lease : Option Score} (hp : p.Was m lease i) (h : Reaches (JobStep issue) p es p')
    (hes : ∀ e ∈ es, e.After m) : p'.Was m lease i := by
  induction h with
  | start => exact hp
  | next _ hst ih =>
    exact hst.was (ih fun e he => hes e (List.mem_append_left _ he)) fun e he =>
      hes e (List.mem_append_right _ he)

/-- A call from `m` on makes nothing overdue at `m`. -/
theorem overdue_call (hq : Sound q) (hl : op.1.LeaseLasts) (hclock : m + 1 < 2 ^ 53)
    (hm : m ≤ op.2.now) :
    ∀ i ∈ (exec sha1hex op q).2.overdue m, i ∈ q.overdue m := by
  intro i hi
  obtain ⟨s, hs, h0, hle⟩ := Queue.mem_overdue.mp hi
  obtain ⟨p, hp⟩ := hq i
  obtain ⟨p', hp', hsteps⟩ := (exec_moves sha1hex op hl.isNumber hq).1 i p hp
  have hwas : p'.Was m (q.active.score i) i := by
    refine Place.Was.run (fun s hs _ => ?_) hsteps fun e he =>
      (of_mem_actsOf he).after hl hclock hm
    rw [hp.lease]
    exact hs
  rw [hp'.lease] at hs
  exact Queue.mem_overdue.mpr ⟨s, hwas s hs hle, h0, hle⟩

theorem overdue_length_call (hq : Sound q) (hl : op.1.LeaseLasts) (hclock : m + 1 < 2 ^ 53)
    (hm : m ≤ op.2.now) :
    ((exec sha1hex op q).2.overdue m).length ≤ (q.overdue m).length := by
  have hnodup := (exec sha1hex op q).2.overdue_nodup m
  exact (List.subperm_of_subset hnodup (overdue_call hq hl hclock hm)).length_le

variable (sha1hex v) in
/-- A sweep takes a batch of what is overdue. -/
theorem overdue_length_sweep (hq : Tidy q) {t : RedisTime} (hm : m ≤ t.now) :
    ((exec sha1hex (v.recover, t) q).2.overdue m).length = (q.overdue m).length - v.batchSize := by
  obtain ⟨js, hfst, -, -, hswept⟩ := exec_recover_swept sha1hex t (q := q)
    (a := { batchSize := v.batchSize, reason := "stalled: lease expired"
            retention := v.retention })
    (Int.natCast_nonneg _) hq
  rw [StalledRecoverySweep.recover, hswept.overdue hfst hm, List.length_drop, Int.toNat_natCast]

/-! ## The sweeps come in time -/

variable {s s' : Sweeping} {es : List (Call × RedisTime)} {first many : ℕ}

/-- The sweeps since `first`, when `many` jobs were overdue. The `n`-th comes within
`n` intervals, each with its delay, and each one that ran took a batch. -/
structure Sweeping.InTurn (v : StalledRecoverySweep) (late : Lateness) (m first many : ℕ)
    (s : Sweeping) : Prop where
  sound : Sound s.queue
  clock : m + 1 < 2 ^ 53
  after : m ≤ s.now
  prompt : s.Prompt v late
  since : s.since ≤ first + s.fired * (v.interval + late.delay)
  sent : ∀ x ∈ s.pending, x.1 ≤ s.fired ∧ x.2 ≤ first + x.1 * (v.interval + late.delay)
  nodup : (s.pending.map Prod.fst).Nodup
  count : s.swept + s.failures + s.pending.length = s.fired
  failures : s.failures ≤ late.failures
  left : (s.queue.overdue m).length ≤ many - v.batchSize * s.swept

theorem map_fst_erase {l : List (ℕ × ℕ)} (x : ℕ × ℕ) (h : (l.map Prod.fst).Nodup) :
    ((l.erase x).map Prod.fst).Nodup := h.sublist (List.erase_sublist.map _)

/-- The step lemma. -/
theorem Sweeping.InTurn.step (h : s.InTurn v late m first many)
    (hs : SweepStep sha1hex v late s es s') : s'.InTurn v late m first many := by
  obtain ⟨hnow, hpending⟩ := h.prompt
  have hcount := h.count
  cases hs with
  | call op hop hl =>
    have hm : m ≤ op.2.now := hop ▸ h.after
    exact ⟨(exec_moves sha1hex op hl.isNumber h.sound).1.sound h.sound, h.clock, h.after, h.prompt,
      h.since, h.sent, h.nodup, hcount, h.failures,
      Nat.le_trans (overdue_length_call h.sound hl h.clock hm) h.left⟩
  | timer hon hdue =>
    have hsince : s.now ≤ first + (s.fired + 1) * (v.interval + late.delay) := by
      have hnow := hnow hon
      have := h.since
      rw [Nat.succ_mul s.fired]
      omega
    refine ⟨h.sound, h.clock, h.after, ⟨fun _ => ?_, ?_⟩, hsince, ?_, ?_, ?_, h.failures, h.left⟩
    · change s.now ≤ s.now + v.interval + late.delay
      omega
    · intro x hx
      rcases List.mem_append.mp hx with hx | hx
      · exact hpending x hx
      · rw [List.mem_singleton.mp hx]
        exact Nat.le_add_right _ _
    · intro x hx
      rcases List.mem_append.mp hx with hx | hx
      · exact ⟨Nat.le_succ_of_le (h.sent x hx).1, (h.sent x hx).2⟩
      · rw [List.mem_singleton.mp hx]
        exact ⟨Nat.le_refl _, hsince⟩
    · rw [List.map_append, List.map_singleton]
      refine List.nodup_append.mpr ⟨h.nodup, List.nodup_singleton _, fun a ha b hb => ?_⟩
      obtain ⟨x, hx, rfl⟩ := List.mem_map.mp ha
      rw [List.mem_singleton.mp hb]
      have := (h.sent x hx).1
      simp only
      omega
    · simp only [List.length_append, List.length_singleton]
      omega
  | swept x hx t ht =>
    have hm : m ≤ t.now := ht ▸ h.after
    have hlen := List.length_erase_of_mem hx
    have hpos := List.length_pos_of_mem hx
    have hleft := overdue_length_sweep sha1hex v h.sound.tidy hm
    have hmoves := exec_moves sha1hex (v.recover, t) trivial h.sound
    refine ⟨hmoves.1.sound h.sound, h.clock, h.after,
      ⟨hnow, fun y hy => hpending y (List.mem_of_mem_erase hy)⟩, h.since,
      fun y hy => h.sent y (List.mem_of_mem_erase hy), map_fst_erase x h.nodup, ?_,
      h.failures, ?_⟩
    · simp only
      omega
    · have := h.left
      simp only [hleft, Nat.mul_succ]
      omega
  | failed x hx hf =>
    have hlen := List.length_erase_of_mem hx
    have hpos := List.length_pos_of_mem hx
    refine ⟨h.sound, h.clock, h.after,
      ⟨hnow, fun y hy => hpending y (List.mem_of_mem_erase hy)⟩, h.since,
      fun y hy => h.sent y (List.mem_of_mem_erase hy), map_fst_erase x h.nodup, ?_, hf, h.left⟩
    simp only
    omega
  | waited hp =>
    exact ⟨h.sound, h.clock, Nat.le_succ_of_le h.after, hp, h.since, h.sent, h.nodup, hcount,
      h.failures, h.left⟩

theorem length_le_sub_of_lt {l : List ℕ} {n k : ℕ} (h : l.Nodup) (hl : ∀ x ∈ l, n < x ∧ x ≤ k) :
    l.length ≤ k - n := by
  have hsub : l.toFinset ⊆ Finset.Ioc n k := by
    intro x hx
    exact Finset.mem_Ioc.mpr (hl x (List.mem_toFinset.mp hx))
  have := Finset.card_le_card hsub
  rwa [List.toFinset_card_of_nodup h, Nat.card_Ioc] at this

/-- After `n` intervals, `n` sweeps ran or failed. -/
theorem Sweeping.InTurn.swept_of_late (h : s.InTurn v late m first many) (hon : v.enabled = true)
    {n : ℕ} (hn : first + n * (v.interval + late.delay) + late.delay < s.now) :
    n ≤ s.swept + late.failures := by
  obtain ⟨hnow, hpending⟩ := h.prompt
  have hnow := hnow hon
  have hfired : n ≤ s.fired := by
    by_contra hlt
    have hmul := Nat.mul_le_mul_right (v.interval + late.delay) (show s.fired + 1 ≤ n by omega)
    have hsince := h.since
    rw [Nat.succ_mul s.fired] at hmul
    omega
  have hsent : s.pending.length ≤ s.fired - n := by
    rw [← List.length_map (f := Prod.fst)]
    refine length_le_sub_of_lt h.nodup fun k hk => ?_
    obtain ⟨x, hx, rfl⟩ := List.mem_map.mp hk
    obtain ⟨hle, hat⟩ := h.sent x hx
    refine ⟨?_, hle⟩
    by_contra hlt
    have hmul := Nat.mul_le_mul_right (v.interval + late.delay) (show x.1 ≤ n by omega)
    have := hpending x hx
    omega
  have hcount := h.count
  have hf := h.failures
  omega

/-! ## The whole run -/

theorem SweepStep.queue (h : SweepStep sha1hex v late s es s') :
    s'.queue = Machine.finish (exec sha1hex) s.queue es := by
  cases h <;> rfl

theorem SweepStep.lasts (h : SweepStep sha1hex v late s es s') :
    ∀ op ∈ es, op.1.LeaseLasts := by
  intro op hop
  cases h with
  | call op' _ hl =>
    rw [List.mem_singleton.mp hop]
    exact hl
  | swept x hx t =>
    rw [List.mem_singleton.mp hop]
    trivial
  | _ => cases hop

/-- The run lemma. -/
theorem Sweeping.InTurn.run (h : s.InTurn v late m first many)
    (hrun : Reaches (SweepStep sha1hex v late) s es s') :
    s'.InTurn v late m first many ∧ s'.queue = Machine.finish (exec sha1hex) s.queue es ∧
      LeasesAreNumbers es := by
  induction hrun with
  | start => exact ⟨h, rfl, fun op hop => absurd hop List.not_mem_nil⟩
  | next _ hs ih =>
    obtain ⟨ht, hq, hl⟩ := ih
    refine ⟨ht.step hs, ?_, fun op hop => ?_⟩
    · rw [hs.queue, hq, Machine.finish_append]
    · rcases List.mem_append.mp hop with hop | hop
      · exact hl op hop
      · exact (hs.lasts op hop).isNumber

/-- An active job of which nobody presents the token stays, until a sweep takes it. -/
theorem abandoned_stays {issue : ℕ → ℕ → String} {j : Job} {token : String} {d : Score} {p : Place}
    {es : List Act} (h : Reaches (JobStep issue) (.active j token d) es p)
    (hby : ∀ e ∈ es, e.By token → e.OfSweep) (hext : ∀ e ∈ es, ∀ d', e ≠ .extend token d') :
    p = .active j token d ∨ ∃ e ∈ es, e.OfSweep := by
  induction h with
  | start => exact Or.inl rfl
  | @next es fs p p' _ hst ih =>
    rcases ih (fun e he => hby e (List.mem_append_left _ he))
      fun e he => hext e (List.mem_append_left _ he) with rfl | ⟨e, he, hs⟩
    · have hby' : ∀ e ∈ fs, e.By token → e.OfSweep := fun e he => hby e (List.mem_append_right _ he)
      right
      cases hst with
      | extend j token d d' =>
        exact absurd rfl (hext _ (List.mem_append_right _ (List.mem_singleton_self _)) _)
      | stall | stallOut =>
        exact ⟨_, List.mem_append_right _ (List.mem_singleton_self _), trivial⟩
      | complete | retry | fail | requeue =>
        exact absurd (hby' _ (List.mem_singleton_self _) rfl) fun h => h
    · exact Or.inr ⟨e, List.mem_append_left _ he, hs⟩

/-- After `n` batches, each with its delay, and as many as failed, nothing is overdue. -/
theorem Sweeping.swept_in_time {ops : List (Call × RedisTime)} {n : ℕ}
    (hl : LeasesAreNumbers ops) (hon : v.enabled = true) (hm : m ≤ first)
    (hclock : m + 1 < 2 ^ 53)
    (hrun : Reaches (SweepStep sha1hex v late) (.start (run sha1hex ops) first) es s)
    (hbatch : ((run sha1hex ops).overdue m).length ≤ v.batchSize * n)
    (hn : first + (n + late.failures) * (v.interval + late.delay) + late.delay < s.now) :
    s.queue = run sha1hex (ops ++ es) ∧ LeasesAreNumbers es ∧ s.queue.overdue m = [] := by
  have hstart : (Sweeping.start (run sha1hex ops) first).InTurn v late m first
      ((run sha1hex ops).overdue m).length := by
    refine ⟨sound_run sha1hex hl, hclock, hm, ⟨fun _ => ?_, fun x hx => absurd hx List.not_mem_nil⟩,
      Nat.le_add_right _ _, fun x hx => absurd hx List.not_mem_nil, List.nodup_nil, rfl,
      Nat.zero_le _, Nat.le_refl _⟩
    change first ≤ first + v.interval + late.delay
    omega
  obtain ⟨h, hq, hes⟩ := hstart.run hrun
  have hswept := h.swept_of_late hon hn
  refine ⟨hq.trans (run_append sha1hex ops es).symm, hes, ?_⟩
  have hleft := h.left
  have := Nat.mul_le_mul_left v.batchSize (show n ≤ s.swept by omega)
  exact List.length_eq_zero_iff.mp (by omega)

/-- A job that was overdue, and of which nobody presented the token since, is overdue
still unless a sweep took it. -/
theorem abandoned_is_swept {ops : List (Call × RedisTime)} {i token : String}
    (hl : LeasesAreNumbers ops) (hes : LeasesAreNumbers es)
    (hempty : (run sha1hex (ops ++ es)).overdue m = []) (hi : i ∈ (run sha1hex ops).overdue m)
    (ht : (run sha1hex ops).lockToken i = some token)
    (hpres : ∀ op ∈ es, op.1.presents ≠ some (i, token)) :
    ∃ e ∈ history i (Machine.trace (exec sha1hex) (run sha1hex ops) es), e.OfSweep := by
  obtain ⟨d, hd, h0, hle⟩ := Queue.mem_overdue.mp hi
  obtain ⟨p, hp⟩ := sound_run sha1hex hl i
  obtain ⟨p', ⟨-, hp'⟩, hsteps⟩ := finish_refines sha1hex (sound_run sha1hex hl) hes hp
  have hact : ∃ j, p = .active j token d := by
    have hlock := hp.lockToken
    have hlease := hp.lease
    rw [ht] at hlock
    rw [hd] at hlease
    cases p with
    | active j t d' =>
      cases hlease
      cases hlock
      exact ⟨j, rfl⟩
    | _ => cases hlease
  obtain ⟨j, rfl⟩ := hact
  have hof : ∀ e ∈ history i (Machine.trace (exec sha1hex) (run sha1hex ops) es),
      ∃ op ∈ es, ∃ r, e ∈ actsOf i (op, r) := by
    intro e he
    obtain ⟨⟨op, r⟩, hx, hex⟩ := List.mem_flatMap.mp he
    exact ⟨op, Machine.mem_of_mem_trace hx, r, hex⟩
  refine (abandoned_stays hsteps (fun e he hby => ?_) fun e he d' hext => ?_).resolve_left ?_
  · obtain ⟨op, hop, r, hex⟩ := hof e he
    exact (by_of_mem_actsOf hex hby).resolve_right fun h => hpres op hop h.1
  · obtain ⟨op, hop, r, hex⟩ := hof e he
    subst hext
    obtain ⟨a, ha, -, hi', ht', -⟩ := of_mem_actsOf hex
    apply hpres op hop
    rw [ha, ← hi', ht']
    rfl
  · rintro rfl
    have hin : i ∈ (run sha1hex (ops ++ es)).overdue m := by
      rw [run_append]
      exact Queue.mem_overdue.mpr ⟨d, hp'.lease, h0, hle⟩
    rw [hempty] at hin
    cases hin

/-- A runner that sweeps takes all that is overdue in time, whatever others call,
with leases of a millisecond or more:
with `n` batches enough for what is overdue, and at most the given number of failed
sweeps, it is gone after as many intervals, each with its delay. A job whose worker
is dead, so that nobody presents its token, was taken by a sweep then. -/
theorem what_is_overdue_is_swept_in_time {ops : List (Call × RedisTime)} {n : ℕ}
    (hl : LeasesAreNumbers ops) (hon : v.enabled = true) (hm : m ≤ first)
    (hclock : m + 1 < 2 ^ 53)
    (hrun : Reaches (SweepStep sha1hex v late) (.start (run sha1hex ops) first) es s)
    (hbatch : ((run sha1hex ops).overdue m).length ≤ v.batchSize * n)
    (hn : first + (n + late.failures) * (v.interval + late.delay) + late.delay < s.now) :
    s.queue = run sha1hex (ops ++ es) ∧ s.queue.overdue m = [] ∧
    ∀ i ∈ (run sha1hex ops).overdue m, ∀ token, (run sha1hex ops).lockToken i = some token →
      (∀ op ∈ es, op.1.presents ≠ some (i, token)) →
      ∃ e ∈ history i (Machine.trace (exec sha1hex) (run sha1hex ops) es), e.OfSweep := by
  obtain ⟨hqueue, hes, hempty⟩ := Sweeping.swept_in_time hl hon hm hclock hrun hbatch hn
  refine ⟨hqueue, hempty, fun i hi token ht hpres => ?_⟩
  rw [hqueue] at hempty
  exact abandoned_is_swept hl hes hempty hi ht hpres

/-- A sweep every millisecond, of one job at a time. -/
def sampleSweeper : StalledRecoverySweep := .new (some (.ofNat 1)) (some 1) ⟨.keep, -1, -1⟩

theorem sample_job_is_swept_in_time :
    ∃ e ∈ history "j" (Machine.trace (exec id) (run id sampleOps)
      [(sampleSweeper.recover, ⟨32, 1000⟩)]), e.OfSweep := by
  have hi : sampleSweeper.interval = 1 := by decide +kernel
  have hon : sampleSweeper.enabled = true := by decide +kernel
  have hoverdue : (run id sampleOps).overdue 32000 = ["j"] := by
    rw [Queue.overdue_eq]
    decide +kernel
  have hl : LeasesAreNumbers sampleOps := by
    unfold LeasesAreNumbers
    decide
  let s : Sweeping := .start (run id sampleOps) 32000
  have h1 : Reaches (SweepStep id sampleSweeper ⟨0, 0⟩) s _ _ :=
    Reaches.start.next (.waited s ⟨fun _ => by rw [hi]; exact Nat.le_refl _,
      fun x hx => absurd hx List.not_mem_nil⟩)
  have h2 := h1.next (.timer _ hon (by rw [hi]; exact Nat.le_refl _))
  have h3 := h2.next (.swept _ (1, 32001) (by decide) ⟨32, 1000⟩ rfl)
  have h4 := h3.next (.waited _ ⟨fun _ => by rw [hi]; exact Nat.le_refl _,
    fun x hx => absurd hx List.not_mem_nil⟩)
  refine (what_is_overdue_is_swept_in_time (n := 1) hl hon (Nat.le_refl 32000)
    (by norm_num) h4 ?_ ?_).2.2 "j" ?_
    "j:2000:1" (by decide +kernel) fun op hop => ?_
  · rw [hoverdue]
    exact Nat.le_refl _
  · rw [hi]
    exact Nat.lt_succ_self _
  · rw [hoverdue]
    exact List.mem_singleton_self _
  · rw [List.mem_singleton.mp hop]
    exact fun h => by cases h

end Panqueue
