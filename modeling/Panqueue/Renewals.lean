-- The renewal of one claimed job beside a clock: its timer, its calls and their
-- replies, each no later than a bound, among the calls of all other callers.
import Panqueue.LeaseRenewer
import Panqueue.Leases

namespace Panqueue

variable {δ : Type}

/-! ## The system -/

/-- The renewals of a lease come in time: the lease outlasts `failures` failed
calls in a row and the one after them, each with its timer, by a millisecond. -/
def LeaseRenewer.InTime (l : LeaseRenewer) (late : Lateness) (L : ℚ) : Prop :=
  (((late.failures + 1) * (l.delay + 2 * late.delay) + late.delay + 1 : ℕ) : ℚ) ≤ L

/-- A claimed job from its claim on. The clock counts in milliseconds. `renewal`
is there once the claim reply has reached its runner, `since` is when it came to
its phase, and `reply` is the reply of its call, on its way. `failures` counts
the calls that failed since the last reply. -/
structure RenewedJob (δ : Type) where
  queue : Queue
  now : ℕ
  since : ℕ
  renewal : Option (Renewal δ) := none
  reply : Option Reply := none
  failures : ℕ := 0

variable (sha1hex : String → String) (l : LeaseRenewer) (late : Lateness) (i token : String)

/-- Nothing is later than it can be. -/
def RenewedJob.Prompt (s : RenewedJob δ) : Prop :=
  match s.renewal with
  | none => s.now ≤ s.since + late.delay
  | some r =>
    match r.phase with
    | .waiting => s.now ≤ s.since + l.delay + late.delay
    | .extending => s.now ≤ s.since + late.delay
    | _ => True

/-- One step: a call of someone else, who does not present the token, but calls
of the renewal that failed can still run; the claim reply, which starts the
renewal; its timer; its call, which Redis runs; the reply of the call, or its
failure; and a millisecond, which passes when nothing is late then. -/
inductive RenewalStep : RenewedJob δ → List (Call × RedisTime) → RenewedJob δ → Prop
  | call (s : RenewedJob δ) (op : Call × RedisTime) (hnow : op.2.now = s.now)
      (hl : op.1.LeaseIsNumber)
      (hp : op.1.presents = some (i, token) → op.1 = l.extendLock i token) :
    RenewalStep s [op] { s with queue := (exec sha1hex op s.queue).2 }
  | claimed (s : RenewedJob δ) (hr : s.renewal = none) :
    RenewalStep s [] { s with renewal := some (l.start i token), since := s.now }
  | timer (s : RenewedJob δ) (r : Renewal δ) (hr : s.renewal = some r) (hw : r.phase = .waiting)
      (hdue : s.since + l.delay ≤ s.now) :
    RenewalStep s [] { s with renewal := some r.tick, since := s.now }
  | extendLock (s : RenewedJob δ) (r : Renewal δ) (hr : s.renewal = some r)
      (hx : r.phase = .extending) (hnone : s.reply = none) (t : RedisTime) (hnow : t.now = s.now) :
    RenewalStep s [(l.extendLock i token, t)]
      { s with
        queue := (exec sha1hex (l.extendLock i token, t) s.queue).2
        reply := some (exec sha1hex (l.extendLock i token, t) s.queue).1 }
  | replied (s : RenewedJob δ) (r : Renewal δ) (hr : s.renewal = some r)
      (hx : r.phase = .extending) (reply : Reply) (hreply : s.reply = some reply) :
    RenewalStep s []
      { s with
        renewal := some (r.onReply reply.extended), since := s.now, reply := none, failures := 0 }
  | failed (s : RenewedJob δ) (r : Renewal δ) (hr : s.renewal = some r)
      (hx : r.phase = .extending) (hf : s.failures < late.failures) (error : String) :
    RenewalStep s []
      { s with
        renewal := some (r.onReply (.error error))
        since := s.now
        reply := none
        failures := s.failures + 1 }
  | waited (s : RenewedJob δ) (hp : RenewedJob.Prompt l late { s with now := s.now + 1 }) :
    RenewalStep s [] { s with now := s.now + 1 }

/-! ## One call and a job with a lease -/

variable {q : Queue} {op : Call × RedisTime} {p : Place} {B : Score} {L : ℚ}
variable {sha1hex l late i token}

/-- A refused call shows nothing. -/
theorem actsOf_refused {r : Reply} (h : r.Refused) : actsOf i (op, r) = [] := by
  obtain ⟨call, t⟩ := op
  cases r with
  | complete r | fail r | extendLock r | requeueActive r =>
    cases call <;> cases r <;> first | rfl | exact h.elim
  | _ => exact h.elim

variable (sha1hex) in
/-- Before the lease runs out, a call that does not present its token leaves the
job with its lease. -/
theorem Place.HeldTo.call (hp : p.HeldTo token B) (hat : At q i p) (hq : Sound q)
    (hl : op.1.LeaseIsNumber) (hne : op.1.presents ≠ some (i, token))
    (hB : Score.ofNat op.2.now < B) :
    actsOf i (op, (exec sha1hex op q).1) = [] ∧
      ∃ p', At (exec sha1hex op q).2 i p' ∧ p'.HeldTo token B := by
  by_cases hextend : ∃ a, op.1 = .extendLock a ∧ a.jobId = i
  · obtain ⟨a, ha, hi⟩ := hextend
    have hpres : op.1.presents = some (i, a.lockToken) := by
      rw [ha, ← hi]
      rfl
    have htoken : p.token ≠ some a.lockToken := by
      cases p with
      | active j t d =>
        intro h
        rw [hpres, ← Option.some.inj h, hp.1] at hne
        exact hne rfl
      | _ => cases hp
    obtain ⟨hrefused, hsame⟩ := exec_refused sha1hex hpres hat htoken
    rw [hsame]
    exact ⟨actsOf_refused hrefused, p, hat, hp⟩
  · obtain ⟨hm, -⟩ := exec_moves sha1hex op hl hq
    obtain ⟨p', hat', hs⟩ := hm i p hat
    have hbefore : ∀ e ∈ actsOf i (op, (exec sha1hex op q).1), e.Before B := by
      intro e he
      have ho := of_mem_actsOf he
      cases e with
      | extend t d =>
        obtain ⟨a, ha, -, hi, -⟩ := ho
        exact absurd ⟨a, by rw [ha], hi⟩ hextend
      | stall reason now | stallOut reason now =>
        obtain ⟨-, -, -, -, -, -, -, -, hnow⟩ := ho
        change Score.ofNat now < B
        rw [hnow]
        exact hB
      | _ => trivial
    have howner : ∀ e ∈ actsOf i (op, (exec sha1hex op q).1), ¬ e.OwnerEnds token := by
      intro e he ho
      have hby : e.By token := by
        cases e <;> simp_all [Act.OwnerEnds, Act.By]
      rcases by_of_mem_actsOf he hby with hsweep | ⟨hpres, -⟩
      · cases e <;> simp_all [Act.OwnerEnds, Act.OfSweep]
      · exact hne hpres
    obtain ⟨hheld, hes⟩ := hp.stays hs hbefore howner
    refine ⟨?_, p', hat', hheld⟩
    -- only a renewal could have shown
    refine List.eq_nil_iff_forall_not_mem.mpr fun e he => ?_
    obtain ⟨d, rfl⟩ := hes e he
    obtain ⟨a, ha, -, hi, -⟩ := of_mem_actsOf he
    exact hextend ⟨a, by rw [ha], hi⟩

variable (sha1hex) in
/-- A renewal of a job with a lease moves its deadline. -/
theorem Place.HeldTo.renew (hp : p.HeldTo token B) (hat : At q i p)
    (hL : l.leaseMs = .ofRat L) (t : RedisTime) :
    (exec sha1hex (l.extendLock i token, t) q).1 = .extendLock .extended ∧
      ∃ p', At (exec sha1hex (l.extendLock i token, t) q).2 i p' ∧
        p'.HeldTo token (leaseEnd L t.now) := by
  cases p with
  | active j t' d =>
    obtain ⟨rfl, -⟩ := hp
    have hd : l.leaseMs.plus t.now = .val (leaseEnd L t.now) := by
      rw [hL, Double.plus_ofRat]
      rfl
    obtain ⟨q', hrun, hat', -⟩ := extendLock_renews (t := t)
      (a := { jobId := i, lockToken := t', leaseMs := l.leaseMs }) hat hd
    have hexec : exec sha1hex (l.extendLock i t', t) q = (.extendLock .extended, q') := by
      simp only [exec, Lua.exec, LeaseRenewer.extendLock, runScript, hrun]
    rw [hexec]
    exact ⟨rfl, _, hat', rfl, le_refl _⟩
  | _ => cases hp

/-! ## The lease is renewed in time -/

/-- How long after the last renewal the timer of a renewal is set, at most. -/
def LeaseRenewer.set (l : LeaseRenewer) (late : Lateness) (failures : ℕ) : ℕ :=
  late.delay + failures * (l.delay + 2 * late.delay)

/-- A renewal on the way: when it came to its phase, with the lease last set at `a`. -/
def OnTime (l : LeaseRenewer) (late : Lateness) (a : ℕ) (s : RenewedJob δ) : Prop :=
  match s.renewal with
  | none => s.since ≤ a ∧ s.reply = none ∧ s.failures = 0
  | some r =>
    r.stopped = false ∧ r.lost ∉ r.emitted ∧
    match r.phase with
    | .waiting => s.since ≤ a + l.set late s.failures ∧ s.reply = none
    | .extending =>
      s.reply = none ∧ s.since ≤ a + l.set late s.failures + l.delay + late.delay ∨
        s.reply = some (.extendLock .extended) ∧ s.since ≤ a
    | _ => False

/-- The job is held, its lease was last set at `a`, and its renewal is on time. -/
structure Renewing (l : LeaseRenewer) (late : Lateness) (i token : String) (L : ℚ) (a : ℕ)
    (s : RenewedJob δ) : Prop where
  sound : Sound s.queue
  held : ∃ p, At s.queue i p ∧ p.HeldTo token (leaseEnd L a)
  set : a ≤ s.now
  since : s.since ≤ s.now
  prompt : s.Prompt l late
  failures : s.failures ≤ late.failures
  onTime : OnTime l late a s

theorem LeaseRenewer.set_zero (l : LeaseRenewer) (late : Lateness) : l.set late 0 = late.delay := by
  unfold LeaseRenewer.set
  omega

theorem LeaseRenewer.set_succ (l : LeaseRenewer) (late : Lateness) (failures : ℕ) :
    l.set late (failures + 1) = l.set late failures + l.delay + 2 * late.delay := by
  unfold LeaseRenewer.set
  rw [Nat.succ_mul failures]
  omega

theorem LeaseRenewer.set_mono (l : LeaseRenewer) (late : Lateness) {m n : ℕ} (h : m ≤ n) :
    l.set late m ≤ l.set late n := by
  unfold LeaseRenewer.set
  have := Nat.mul_le_mul_right (l.delay + 2 * late.delay) h
  omega

variable {s s' : RenewedJob δ} {a a' : ℕ} {es : List (Call × RedisTime)}

/-- A lease set later is on time as well. -/
theorem OnTime.mono (h : OnTime l late a s) (ha : a ≤ a') : OnTime l late a' s := by
  unfold OnTime at h ⊢
  cases hr : s.renewal with
  | none =>
    rw [hr] at h
    exact ⟨Nat.le_trans h.1 ha, h.2⟩
  | some r =>
    rw [hr] at h
    obtain ⟨hs, hlost, h⟩ := h
    refine ⟨hs, hlost, ?_⟩
    cases hphase : r.phase with
    | waiting =>
      rw [hphase] at h
      exact ⟨by omega, h.2⟩
    | extending =>
      rw [hphase] at h
      rcases h with ⟨hn, hle⟩ | ⟨hn, hle⟩
      · exact Or.inl ⟨hn, by omega⟩
      · exact Or.inr ⟨hn, by omega⟩
    | disabled | ended =>
      rw [hphase] at h
      exact h.elim

/-- The lease has not run out. -/
theorem Renewing.early (h : Renewing l late i token L a s) (hin : l.InTime late L)
    (hclock : s.now + 1 < 2 ^ 53) : Score.ofNat s.now < leaseEnd L a := by
  have hset := l.set_mono late h.failures
  have hp := h.prompt
  have ho := h.onTime
  unfold RenewedJob.Prompt at hp
  unfold OnTime at ho
  have hnow : s.now ≤ a + (l.set late late.failures + l.delay + 2 * late.delay) := by
    cases hr : s.renewal with
    | none =>
      rw [hr] at hp ho
      have := l.set_mono late (Nat.zero_le late.failures)
      rw [l.set_zero] at this
      dsimp only at hp ho
      omega
    | some r =>
      rw [hr] at hp ho
      obtain ⟨-, -, ho⟩ := ho
      dsimp only at hp
      cases hphase : r.phase with
      | waiting =>
        rw [hphase] at hp ho
        dsimp only at hp ho
        omega
      | extending =>
        rw [hphase] at hp ho
        dsimp only at hp ho
        rcases ho with ⟨-, ho⟩ | ⟨-, ho⟩ <;> omega
      | disabled | ended =>
        rw [hphase] at ho
        exact ho.elim
  have hbound : a + (l.set late late.failures + l.delay + 2 * late.delay) =
      a + ((late.failures + 1) * (l.delay + 2 * late.delay) + late.delay) := by
    unfold LeaseRenewer.set
    rw [Nat.succ_mul late.failures]
    omega
  rw [hbound] at hnow
  have hnext : ((s.now + 1 : ℕ) : ℚ) ≤ L + a := by
    have hle : ((s.now + 1 : ℕ) : ℚ) ≤
        a + ((late.failures + 1) * (l.delay + 2 * late.delay) + late.delay + 1 : ℕ) := by
      exact_mod_cast Nat.succ_le_succ hnow
    have hL : (((late.failures + 1) * (l.delay + 2 * late.delay) + late.delay + 1 : ℕ) : ℚ) ≤ L :=
      hin
    linarith
  -- the next millisecond is a double, and no later than the sum
  calc Score.ofNat s.now < Score.ofNat (s.now + 1) := Score.ofNat_lt.mpr (Nat.lt_succ_self _)
    _ = (Score.ofNat (s.now + 1)).round := (Score.round_ofNat hclock).symm
    _ ≤ leaseEnd L a := Score.round_mono (Score.ofRat_le.mpr hnext)

theorem RenewalStep.queue (h : RenewalStep sha1hex l late i token s es s') :
    s'.queue = Machine.finish (exec sha1hex) s.queue es := by
  cases h <;> rfl

theorem RenewalStep.now_le (h : RenewalStep sha1hex l late i token s es s') : s.now ≤ s'.now := by
  cases h <;> first | exact Nat.le_refl _ | exact Nat.le_succ _

/-! ## One step -/

theorem started_waiting (hpos : ¬ l.lockRenewMs ≤ .ofNat 0) (ht : token ≠ "") :
    (l.start i token : Renewal δ).phase = .waiting := by
  unfold LeaseRenewer.start
  rw [if_neg (by simp [ht, hpos])]

theorem history_one (op : Call × RedisTime) (q : Queue) :
    history i (Machine.trace (exec sha1hex) q [op]) = actsOf i (op, (exec sha1hex op q).1) :=
  List.append_nil _

/-- What a renewal of a held job shows. -/
theorem renewal_acts {t : RedisTime} {e : Act}
    (he : e ∈ actsOf i ((l.extendLock i token, t), .extendLock .extended)) :
    ∃ d, e = .extend token d := by
  simp only [LeaseRenewer.extendLock, actsOf, if_true, List.mem_singleton] at he
  exact ⟨_, he⟩

variable (sha1hex) in
/-- A call of someone else leaves the job held. -/
theorem Renewing.call (h : Renewing l late i token L a s) (hin : l.InTime late L)
    (hclock : s.now + 1 < 2 ^ 53) (hL : l.leaseMs = .ofRat L) (hnow : op.2.now = s.now)
    (hl : op.1.LeaseIsNumber)
    (hp : op.1.presents = some (i, token) → op.1 = l.extendLock i token) :
    (∃ a', Renewing l late i token L a' { s with queue := (exec sha1hex op s.queue).2 }) ∧
      ∀ e ∈ actsOf i (op, (exec sha1hex op s.queue).1), ∃ d, e = .extend token d := by
  obtain ⟨p, hat, hheld⟩ := h.held
  have hsound := (exec_moves sha1hex op hl h.sound).1.sound h.sound
  by_cases hpres : op.1.presents = some (i, token)
  · obtain ⟨call, t⟩ := op
    obtain rfl : call = l.extendLock i token := hp hpres
    obtain ⟨hreply, p', hat', hheld'⟩ := hheld.renew sha1hex hat hL t
    refine ⟨⟨s.now, hsound, ⟨p', hat', ?_⟩, Nat.le_refl _, h.since, h.prompt, h.failures,
      OnTime.mono h.onTime h.set⟩, ?_⟩
    · rw [← hnow]
      exact hheld'
    · intro e he
      rw [hreply] at he
      exact renewal_acts he
  · obtain ⟨hacts, p', hat', hheld'⟩ := hheld.call sha1hex hat h.sound hl hpres
      (by rw [hnow]; exact h.early hin hclock)
    refine ⟨⟨a, hsound, ⟨p', hat', hheld'⟩, h.set, h.since, h.prompt, h.failures, h.onTime⟩, ?_⟩
    rw [hacts]
    exact fun e he => absurd he List.not_mem_nil

/-- The reply of a renewal sets the timer again. -/
theorem Renewing.replied (h : Renewing l late i token L a s) {r : Renewal δ}
    (hr : s.renewal = some r) (hx : r.phase = .extending) {reply : Reply}
    (hreply : s.reply = some reply) :
    Renewing l late i token L a { s with
      renewal := some (r.onReply reply.extended), since := s.now, reply := none,
      failures := 0 } := by
  have ho := h.onTime
  have hp := h.prompt
  unfold OnTime at ho
  unfold RenewedJob.Prompt at hp
  rw [hr] at ho hp
  obtain ⟨hs, hlost, ho⟩ := ho
  dsimp only at hp
  rw [hx] at ho hp
  rcases ho with ⟨hnone, -⟩ | ⟨hsome, hle⟩
  · rw [hnone] at hreply
    cases hreply
  · obtain rfl : reply = .extendLock .extended := by
      rw [hsome] at hreply
      exact (Option.some.inj hreply).symm
    have hrearm :
        r.onReply (Reply.extendLock .extended).extended = { r with phase := .waiting } := by
      unfold Renewal.onReply Renewal.rearm
      rw [if_pos hx, hs]
      rfl
    rw [hrearm]
    refine ⟨h.sound, h.held, h.set, Nat.le_refl _, ?_, Nat.zero_le _, ⟨hs, hlost, ?_, rfl⟩⟩
    · change s.now ≤ s.now + l.delay + late.delay
      omega
    · change s.now ≤ a + l.set late 0
      rw [l.set_zero]
      dsimp only at hp
      omega

/-- A call that failed sets the timer again. -/
theorem Renewing.failed (h : Renewing l late i token L a s) {r : Renewal δ}
    (hr : s.renewal = some r) (hx : r.phase = .extending) (hf : s.failures < late.failures)
    (error : String) :
    Renewing l late i token L a { s with
      renewal := some (r.onReply (.error error))
      since := s.now
      reply := none
      failures := s.failures + 1 } := by
  have ho := h.onTime
  have hp := h.prompt
  unfold OnTime at ho
  unfold RenewedJob.Prompt at hp
  rw [hr] at ho hp
  obtain ⟨hs, hlost, ho⟩ := ho
  dsimp only at hp
  rw [hx] at ho hp
  have hrearm : r.onReply (.error error) =
      { r with phase := .waiting, emitted := r.emitted ++ [r.missed] } := by
    unfold Renewal.onReply Renewal.rearm
    rw [if_pos hx, hs]
    rfl
  rw [hrearm]
  refine ⟨h.sound, h.held, h.set, Nat.le_refl _, ?_, hf, ⟨hs, ?_, ?_, rfl⟩⟩
  · change s.now ≤ s.now + l.delay + late.delay
    omega
  · intro hmem
    rcases List.mem_append.mp hmem with hmem | hmem
    · exact hlost hmem
    · have heq := List.mem_singleton.mp hmem
      unfold Renewal.lost Renewal.missed at heq
      cases heq
  · change s.now ≤ a + l.set late (s.failures + 1)
    rw [l.set_succ]
    dsimp only at hp
    rcases ho with ⟨-, ho⟩ | ⟨-, ho⟩
    · omega
    · have := l.set_mono late (Nat.zero_le s.failures)
      rw [l.set_zero] at this
      omega

/-- The step lemma: the job stays held, and only renewals happen to it. -/
theorem Renewing.step (h : Renewing l late i token L a s) (hin : l.InTime late L)
    (hclock : s.now + 1 < 2 ^ 53) (hL : l.leaseMs = .ofRat L) (hpos : ¬ l.lockRenewMs ≤ .ofNat 0)
    (ht : token ≠ "")
    (hs : RenewalStep sha1hex l late i token s es s') :
    (∃ a', Renewing l late i token L a' s') ∧
      ∀ e ∈ history i (Machine.trace (exec sha1hex) s.queue es), ∃ d, e = .extend token d := by
  have hnone : ∀ e ∈ history i (Machine.trace (exec sha1hex) s.queue []),
      ∃ d, e = Act.extend token d := fun e he => absurd he List.not_mem_nil
  cases hs with
  | call op hnow hl hp =>
    obtain ⟨ha, hes⟩ := h.call sha1hex hin hclock hL hnow hl hp
    refine ⟨ha, fun e he => hes e ?_⟩
    rwa [history_one] at he
  | claimed hr =>
    refine ⟨⟨a, h.sound, h.held, h.set, Nat.le_refl _, ?_, h.failures, ?_⟩, hnone⟩
    · unfold RenewedJob.Prompt
      dsimp only
      rw [started_waiting hpos ht]
      dsimp only
      omega
    · have ho := h.onTime
      have hp := h.prompt
      unfold OnTime at ho ⊢
      unfold RenewedJob.Prompt at hp
      rw [hr] at ho hp
      dsimp only at ho hp ⊢
      rw [started_waiting hpos ht]
      refine ⟨rfl, List.not_mem_nil, ?_, ho.2.1⟩
      rw [ho.2.2, l.set_zero]
      omega
  | timer r hr hw hdue =>
    have ho := h.onTime
    have hp := h.prompt
    unfold OnTime at ho
    unfold RenewedJob.Prompt at hp
    rw [hr] at ho hp
    obtain ⟨hs, hlost, ho⟩ := ho
    dsimp only at hp
    rw [hw] at ho hp
    have htick : r.tick = { r with phase := .extending, calls := r.calls + 1 } := by
      unfold Renewal.tick
      rw [if_pos hw, hs, if_neg (by simp)]
    rw [htick]
    refine ⟨⟨a, h.sound, h.held, h.set, Nat.le_refl _, ?_, h.failures,
      ⟨hs, hlost, Or.inl ⟨ho.2, ?_⟩⟩⟩, hnone⟩
    · change s.now ≤ s.now + late.delay
      omega
    · change s.now ≤ a + l.set late s.failures + l.delay + late.delay
      have hle := ho.1
      dsimp only at hp
      omega
  | extendLock r hr hx hreply t hnow =>
    obtain ⟨p, hat, hheld⟩ := h.held
    obtain ⟨hext, p', hat', hheld'⟩ := hheld.renew sha1hex hat hL t
    have hnum : (l.extendLock i token).LeaseIsNumber := by
      unfold LeaseRenewer.extendLock Call.LeaseIsNumber
      rw [hL]
      unfold Double.ofRat
      simp
    have hsound := (exec_moves sha1hex (l.extendLock i token, t) hnum h.sound).1.sound h.sound
    have ho := h.onTime
    unfold OnTime at ho
    rw [hr] at ho
    obtain ⟨hs, hlost, -⟩ := ho
    refine ⟨⟨s.now, hsound, ⟨p', hat', ?_⟩, Nat.le_refl _, h.since, h.prompt, h.failures, ?_⟩, ?_⟩
    · rw [← hnow]
      exact hheld'
    · unfold OnTime
      dsimp only
      rw [hr, hext]
      refine ⟨hs, hlost, ?_⟩
      rw [hx]
      exact Or.inr ⟨rfl, h.since⟩
    · intro e he
      rw [history_one, hext] at he
      exact renewal_acts he
  | replied r hr hx reply hreply => exact ⟨⟨a, h.replied hr hx hreply⟩, hnone⟩
  | failed r hr hx hf error => exact ⟨⟨a, h.failed hr hx hf error⟩, hnone⟩
  | waited hp =>
    refine ⟨⟨a, h.sound, h.held, Nat.le_succ_of_le h.set, Nat.le_succ_of_le h.since, hp,
      h.failures, h.onTime⟩, hnone⟩

/-! ## The whole run -/

/-- The job right after its claim. -/
def RenewedJob.start (δ : Type) (sha1hex : String → String) (ops : List (Call × RedisTime))
    (op : Call × RedisTime) : RenewedJob δ where
  queue := run sha1hex (ops ++ [op])
  now := op.2.now
  since := op.2.now

/-- The run lemma. -/
theorem Renewing.run (h : Renewing l late i token L a s) (hin : l.InTime late L)
    (hL : l.leaseMs = .ofRat L) (hpos : ¬ l.lockRenewMs ≤ .ofNat 0) (ht : token ≠ "")
    (hrun : Reaches (RenewalStep sha1hex l late i token) s es s') (hclock : s'.now + 1 < 2 ^ 53) :
    (∃ a', Renewing l late i token L a' s') ∧
      s'.queue = Machine.finish (exec sha1hex) s.queue es ∧
      ∀ e ∈ history i (Machine.trace (exec sha1hex) s.queue es), ∃ d, e = .extend token d := by
  induction hrun with
  | start => exact ⟨⟨a, h⟩, rfl, fun e he => absurd he List.not_mem_nil⟩
  | @next es fs u v _ hs ih =>
    have hle := hs.now_le
    obtain ⟨⟨b, hb⟩, hq, hes⟩ := ih (by omega)
    obtain ⟨hv, hfs⟩ := hb.step hin (by omega) hL hpos ht hs
    refine ⟨hv, ?_, fun e he => ?_⟩
    · rw [hs.queue, hq, Machine.finish_append]
    · rw [Machine.trace_append, history_append, ← hq] at he
      rcases List.mem_append.mp he with he | he
      · exact hes e he
      · exact hfs e he

/-- A claim that is renewed in time keeps its job. Between the claim and the stop
of its renewal, whatever others call, with leases that are numbers, and though
calls of the renewal fail, nothing but renewals happens to the job: it stays under
its token, its lease does not run out, and its worker is never told that the lease
was lost. -/
theorem a_renewed_lease_never_runs_out {ops : List (Call × RedisTime)} {count : ℕ} {t : RedisTime}
    {d : Double} (hl : LeasesAreNumbers ops) (hL : l.leaseMs = .ofRat L)
    (hclaim : .claim token t.now d ∈ actsOf i ((.claimGlobalBatch ⟨l.leaseMs, count⟩, t),
      (exec sha1hex (.claimGlobalBatch ⟨l.leaseMs, count⟩, t) (run sha1hex ops)).1))
    (ht : token ≠ "") (hpos : ¬ l.lockRenewMs ≤ .ofNat 0) (hin : l.InTime late L)
    (hrun : Reaches (RenewalStep sha1hex l late i token)
      (RenewedJob.start δ sha1hex ops (.claimGlobalBatch ⟨l.leaseMs, count⟩, t)) es s)
    (hclock : s.now + 1 < 2 ^ 53) :
    (∀ e ∈ historyFrom sha1hex (ops ++ [(.claimGlobalBatch ⟨l.leaseMs, count⟩, t)]) es i,
      ∃ d, e = .extend token d) ∧
    s.queue = run sha1hex (ops ++ (.claimGlobalBatch ⟨l.leaseMs, count⟩, t) :: es) ∧
    s.queue.lockToken i = some token ∧
    (∃ d, s.queue.active.score i = some d ∧ Score.ofNat s.now < d) ∧
    ∀ r, s.renewal = some r → r.stopped = false ∧ r.lost ∉ r.emitted := by
  have hop : Call.LeaseIsNumber (.claimGlobalBatch ⟨l.leaseMs, count⟩) := by
    unfold Call.LeaseIsNumber
    rw [hL]
    unfold Double.ofRat
    simp
  obtain ⟨p, hp⟩ := sound_run sha1hex hl i
  have hmoves := (exec_moves sha1hex (.claimGlobalBatch ⟨l.leaseMs, count⟩, t) hop
    (sound_run sha1hex hl)).1
  obtain ⟨p', hp', hs⟩ := hmoves i p hp
  have hheld := held_after hs hclaim rfl hL
  have hsound : Sound (run sha1hex (ops ++ [(.claimGlobalBatch ⟨l.leaseMs, count⟩, t)])) := by
    rw [run_snoc]
    exact hmoves.sound (sound_run sha1hex hl)
  have hstart : Renewing l late i token L t.now
      (RenewedJob.start δ sha1hex ops (.claimGlobalBatch ⟨l.leaseMs, count⟩, t)) := by
    refine ⟨hsound, ⟨p', ?_, hheld⟩, Nat.le_refl _, Nat.le_refl _, ?_, Nat.zero_le _, ?_⟩
    · change At (run sha1hex (ops ++ [_])) i p'
      rw [run_snoc]
      exact hp'
    · exact Nat.le_add_right _ _
    · exact ⟨Nat.le_refl _, rfl, rfl⟩
  obtain ⟨⟨a, h⟩, hq, hes⟩ := hstart.run hin hL hpos ht hrun hclock
  refine ⟨hes, ?_, ?_, ?_, ?_⟩
  · rw [hq, ← List.singleton_append, ← List.append_assoc, run_append]
    rfl
  · obtain ⟨p, hat, hheld⟩ := h.held
    cases p with
    | active j t' d =>
      rw [hat.lockToken, ← hheld.1]
      rfl
    | _ => cases hheld
  · obtain ⟨p, hat, hheld⟩ := h.held
    cases p with
    | active j t' d =>
      refine ⟨d, hat.lease, lt_of_lt_of_le ?_ hheld.2⟩
      exact h.early hin hclock
    | _ => cases hheld
  · intro r hr
    have ho := h.onTime
    unfold OnTime at ho
    rw [hr] at ho
    exact ⟨ho.1, ho.2.1⟩

/-- With its default interval, a third of the lease, a renewal comes in time after
one failed call, when fifteen delays and three milliseconds fit in the lease. -/
theorem default_renewals_come_in_time {D : ℕ} (h3 : 3 ≤ L) (hmax : L ≤ TIMEOUT_MAX)
    (hD : 15 * (D : ℚ) + 3 ≤ L) : (LeaseRenewer.new (some (.ofRat L)) none).InTime ⟨D, 1⟩ L := by
  have hfloor : 1 ≤ ⌊L / 3⌋ := Int.le_floor.mpr (by push_cast; linarith)
  have hle : ((⌊L / 3⌋ : ℤ) : ℚ) ≤ L / 3 := Int.floor_le _
  have hone : (1 : ℚ) ≤ ((⌊L / 3⌋ : ℤ) : ℚ) := by exact_mod_cast hfloor
  have hrenew : (LeaseRenewer.new (some (.ofRat L)) none).lockRenewMs =
      .ofRat ((⌊L / 3⌋ : ℤ) : ℚ) := by
    change Double.max (.ofNat 1) (.ofInt ⌊L / 3⌋) = _
    unfold Double.max Double.ofNat Double.ofInt Double.ofRat
    dsimp only
    rw [max_eq_right]
    exact Score.ofRat_le.mpr (by exact_mod_cast hfloor)
  have hdelay : (LeaseRenewer.new (some (.ofRat L)) none).delay = ⌊L / 3⌋.toNat := by
    unfold LeaseRenewer.delay
    rw [hrenew]
    change (if _ then _ else _) = _
    rw [if_pos ⟨hone, by linarith⟩, Int.floor_intCast]
  have hcast : ((⌊L / 3⌋.toNat : ℕ) : ℚ) = ((⌊L / 3⌋ : ℤ) : ℚ) := by
    exact_mod_cast Int.toNat_of_nonneg (by omega)
  unfold LeaseRenewer.InTime
  rw [hdelay]
  push_cast
  rw [hcast]
  linarith

theorem prompt_waiting {r : Renewal δ} (hr : s.renewal = some r) (hw : r.phase = .waiting)
    (h : s.now ≤ s.since + l.delay + late.delay) : s.Prompt l late := by
  simp only [RenewedJob.Prompt, hr, hw]
  exact h

/-- The sample job under a lease of two milliseconds, renewed after one. -/
def sampleRenewer : LeaseRenewer := ⟨.ofRat 2, .ofRat 1⟩

/-- A sweep at the first deadline of the sample job leaves the job alone: its lease
was renewed one millisecond before. -/
theorem sample_renewal_outlasts_its_lease :
    (run id [(.enqueue sampleJob, ⟨1, 0⟩), (.claimGlobalBatch ⟨sampleRenewer.leaseMs, 1⟩, ⟨2, 0⟩),
      (sampleRenewer.extendLock "j" "j:2000:1", ⟨2, 1000⟩),
      (.recover ⟨-1, "lost", ⟨.keep, -1, -1⟩⟩, ⟨2, 2000⟩)]).lockToken "j" = some "j:2000:1" := by
  have hin : sampleRenewer.InTime ⟨0, 0⟩ 2 := by
    unfold LeaseRenewer.InTime
    have hdelay : sampleRenewer.delay = 1 := by decide +kernel
    rw [hdelay]
    norm_num
  let s := RenewedJob.start String id [(.enqueue sampleJob, ⟨1, 0⟩)]
    (.claimGlobalBatch ⟨sampleRenewer.leaseMs, 1⟩, ⟨2, 0⟩)
  have hwaiting : (sampleRenewer.start "j" "j:2000:1" : Renewal String).phase = .waiting :=
    started_waiting (by decide +kernel) (by decide)
  have hextending : (sampleRenewer.start "j" "j:2000:1" : Renewal String).tick.phase =
      .extending := by decide +kernel
  have h1 : Reaches (RenewalStep id sampleRenewer ⟨0, 0⟩ "j" "j:2000:1") s _ _ :=
    Reaches.start.next (.claimed s rfl)
  have h2 := h1.next (.waited _ (prompt_waiting rfl hwaiting (by decide +kernel)))
  have h3 := h2.next (.timer _ _ rfl hwaiting (by decide +kernel))
  have h4 := h3.next (.extendLock _ _ rfl hextending rfl ⟨2, 1000⟩ rfl)
  have h5 := h4.next (.replied _ _ rfl hextending _ rfl)
  have h6 := h5.next (.waited _ (prompt_waiting rfl (by decide +kernel) (by decide +kernel)))
  have h7 := h6.next (.call _ (.recover ⟨-1, "lost", ⟨.keep, -1, -1⟩⟩, ⟨2, 2000⟩)
    (by decide +kernel) trivial (by simp [Call.presents]))
  obtain ⟨-, hq, htoken, -⟩ := a_renewed_lease_never_runs_out (d := .ofNat 2002)
    (fun op h => by rw [List.mem_singleton.mp h]; trivial) rfl (by decide +kernel) (by decide)
    (by decide +kernel) hin h7 (by decide +kernel)
  rw [hq] at htoken
  exact htoken

end Panqueue
