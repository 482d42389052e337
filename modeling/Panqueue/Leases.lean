-- The law of the leases: until a lease runs out, only its owner ends the
-- claim, when all callers use one lease and TIME never goes backwards. The
-- scripts count in whole milliseconds, and a deadline is a double.
import Panqueue.Fencing

namespace Panqueue

variable (sha1hex : String → String) {i : String}

/-! ## One lease held -/

/-- The call, if it sets a lease, sets one of `L` milliseconds. -/
def Call.LeaseIs (L : ℚ) : Call → Prop
  | .claimGlobalBatch a => a.leaseMs = .ofRat L
  | .extendLock a => a.leaseMs = .ofRat L
  | _ => True

/-- The deadline of a lease of `L` milliseconds that is set at `now`. -/
def leaseEnd (L : ℚ) (now : ℕ) : Score := (Score.ofRat (L + now)).round

theorem leaseEnd_mono (L : ℚ) {t t' : ℕ} (h : t ≤ t') : leaseEnd L t ≤ leaseEnd L t' := by
  refine Score.round_mono (Score.ofRat_le.mpr ?_)
  have : (t : ℚ) ≤ t' := by exact_mod_cast h
  linarith

/-- A lease of whole milliseconds ends when they are over. -/
theorem leaseEnd_whole {n t : ℕ} (h : t + n < 2 ^ 53) : leaseEnd n t = Score.ofNat (t + n) := by
  have hsum : Score.ofRat ((n : ℚ) + t) = Score.ofNat (t + n) := by
    rw [Score.ofNat]
    push_cast
    rw [add_comm]
  rw [leaseEnd, hsum, Score.round_ofNat h]

/-- The owner of the claim with this token ends it. -/
def Act.OwnerEnds (token : String) : Act → Prop
  | complete t _ => t = token
  | retry t _ _ => t = token
  | fail t _ _ => t = token
  | requeue t _ _ => t = token
  | _ => False

/-- The act sets a lease for the claim with this token. -/
def Act.Leases (token : String) : Act → Prop
  | claim t _ _ => t = token
  | extend t _ => t = token
  | _ => False

/-- Before the deadline `B`: a sweep comes before `B`, and a renewal reaches `B` or more. -/
def Act.Before (B : Score) : Act → Prop
  | stall _ now => Score.ofNat now < B
  | stallOut _ now => Score.ofNat now < B
  | extend _ d => ∃ s, d = .val s ∧ B ≤ s
  | _ => True

/-- The job is active under the token, with a lease up to `B` or more. -/
def Place.HeldTo (token : String) (B : Score) : Place → Prop
  | active _ t d => t = token ∧ B ≤ d
  | _ => False

theorem JobStep.heldTo {issue : ℕ → ℕ → String} {p p' : Place} {es : List Act} {token : String}
    {B : Score} (h : JobStep issue p es p') (hp : p.HeldTo token B) (hb : ∀ e ∈ es, e.Before B)
    (ho : ∀ e ∈ es, ¬ e.OwnerEnds token) :
    p'.HeldTo token B ∧ ∀ e ∈ es, ∃ d, e = .extend token d := by
  cases h with
  | extend j t d d' =>
    obtain ⟨s, hs, hB⟩ := hb _ (List.mem_singleton_self _)
    cases hs
    refine ⟨⟨hp.1, hB⟩, fun e he => ?_⟩
    rw [List.mem_singleton.mp he, hp.1]
    exact ⟨_, rfl⟩
  | stall j t d reason now hd hm =>
    have hnow := hb _ (List.mem_singleton_self _)
    exact absurd hnow (not_lt.mpr (le_trans hp.2 hd))
  | stallOut j t d reason now hd hm =>
    have hnow := hb _ (List.mem_singleton_self _)
    exact absurd hnow (not_lt.mpr (le_trans hp.2 hd))
  | complete j t d now => exact absurd hp.1 (ho _ (List.mem_singleton_self _))
  | retry j t d error now hm => exact absurd hp.1 (ho _ (List.mem_singleton_self _))
  | fail j t d error now hm => exact absurd hp.1 (ho _ (List.mem_singleton_self _))
  | requeue j t d reason now => exact absurd hp.1 (ho _ (List.mem_singleton_self _))
  | _ => cases hp

/-- A lease up to `B` stays with its owner before `B`. -/
theorem Place.HeldTo.stays {issue : ℕ → ℕ → String} {p p' : Place} {es : List Act}
    {token : String} {B : Score} (hp : p.HeldTo token B) (h : Reaches (JobStep issue) p es p')
    (hb : ∀ e ∈ es, e.Before B) (ho : ∀ e ∈ es, ¬ e.OwnerEnds token) :
    p'.HeldTo token B ∧ ∀ e ∈ es, ∃ d, e = .extend token d := by
  induction h with
  | start => exact ⟨hp, fun e he => by cases he⟩
  | next _ hst ih =>
    obtain ⟨h1, hes⟩ := ih (fun e he => hb e (List.mem_append_left _ he))
      fun e he => ho e (List.mem_append_left _ he)
    obtain ⟨h2, hfs⟩ := hst.heldTo h1 (fun e he => hb e (List.mem_append_right _ he))
      fun e he => ho e (List.mem_append_right _ he)
    refine ⟨h2, fun e he => ?_⟩
    rcases List.mem_append.mp he with he | he
    · exact hes e he
    · exact hfs e he

/-! ## A lease set -/

theorem Call.LeaseIs.isNumber {L : ℚ} {c : Call} (h : c.LeaseIs L) : c.LeaseIsNumber := by
  cases c with
  | claimGlobalBatch a =>
    intro hn
    exact absurd (h.symm.trans hn) (by unfold Double.ofRat; simp)
  | extendLock a =>
    intro hn
    exact absurd (h.symm.trans hn) (by unfold Double.ofRat; simp)
  | _ => trivial

/-- The deadline of a lease that a call sets. -/
theorem Act.Leases.deadline {L : ℚ} {op : Call × RedisTime} {r : Reply} {e : Act} {token : String}
    (he : e.Leases token) (ho : e.Of i op r) (hL : op.1.LeaseIs L) :
    (∃ now, e = .claim token now (.val (leaseEnd L op.2.now))) ∨
      e = .extend token (.val (leaseEnd L op.2.now)) := by
  cases e with
  | claim t now d =>
    left
    obtain ⟨a, es, h, hop, -, -, -, -, hnow, hd⟩ := ho
    cases he
    rw [hop] at hL
    have hl : a.leaseMs = .ofRat L := hL
    rw [hd, hl, hnow, Double.plus_ofRat]
    exact ⟨_, rfl⟩
  | extend t d =>
    right
    obtain ⟨a, hop, -, -, -, hd⟩ := ho
    cases he
    rw [hop] at hL
    have hl : a.leaseMs = .ofRat L := hL
    rw [hd, hl, Double.plus_ofRat]
    rfl
  | _ => cases he

/-- A call that sets a lease of a job does nothing else to the job. -/
theorem Act.Leases.alone {L : ℚ} {op : Call × RedisTime} {r : Reply} {e e' : Act} {token : String}
    (he : e.Leases token) (ho : e.Of i op r) (ho' : e'.Of i op r) (hL : op.1.LeaseIs L) :
    e'.Before (leaseEnd L op.2.now) ∧ ∀ t, ¬ e'.OwnerEnds t := by
  have hop : (∃ a, op.1 = .claimGlobalBatch a) ∨ ∃ a, op.1 = .extendLock a := by
    cases e with
    | claim _ _ _ =>
      obtain ⟨a, _, _, h, -⟩ := ho
      exact Or.inl ⟨a, by rw [h]⟩
    | extend _ _ =>
      obtain ⟨a, h, -⟩ := ho
      exact Or.inr ⟨a, by rw [h]⟩
    | _ => cases he
  cases e' with
  | claim _ _ _ => exact ⟨trivial, fun _ h => h⟩
  | extend t d =>
    refine ⟨?_, fun _ h => h⟩
    rcases Act.Leases.deadline (e := .extend t d) rfl ho' hL with ⟨_, h⟩ | h
    · cases h
    · cases h
      exact ⟨_, rfl, le_refl _⟩
  | enqueue _ _ =>
    have := ho'.1
    rcases hop with ⟨_, h⟩ | ⟨_, h⟩ <;> rw [this] at h <;> cases h
  | stall _ _ | stallOut _ _ =>
    obtain ⟨_, _, _, h', -⟩ := ho'
    rcases hop with ⟨_, h⟩ | ⟨_, h⟩ <;> rw [h'] at h <;> cases h
  | complete _ _ | retry _ _ _ | fail _ _ _ | requeue _ _ _ =>
    obtain ⟨_, h', -⟩ := ho'
    rcases hop with ⟨_, h⟩ | ⟨_, h⟩ <;> rw [h'] at h <;> cases h

/-- After a call that sets a lease of a job, the job holds it. -/
theorem held_after {issue : ℕ → ℕ → String} {p p' : Place} {op : Call × RedisTime} {r : Reply}
    {e : Act} {token : String} {L : ℚ} (h : Reaches (JobStep issue) p (actsOf i (op, r)) p')
    (hmem : e ∈ actsOf i (op, r)) (he : e.Leases token) (hL : op.1.LeaseIs L) :
    p'.HeldTo token (leaseEnd L op.2.now) := by
  have hof := fun e' (hm : e' ∈ actsOf i (op, r)) => of_mem_actsOf hm
  generalize actsOf i (op, r) = es at h hmem hof
  obtain ⟨l1, l2, rfl⟩ := List.append_of_mem hmem
  obtain ⟨m, -, hm⟩ := h.split fun _ _ _ hs => hs.length_le_one
  obtain ⟨a, b, -, hab, hb⟩ := uncons_act hm
  have hheld : b.HeldTo token (leaseEnd L op.2.now) := by
    rcases he.deadline (hof e hmem) hL with ⟨now, rfl⟩ | rfl
    · cases hab
      exact ⟨he, le_refl _⟩
    · cases hab
      exact ⟨he, le_refl _⟩
  have halone := fun e' (hm : e' ∈ l2) => he.alone (hof e hmem)
    (hof e' (List.mem_append_right _ (List.mem_cons_of_mem _ hm))) hL
  exact (hheld.stays hb (fun e' hm => (halone e' hm).1) fun e' hm => (halone e' hm).2 token).1

/-! ## The laws -/

/-- The clock never goes backwards. -/
def TimeForward (ops : List (Call × RedisTime)) : Prop :=
  ops.Pairwise fun op op' => op.2.now ≤ op'.2.now

/-- What the calls of `mid` do to job `i` after the run `ops`. -/
def historyFrom (ops mid : List (Call × RedisTime)) (i : String) : List Act :=
  history i (Machine.trace (exec sha1hex) (run sha1hex ops) mid)

/-- The run did `before`, then `op`, which claimed job `i` under the token or
renewed that claim, then `after`, in which the owner did not end the claim and
each sweep ran before the deadline that `op` set. -/
structure LiveClaim (L : ℚ) (i token : String) (before : List (Call × RedisTime))
    (op : Call × RedisTime) (after : List (Call × RedisTime)) : Prop where
  leased : ∃ e ∈ actsOf i (op, (exec sha1hex op (run sha1hex before)).1), e.Leases token
  unended : ∀ e ∈ historyFrom sha1hex (before ++ [op]) after i, ¬ e.OwnerEnds token
  early : ∀ o ∈ after, (∃ a, o.1 = .recover a) → Score.ofNat o.2.now < leaseEnd L op.2.now

/-- After the lease at `t`, no call acts on the job as if the lease had run out before its end. -/
theorem Act.Of.before {L : ℚ} {B : Score} {o : Call × RedisTime} {r : Reply} {e : Act}
    (ho : e.Of i o r) (hL : o.1.LeaseIs L) (hB : B ≤ leaseEnd L o.2.now)
    (hr : (∃ a, o.1 = .recover a) → Score.ofNat o.2.now < B) : e.Before B := by
  cases e with
  | extend t d =>
    rcases Act.Leases.deadline (e := .extend t d) rfl ho hL with ⟨_, h⟩ | h
    · cases h
    · cases h
      exact ⟨_, rfl, hB⟩
  | stall reason now =>
    obtain ⟨a, _, _, h, -, -, -, -, hnow⟩ := ho
    have hlt := hr ⟨a, by rw [h]⟩
    rwa [← hnow] at hlt
  | stallOut reason now =>
    obtain ⟨a, _, _, h, -, -, -, -, hnow⟩ := ho
    have hlt := hr ⟨a, by rw [h]⟩
    rwa [← hnow] at hlt
  | _ => trivial

variable {sha1hex} in
theorem LiveClaim.held {L : ℚ} {token : String} {before after : List (Call × RedisTime)}
    {op : Call × RedisTime} (h : LiveClaim sha1hex L i token before op after)
    (hL : ∀ o ∈ before ++ op :: after, o.1.LeaseIs L)
    (htime : TimeForward (before ++ op :: after)) :
    (∀ e ∈ historyFrom sha1hex (before ++ [op]) after i, ∃ d, e = .extend token d) ∧
      ∃ j d, At (run sha1hex (before ++ op :: after)) i (.active j token d) ∧
        leaseEnd L op.2.now ≤ d := by
  have hl : LeasesAreNumbers (before ++ op :: after) := fun o ho => (hL o ho).isNumber
  have hlb := hl.left
  have hlo : op.1.LeaseIsNumber := hl op (by simp)
  have hla : LeasesAreNumbers after := fun o ho => hl o (by simp [ho])
  -- the call that sets the lease
  obtain ⟨p, hp⟩ := sound_run sha1hex hlb i
  obtain ⟨p1, hp1, hs1⟩ := exec_refines sha1hex hlb hlo hp
  obtain ⟨e, hmem, he⟩ := h.leased
  have hheld := held_after hs1 hmem he (hL op (by simp))
  -- the calls after it
  have hsound : Sound (run sha1hex (before ++ [op])) := by
    apply sound_run
    intro o ho
    rcases List.mem_append.mp ho with ho | ho
    · exact hlb o ho
    · exact List.mem_singleton.mp ho ▸ hlo
  rw [← run_snoc] at hp1
  obtain ⟨p2, ⟨-, hp2⟩, hs2⟩ := finish_refines sha1hex hsound hla hp1
  have hbefore : ∀ e ∈ historyFrom sha1hex (before ++ [op]) after i,
      e.Before (leaseEnd L op.2.now) := by
    intro e he
    obtain ⟨⟨o, r⟩, ho, heo⟩ := List.mem_flatMap.mp he
    have hoa : o ∈ after := Machine.mem_of_mem_trace ho
    have hle : op.2.now ≤ o.2.now := by
      have ht := (List.pairwise_append.mp htime).2.1
      exact (List.pairwise_cons.mp ht).1 o hoa
    exact (of_mem_actsOf heo).before (hL o (by simp [hoa])) (leaseEnd_mono L hle) (h.early o hoa)
  obtain ⟨hh, hes⟩ := hheld.stays hs2 hbefore h.unended
  refine ⟨hes, ?_⟩
  have hrun : run sha1hex (before ++ op :: after) =
      Machine.finish (exec sha1hex) (run sha1hex (before ++ [op])) after := by
    rw [← run_append, List.append_assoc]
    rfl
  rw [hrun]
  cases p2 with
  | active j t d =>
    obtain ⟨rfl, hd⟩ := hh
    exact ⟨j, d, hp2, hd⟩
  | _ => cases hh

/-- With one lease of `L` for all and TIME that never goes backwards, nothing
but renewals by the owner happens to a job under a live claim: no sweep takes
it and no claim returns it. Its lease lasts to the end of the last claim or
renewal at least, and no job has two live claims. When `L` is a whole number of
milliseconds, the lease ends `L` after the call. -/
theorem leases_are_exclusive_until_they_expire (L : ℚ) (ops : List (Call × RedisTime))
    (hL : ∀ o ∈ ops, o.1.LeaseIs L) (htime : TimeForward ops) :
    (∀ i token before op after, ops = before ++ op :: after →
      LiveClaim sha1hex L i token before op after →
      (∀ e ∈ historyFrom sha1hex (before ++ [op]) after i, ∃ d, e = .extend token d) ∧
      (run sha1hex ops).lockToken i = some token ∧
      ∃ d, (run sha1hex ops).active.score i = some d ∧ leaseEnd L op.2.now ≤ d) ∧
    (∀ i token token' before op after before' op' after',
      ops = before ++ op :: after → ops = before' ++ op' :: after' →
      LiveClaim sha1hex L i token before op after →
      LiveClaim sha1hex L i token' before' op' after' → token = token') ∧
    ∀ n now : ℕ, L = n → now + n < 2 ^ 53 → leaseEnd L now = .ofNat (now + n) := by
  refine ⟨?_, ?_, ?_⟩
  · rintro i token before op after rfl h
    obtain ⟨hes, j, d, hat, hd⟩ := h.held hL htime
    exact ⟨hes, hat.lockToken, d, hat.lease, hd⟩
  · intro i token token' before op after before' op' after' he he' h h'
    obtain ⟨-, j, d, hat, -⟩ := h.held (he ▸ hL) (he ▸ htime)
    obtain ⟨-, j', d', hat', -⟩ := h'.held (he' ▸ hL) (he' ▸ htime)
    rw [← he] at hat
    rw [← he'] at hat'
    cases hat.unique hat'
    rfl
  · rintro n now rfl hsmall
    exact leaseEnd_whole hsmall

/-- The sample job, with a sweep one second after its claim. -/
def sampleSweep : List (Call × RedisTime) :=
  sampleOps ++ [(.recover ⟨-1, "lost", ⟨.keep, -1, -1⟩⟩, ⟨3, 0⟩)]

theorem sample_lease_outlasts_the_sweep :
    (run id sampleSweep).lockToken "j" = some "j:2000:1" := by
  have hL : ∀ o ∈ sampleSweep, o.1.LeaseIs 30000 := by
    intro o ho
    simp only [sampleSweep, sampleOps, List.cons_append, List.nil_append, List.mem_cons,
      List.not_mem_nil, or_false] at ho
    rcases ho with rfl | rfl | rfl
    · trivial
    · exact congrArg Double.ofRat (by norm_num)
    · trivial
  have htime : TimeForward sampleSweep := by
    unfold TimeForward
    decide
  refine ((leases_are_exclusive_until_they_expire id 30000 sampleSweep hL htime).1 "j" "j:2000:1"
    [(.enqueue sampleJob, ⟨1, 0⟩)] (.claimGlobalBatch ⟨.ofNat 30000, 1⟩, ⟨2, 0⟩)
    [(.recover ⟨-1, "lost", ⟨.keep, -1, -1⟩⟩, ⟨3, 0⟩)] rfl ⟨?_, ?_, ?_⟩).2.1
  · exact ⟨.claim "j:2000:1" 2000 (.ofNat 32000), by decide +kernel, rfl⟩
  · have hnone : historyFrom id [(.enqueue sampleJob, ⟨1, 0⟩),
        (.claimGlobalBatch ⟨.ofNat 30000, 1⟩, ⟨2, 0⟩)]
        [(.recover ⟨-1, "lost", ⟨.keep, -1, -1⟩⟩, ⟨3, 0⟩)] "j" = [] := by decide +kernel
    intro e he
    rw [List.singleton_append, hnone] at he
    cases he
  · intro o ho _
    rw [List.mem_singleton.mp ho]
    decide +kernel

/-! ## Parts of a millisecond -/

/-- The Unix time in microseconds. -/
def RedisTime.micros (t : RedisTime) : ℕ := t.sec * 1000000 + t.usec

/-- The sample job, claimed for one millisecond at the end of a millisecond, and
a sweep one microsecond later. -/
def sampleHasty : List (Call × RedisTime) :=
  [(.enqueue sampleJob, ⟨1, 0⟩), (.claimGlobalBatch ⟨.ofNat 1, 1⟩, ⟨2, 999⟩),
    (.recover ⟨-1, "lost", ⟨.keep, -1, -1⟩⟩, ⟨2, 1000⟩)]

/-- The sweep takes the job one microsecond after the claim, although all leases
are of one millisecond: the scripts see TIME in whole milliseconds. -/
theorem lease_ends_within_its_millisecond :
    (∀ o ∈ sampleHasty, o.1.LeaseIs 1) ∧
      sampleHasty.Pairwise (fun o o' => o.2.micros ≤ o'.2.micros) ∧
      RedisTime.micros ⟨2, 1000⟩ < RedisTime.micros ⟨2, 999⟩ + 1000 ∧
      (run id (sampleHasty.take 2)).lockToken "j" = some "j:2000:1" ∧
      "j" ∈ (run id (sampleHasty.take 2)).active.members ∧
      (run id sampleHasty).active.members = [] ∧ (run id sampleHasty).waiting = ["j"] := by
  refine ⟨?_, ?_, ?_, ?_, ?_, ?_, ?_⟩
  · intro o ho
    simp only [sampleHasty, List.mem_cons, List.not_mem_nil, or_false] at ho
    rcases ho with rfl | rfl | rfl
    · trivial
    · exact congrArg Double.ofRat (by norm_num)
    · trivial
  all_goals decide +kernel

end Panqueue
