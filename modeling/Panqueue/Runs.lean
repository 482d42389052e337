-- Runs of a queue: any calls in any order from the empty queue, the history
-- of each job in a run, and the theorem that each history is a path of the
-- ledger.
import Panqueue.Refinement

namespace Panqueue

variable (sha1hex : String → String)

/-! ## Runs and histories -/

/-- The queue after some calls, each with its reading of TIME. -/
def run (ops : List (Call × RedisTime)) : Queue :=
  Machine.finish (exec sha1hex) {} ops

/-- The calls of a run with their replies. -/
def trace (ops : List (Call × RedisTime)) :
    List ((Call × RedisTime) × Reply) :=
  Machine.trace (exec sha1hex) {} ops

/-- What some calls with their replies did to job `i`, in order. -/
def history (i : String) (tr : List ((Call × RedisTime) × Reply)) : List Act :=
  tr.flatMap (actsOf i)

/-- All leases that the calls ask for are numbers. -/
def LeasesAreNumbers (ops : List (Call × RedisTime)) : Prop := ∀ op ∈ ops, op.1.LeaseIsNumber

instance (ops : List (Call × RedisTime)) : Decidable (LeasesAreNumbers ops) :=
  inferInstanceAs (Decidable (∀ op ∈ ops, op.1.LeaseIsNumber))

theorem history_append (i : String) (tr tr' : List ((Call × RedisTime) × Reply)) :
    history i (tr ++ tr') = history i tr ++ history i tr' := List.flatMap_append

theorem run_append (ops ops' : List (Call × RedisTime)) :
    run sha1hex (ops ++ ops') = Machine.finish (exec sha1hex) (run sha1hex ops) ops' :=
  Machine.finish_append _ _ _

theorem run_snoc (ops : List (Call × RedisTime)) (op : Call × RedisTime) :
    run sha1hex (ops ++ [op]) = (exec sha1hex op (run sha1hex ops)).2 :=
  Machine.finish_snoc _ _ _

theorem trace_append (ops ops' : List (Call × RedisTime)) :
    trace sha1hex (ops ++ ops') =
      trace sha1hex ops ++ Machine.trace (exec sha1hex) (run sha1hex ops) ops' :=
  Machine.trace_append _ _ _

theorem trace_snoc (ops : List (Call × RedisTime)) (op : Call × RedisTime) :
    trace sha1hex (ops ++ [op]) =
      trace sha1hex ops ++ [(op, (exec sha1hex op (run sha1hex ops)).1)] :=
  Machine.trace_snoc _ _ _

/-! ## The refinement of whole runs -/

theorem at_empty (i : String) : At {} i .gone := by
  ext s
  · rfl
  · rfl
  · rfl
  · cases s <;> rfl

theorem sound_empty : Sound {} := fun i => ⟨.gone, at_empty i⟩

/-- From a sound queue, calls move each job as its history tells. -/
theorem finish_refines {q : Queue} (hq : Sound q) {ops : List (Call × RedisTime)}
    (hl : LeasesAreNumbers ops) {i : String} {p : Place} (hp : At q i p) :
    ∃ p', (Sound (Machine.finish (exec sha1hex) q ops) ∧
        At (Machine.finish (exec sha1hex) q ops) i p') ∧
      Reaches (JobStep (issued sha1hex i)) p
        (history i (Machine.trace (exec sha1hex) q ops)) p' := by
  refine Machine.refines (R := fun q p => Sound q ∧ At q i p) (C := fun op => op.1.LeaseIsNumber)
    ?_ ⟨hq, hp⟩ fun op h => hl op h
  rintro op q p hop ⟨hq, hp⟩
  obtain ⟨hm, -⟩ := exec_moves sha1hex op hop hq
  obtain ⟨p', hp', hs⟩ := hm i p hp
  exact ⟨p', ⟨hm.sound hq, hp'⟩, hs⟩

/-- In each reachable state, each job stands at one place. -/
theorem sound_run {ops : List (Call × RedisTime)} (hl : LeasesAreNumbers ops) :
    Sound (run sha1hex ops) := by
  obtain ⟨_, ⟨h, _⟩, _⟩ := finish_refines sha1hex sound_empty hl (at_empty "")
  exact h

/-- The history of a job is a path of the ledger, and it ends at the place of the job. -/
theorem run_refines {ops : List (Call × RedisTime)} (hl : LeasesAreNumbers ops) (i : String) :
    ∃ p, At (run sha1hex ops) i p ∧
      Reaches (JobStep (issued sha1hex i)) .gone (history i (trace sha1hex ops)) p := by
  obtain ⟨p, ⟨_, hp⟩, hs⟩ := finish_refines sha1hex sound_empty hl (at_empty i)
  exact ⟨p, hp, hs⟩

/-- One more call after a run. -/
theorem exec_refines {ops : List (Call × RedisTime)} (hl : LeasesAreNumbers ops)
    {op : Call × RedisTime} (hop : op.1.LeaseIsNumber) {i : String} {p : Place}
    (hp : At (run sha1hex ops) i p) :
    ∃ p', At (exec sha1hex op (run sha1hex ops)).2 i p' ∧
      Reaches (JobStep (issued sha1hex i)) p
        (actsOf i (op, (exec sha1hex op (run sha1hex ops)).1)) p' :=
  (exec_moves sha1hex op hop (sound_run sha1hex hl)).1 i p hp

/-! ## Where an act comes from -/

/-- The call and the reply that show an act of job `i`. -/
def Act.Of (i : String) (op : Call × RedisTime) (r : Reply) : Act → Prop
  | enqueue a now => op = (.enqueue a, op.2) ∧ a.jobId = i ∧ now = op.2.now ∧
      ∃ k, r = .enqueue (.enqueued k)
  | claim token now d => ∃ a es h, op = (.claimGlobalBatch a, op.2) ∧ r = .claimGlobalBatch es ∧
      .job h ∈ es ∧ h.id = some i ∧ h.lockToken = some token ∧ now = op.2.now ∧
      d = a.leaseMs.plus now
  | extend token d => ∃ a, op = (.extendLock a, op.2) ∧ r = .extendLock .extended ∧ a.jobId = i ∧
      token = a.lockToken ∧ d = a.leaseMs.plus op.2.now
  | complete token now => ∃ a, op = (.complete a, op.2) ∧ r = .complete .completed ∧ a.jobId = i ∧
      token = a.lockToken ∧ now = op.2.now
  | retry token error now => ∃ a, op = (.fail a, op.2) ∧ r = .fail .waiting ∧ a.jobId = i ∧
      token = a.lockToken ∧ error = a.error ∧ now = op.2.now
  | fail token error now => ∃ a, op = (.fail a, op.2) ∧ r = .fail .failed ∧ a.jobId = i ∧
      token = a.lockToken ∧ error = a.error ∧ now = op.2.now
  | stall reason now => ∃ a es h, op = (.recover a, op.2) ∧ r = .recover es ∧
      .job .waiting h ∈ es ∧ h.id = some i ∧ reason = a.reason ∧ now = op.2.now
  | stallOut reason now => ∃ a es h, op = (.recover a, op.2) ∧ r = .recover es ∧
      .job .failed h ∈ es ∧ h.id = some i ∧ reason = a.reason ∧ now = op.2.now
  | requeue token reason now => ∃ a, op = (.requeueActive a, op.2) ∧
      r = .requeueActive .waiting ∧ a.jobId = i ∧ token = a.lockToken ∧ reason = a.reason ∧
      now = op.2.now

theorem of_mem_actsOf {i : String} {op : Call × RedisTime} {r : Reply} {e : Act}
    (h : e ∈ actsOf i (op, r)) : e.Of i op r := by
  obtain ⟨call, t⟩ := op
  cases call with
  | enqueue a =>
    cases r with
    | enqueue r =>
      cases r <;> simp_all [actsOf, Act.Of]
    | _ => simp [actsOf] at h
  | claimGlobalBatch a =>
    cases r with
    | claimGlobalBatch es =>
      simp only [actsOf, List.mem_flatMap] at h
      obtain ⟨entry, hmem, he⟩ := h
      cases entry with
      | corrupt k => simp [ClaimEntry.acts] at he
      | job h =>
        by_cases hi : h.id = some i
        · rcases ht : h.lockToken with _ | token
          · simp [ClaimEntry.acts, hi, ht] at he
          · simp only [ClaimEntry.acts, hi, ht, if_true, Option.map_some, Option.toList_some,
              List.mem_singleton] at he
            subst he
            exact ⟨a, es, h, rfl, rfl, hmem, hi, ht, rfl, rfl⟩
        · simp [ClaimEntry.acts, hi] at he
    | _ => simp [actsOf] at h
  | complete a =>
    cases r with
    | complete r => cases r <;> simp_all [actsOf, Act.Of]
    | _ => simp [actsOf] at h
  | fail a =>
    cases r with
    | fail r => cases r <;> simp_all [actsOf, Act.Of]
    | _ => simp [actsOf] at h
  | recover a =>
    cases r with
    | recover es =>
      simp only [actsOf, List.mem_flatMap] at h
      obtain ⟨entry, hmem, he⟩ := h
      cases entry with
      | corrupt k => simp [RecoverEntry.acts] at he
      | job o h =>
        by_cases hi : h.id = some i
        · cases o with
          | waiting =>
            simp only [RecoverEntry.acts, hi, if_true, List.mem_singleton] at he
            subst he
            exact ⟨a, es, h, rfl, rfl, hmem, hi, rfl, rfl⟩
          | failed =>
            simp only [RecoverEntry.acts, hi, if_true, List.mem_singleton] at he
            subst he
            exact ⟨a, es, h, rfl, rfl, hmem, hi, rfl, rfl⟩
        · cases o <;> simp [RecoverEntry.acts, hi] at he
    | _ => simp [actsOf] at h
  | extendLock a =>
    cases r with
    | extendLock r => cases r <;> simp_all [actsOf, Act.Of]
    | _ => simp [actsOf] at h
  | requeueActive a =>
    cases r with
    | requeueActive r => cases r <;> simp_all [actsOf, Act.Of]
    | _ => simp [actsOf] at h
  | declareConcurrencyLimit a => simp [actsOf] at h

/-! ## Steps show one act at most -/

theorem JobStep.length_le_one {issue : ℕ → ℕ → String} {p p' : Place} {es : List Act}
    (h : JobStep issue p es p') : es.length ≤ 1 := by
  cases h <;> simp

theorem uncons_act {issue : ℕ → ℕ → String} {p p' : Place} {e : Act} {es : List Act}
    (h : Reaches (JobStep issue) p (e :: es) p') :
    ∃ a b, Reaches (JobStep issue) p [] a ∧ JobStep issue a [e] b ∧
      Reaches (JobStep issue) b es p' :=
  h.uncons fun _ _ _ hs => hs.length_le_one

/-- The job waits or is active. -/
def Place.Pending : Place → Prop
  | waiting _ => True
  | active _ _ _ => True
  | _ => False

/-- Nothing happens to a pending job without an act. -/
theorem Place.Pending.silent {issue : ℕ → ℕ → String} {p p' : Place} (hp : p.Pending)
    (h : Reaches (JobStep issue) p [] p') : p' = p := by
  generalize hes : ([] : List Act) = es at h
  induction h with
  | start => rfl
  | next _ hst ih =>
    have hnil := List.append_eq_nil_iff.mp hes.symm
    obtain rfl := ih hnil.1.symm
    rw [hnil.2] at hst
    cases hst
    cases hp

theorem Place.Pending.uncons {issue : ℕ → ℕ → String} {p p' : Place} {e : Act} {es : List Act}
    (hp : p.Pending) (h : Reaches (JobStep issue) p (e :: es) p') :
    ∃ b, JobStep issue p [e] b ∧ Reaches (JobStep issue) b es p' := by
  obtain ⟨a, b, ha, hab, hb⟩ := uncons_act h
  rw [hp.silent ha] at hab
  exact ⟨b, hab, hb⟩

/-- The acts that end a job. -/
def Act.EndsJob : Act → Prop
  | complete _ _ => True
  | fail _ _ _ => True
  | stallOut _ _ => True
  | _ => False

instance : DecidablePred Act.EndsJob
  | .complete _ _ | .fail _ _ _ | .stallOut _ _ => isTrue trivial
  | .enqueue _ _ | .claim _ _ _ | .extend _ _ | .retry _ _ _ | .stall _ _ | .requeue _ _ _ =>
    isFalse id

theorem JobStep.pending {issue : ℕ → ℕ → String} {p p' : Place} {es : List Act}
    (h : JobStep issue p es p') (hp : p.Pending) (he : ∀ e ∈ es, ¬ e.EndsJob) : p'.Pending := by
  cases h <;> simp_all [Place.Pending, Act.EndsJob]

/-- A pending job stays pending until an act ends it. -/
theorem Place.Pending.stays {issue : ℕ → ℕ → String} {p p' : Place} {es : List Act}
    (hp : p.Pending) (h : Reaches (JobStep issue) p es p') (he : ∀ e ∈ es, ¬ e.EndsJob) :
    p'.Pending := by
  induction h with
  | start => exact hp
  | next _ hst ih =>
    have h1 := ih fun e hm => he e (List.mem_append_left _ hm)
    exact hst.pending h1 fun e hm => he e (List.mem_append_right _ hm)

/-! ## One life for each id -/

def Act.isEnqueue : Act → Bool
  | enqueue _ _ => true
  | _ => false

/-- Job ids are never reused: no id is enqueued twice. A call that a collision
refused does not count. -/
def IdsNotReused (tr : List ((Call × RedisTime) × Reply)) : Prop :=
  ∀ i, (history i tr).countP Act.isEnqueue ≤ 1

theorem LeasesAreNumbers.left {ops ops' : List (Call × RedisTime)}
    (h : LeasesAreNumbers (ops ++ ops')) : LeasesAreNumbers ops :=
  fun op hop => h op (List.mem_append_left _ hop)

theorem IdsNotReused.left {sha1hex : String → String} {ops ops' : List (Call × RedisTime)}
    (h : IdsNotReused (trace sha1hex (ops ++ ops'))) : IdsNotReused (trace sha1hex ops) := by
  intro i
  have hi := h i
  rw [trace_append, history_append, List.countP_append] at hi
  omega

/-- The id that a call enqueues. -/
def Call.enqueues : Call → Option String
  | .enqueue a => some a.jobId
  | _ => none

theorem actsOf_enqueue (i : String) (a : EnqueueArgs) (t : RedisTime) (r : Reply) :
    actsOf i ((.enqueue a, t), r) = [] ∨
      (a.jobId = i ∧ actsOf i ((.enqueue a, t), r) = [.enqueue a t.now]) := by
  by_cases ha : a.jobId = i
  · cases r with
    | enqueue r => cases r <;> simp [actsOf, ha]
    | _ => exact Or.inl rfl
  · cases r with
    | enqueue r => cases r <;> simp [actsOf, ha]
    | _ => exact Or.inl rfl

theorem countP_actsOf_le (i : String) (op : Call × RedisTime) (r : Reply) :
    (actsOf i (op, r)).countP Act.isEnqueue ≤ op.1.enqueues.toList.count i := by
  obtain ⟨call, t⟩ := op
  cases call with
  | enqueue a =>
    rcases actsOf_enqueue i a t r with h | ⟨ha, h⟩
    · rw [h]
      exact Nat.zero_le _
    · rw [h]
      simp [Call.enqueues, ha, Act.isEnqueue]
  | _ =>
    refine Nat.le_of_eq (List.countP_eq_zero.mpr fun e he => ?_)
    have hof := of_mem_actsOf he
    cases e with
    | enqueue a now =>
      have := hof.1
      simp at this
    | _ => simp [Act.isEnqueue]

/-- When the enqueue calls name different ids, no id is reused. -/
theorem idsNotReused_of_nodup {ops : List (Call × RedisTime)}
    (h : (ops.filterMap fun op => op.1.enqueues).Nodup) : IdsNotReused (trace sha1hex ops) := by
  intro i
  refine Nat.le_trans ?_ (List.nodup_iff_count_le_one.mp h i)
  clear h
  rw [trace]
  generalize ({} : Queue) = q
  induction ops generalizing q with
  | nil => exact Nat.le_refl 0
  | cons op ops ih =>
    have h1 := countP_actsOf_le i op (exec sha1hex op q).1
    have h2 := ih (exec sha1hex op q).2
    simp only [history, Machine.trace, List.flatMap_cons, List.countP_append] at h2 ⊢
    rw [List.filterMap_cons]
    cases he : op.1.enqueues with
    | none =>
      rw [he] at h1
      simp only [Option.toList_none, List.count_nil] at h1
      simp only
      omega
    | some k =>
      rw [he] at h1
      simp only [Option.toList_some] at h1
      rw [List.count_cons]
      rw [List.count_singleton] at h1
      omega

/-- The steps of a job that was enqueued and is not gone. -/
def LifeStep (issue : ℕ → ℕ → String) (p : Place) (es : List Act) (p' : Place) : Prop :=
  p ≠ .gone ∧ JobStep issue p es p'

/-- An id that is not reused has no history at all, or one life after its enqueue. -/
theorem one_life {issue : ℕ → ℕ → String} {es : List Act} {p : Place}
    (h : Reaches (JobStep issue) .gone es p) (hone : es.countP Act.isEnqueue ≤ 1) :
    (es = [] ∧ p = .gone) ∨ ∃ a now fs, es = .enqueue a now :: fs ∧
      Reaches (LifeStep issue) (.waiting (.enqueued a now)) fs p := by
  revert hone
  refine Reaches.invariant (P := fun es p => es.countP Act.isEnqueue ≤ 1 →
    (es = [] ∧ p = .gone) ∨ ∃ a now fs, es = .enqueue a now :: fs ∧
      Reaches (LifeStep issue) (.waiting (.enqueued a now)) fs p) ?_ ?_ h
  · intro _
    exact Or.inl ⟨rfl, rfl⟩
  · intro es t fs u ih hst hone
    rw [List.countP_append] at hone
    right
    rcases ih (by omega) with ⟨rfl, rfl⟩ | ⟨a, now, gs, rfl, hlife⟩
    · cases hst with
      | enqueue a now => exact ⟨a, now, [], rfl, .start⟩
    · by_cases ht : t = .gone
      · -- a second enqueue
        subst ht
        cases hst with
        | enqueue a now => simp [Act.isEnqueue] at hone
      · exact ⟨a, now, gs ++ fs, rfl, hlife.next ⟨ht, hst⟩⟩

/-! ## A small run -/

def sampleJob : EnqueueArgs where
  jobId := "j"
  payload := "{}"
  queueId := "mail"
  maxRetries := .ofNat 1
  maxStalls := .ofNat 1

/-- One job, claimed at 2000 ms for 30 seconds. -/
def sampleOps : List (Call × RedisTime) :=
  [(.enqueue sampleJob, ⟨1, 0⟩), (.claimGlobalBatch ⟨.ofNat 30000, 1⟩, ⟨2, 0⟩)]

end Panqueue
