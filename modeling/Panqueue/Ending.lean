-- The law of the end: a job ends at most once, stays ended, and all workers
-- together report its end at most once.
import Panqueue.Placement
import Panqueue.Leases
import Panqueue.WorkerEvents

namespace Panqueue

variable (sha1hex : String → String) {i : String} {δ : Type}

/-! ## The end of a life -/

/-- The number of ends in a history. -/
def ends (es : List Act) : ℕ := es.countP fun e => decide e.EndsJob

/-- In one life, a job that still waits or is active has not ended, and no job ends twice. -/
theorem life_ends_once {issue : ℕ → ℕ → String} {a : EnqueueArgs} {now : ℕ} {es : List Act}
    {p : Place} (h : Reaches (LifeStep issue) (.waiting (.enqueued a now)) es p) :
    ends es ≤ 1 ∧ (p.Pending → ends es = 0) := by
  refine Reaches.invariant (P := fun es p => ends es ≤ 1 ∧ (p.Pending → ends es = 0)) ?_ ?_ h
  · exact ⟨Nat.zero_le 1, fun _ => rfl⟩
  · rintro es t fs u ⟨h1, h0⟩ ⟨hne, hst⟩
    have happ : ends (es ++ fs) = ends es + ends fs := List.countP_append
    rw [happ]
    by_cases hp : t.Pending
    · have hz := h0 hp
      by_cases hu : u.Pending
      · have hfs : ends fs = 0 := by
          cases hst with
          | enqueue | claim | extend | retry | stall | requeue => rfl
          | complete | fail | stallOut | evict => cases hu
        exact ⟨by omega, fun _ => by omega⟩
      · have hle : ends fs ≤ fs.length := List.countP_le_length
        have hlen := hst.length_le_one
        exact ⟨by omega, fun h => absurd h hu⟩
    · -- a finished job can only be evicted
      cases hst with
      | evict s j now => exact ⟨h1, fun hu => absurd hu (by simp [Place.Pending])⟩
      | enqueue a now => exact absurd rfl hne
      | _ => exact absurd trivial hp

/-- Without an enqueue, a job that is in no flow stays where it is, or is gone. -/
theorem ended_stays {issue : ℕ → ℕ → String} {p p' : Place} {es : List Act} (hp : ¬ p.Pending)
    (h : Reaches (JobStep issue) p es p') (hno : es.countP Act.isEnqueue = 0) :
    es = [] ∧ (p' = p ∨ p' = .gone) := by
  induction h with
  | start => exact ⟨rfl, Or.inl rfl⟩
  | @next es fs t u _ hst ih =>
    rw [List.countP_append] at hno
    obtain ⟨rfl, ht⟩ := ih (by omega)
    have hnt : ¬ t.Pending := by
      rcases ht with rfl | rfl
      · exact hp
      · exact id
    cases hst with
    | enqueue a now => simp [Act.isEnqueue] at hno
    | evict s j now => exact ⟨rfl, Or.inr rfl⟩
    | _ => exact absurd trivial hnt

/-- One life in a whole history: it ends at most once, and a job that has ended is in no flow. -/
theorem history_ends_once {issue : ℕ → ℕ → String} {es : List Act} {p : Place}
    (h : Reaches (JobStep issue) .gone es p) (hone : es.countP Act.isEnqueue ≤ 1) :
    ends es ≤ 1 ∧ (0 < ends es → ¬ p.Pending ∧ es.countP Act.isEnqueue = 1) := by
  rcases one_life h hone with ⟨rfl, rfl⟩ | ⟨a, now, fs, rfl, hlife⟩
  · exact ⟨Nat.zero_le 1, fun h => absurd h (Nat.lt_irrefl 0)⟩
  · have he : ends (.enqueue a now :: fs) = ends fs := List.countP_cons_of_neg Bool.false_ne_true
    have hc : 0 < (Act.enqueue a now :: fs).countP Act.isEnqueue :=
      List.countP_pos_iff.mpr ⟨_, List.mem_cons_self, rfl⟩
    obtain ⟨h1, h0⟩ := life_ends_once hlife
    rw [he]
    exact ⟨h1, fun hpos => ⟨fun hp => by have := h0 hp; omega, by omega⟩⟩

/-! ## Workers -/

/-- What a worker process does with the queue, or any other caller: it
acknowledges a settled job, it sweeps, or it sends another call. -/
inductive WorkerStep (δ : Type)
  | acknowledge (job : JobData δ) (settled : Settled) (retention : ResolvedRetention)
  | sweep (a : RecoverArgs)
  | other (c : Call)

def WorkerStep.call : WorkerStep δ → Call
  | acknowledge job settled retention => acknowledgeCall retention job settled
  | sweep a => .recover a
  | other c => c

/-- A step at a reading of TIME. The reply may be lost on its way to the worker. -/
structure WorkerInput (δ : Type) where
  step : WorkerStep δ
  time : RedisTime
  delivered : Bool

def WorkerInput.op (x : WorkerInput δ) : Call × RedisTime := (x.step.call, x.time)

/-- The events that the worker of a step emits after the reply. -/
def WorkerInput.events (parse : String → Except String δ) (x : WorkerInput δ) (r : Reply) :
    List (WorkerEvent δ) :=
  match x.step with
  | .acknowledge job settled _ =>
    processJobTail job settled (if x.delivered then r.ack else .error "no reply")
  | .sweep _ => sweepEvents (if x.delivered then r.recovered parse else .error "no reply")
  | .other _ => []

/-- The events of all workers in a run. -/
def workerEvents (parse : String → Except String δ) (xs : List (WorkerInput δ)) :
    List (WorkerEvent δ) :=
  (Machine.trace (fun x => exec sha1hex x.op) {} xs).flatMap fun x => x.1.events parse x.2

/-- The event reports that job `i` completed or failed. -/
def WorkerEvent.reportsEnd (i : String) : WorkerEvent δ → Bool
  | onJobCompleted job => job.id = i
  | onJobFailed job _ _ => job.id = i
  | _ => false

/-- The events that report the end of job `i`. -/
def reports (i : String) (events : List (WorkerEvent δ)) : ℕ :=
  events.countP (WorkerEvent.reportsEnd i)

theorem reports_append (i : String) (es fs : List (WorkerEvent δ)) :
    reports i (es ++ fs) = reports i es + reports i fs := List.countP_append

theorem ends_append (es fs : List Act) : ends (es ++ fs) = ends es + ends fs :=
  List.countP_append

@[simp] theorem ends_complete (token : String) (now : ℕ) : ends [.complete token now] = 1 := rfl

@[simp] theorem ends_fail (token error : String) (now : ℕ) : ends [.fail token error now] = 1 :=
  rfl

@[simp] theorem ends_stallOut (reason : String) (now : ℕ) : ends [.stallOut reason now] = 1 := rfl

theorem acknowledgeJob_reports (job : JobData δ) (phase : JobAckPhase)
    (reply : Except String AckResult) : reports i (acknowledgeJob job phase reply).2 = 0 := by
  unfold acknowledgeJob
  split
  · rfl
  · rfl
  · split
    · rfl
    · rfl

/-- A result that `#acknowledgeJob` passes on is the one of the reply. -/
theorem acknowledgeJob_result {job : JobData δ} {phase : JobAckPhase}
    {reply : Except String AckResult} {r : AckResult}
    (h : (acknowledgeJob job phase reply).1 = some r) : reply = .ok r := by
  unfold acknowledgeJob at h
  split at h
  · cases h
  · cases h
  · split at h
    · cases h
      rfl
    · cases h

theorem ack_completed {d : Bool} {r : Reply}
    (h : (if d then r.ack else Except.error "no reply") = .ok .completed) :
    r = .complete .completed := by
  cases d with
  | false => cases h
  | true =>
    rcases r with r | r | r | r | r | r | r | r | r
    all_goals first | cases h | (cases r <;> first | rfl | cases h)

theorem ack_failed {d : Bool} {r : Reply}
    (h : (if d then r.ack else Except.error "no reply") = .ok .failed) : r = .fail .failed := by
  cases d with
  | false => cases h
  | true =>
    rcases r with r | r | r | r | r | r | r | r | r
    all_goals first | cases h | (cases r <;> first | rfl | cases h)

/-- An acknowledgement reports an end only when its call ended the job. -/
theorem processJobTail_reports (job : JobData δ) (settled : Settled)
    (retention : ResolvedRetention) (t : RedisTime) (d : Bool) (r : Reply) :
    reports i (processJobTail job settled (if d then r.ack else .error "no reply")) ≤
      ends (actsOf i ((acknowledgeCall retention job settled, t), r)) := by
  generalize hreply : (if d then r.ack else Except.error "no reply") = reply
  cases settled with
  | returned =>
    simp only [processJobTail]
    split
    · rename_i h
      rw [ack_completed (hreply.trans (acknowledgeJob_result h)), reports_append,
        acknowledgeJob_reports]
      by_cases hi : job.id = i
      · simp [reports, WorkerEvent.reportsEnd, settledSnapshot, actsOf, acknowledgeCall, hi]
      · simp [reports, WorkerEvent.reportsEnd, settledSnapshot, hi]
    · rw [acknowledgeJob_reports]
      exact Nat.zero_le _
  | threw message =>
    simp only [processJobTail]
    split
    · rw [reports_append, acknowledgeJob_reports]
      exact Nat.zero_le _
    · split
      · rename_i h
        rw [ack_failed (hreply.trans (acknowledgeJob_result h)), reports_append,
          acknowledgeJob_reports]
        by_cases hi : job.id = i
        · simp [reports, WorkerEvent.reportsEnd, failedSnapshot, settledSnapshot, actsOf,
            acknowledgeCall, hi]
        · simp [reports, WorkerEvent.reportsEnd, failedSnapshot, settledSnapshot, hi]
      · rw [acknowledgeJob_reports]
        exact Nat.zero_le _

/-- A sweep reports an end only for an entry that failed. -/
theorem parseRecoveredJobs_reports {parse : String → Except String δ} {t : RedisTime}
    {reason : String} {es : List RecoverEntry} {jobs : List (RecoveredJob δ)}
    (h : parseRecoveredJobs parse es = .ok jobs) :
    reports i (handleRecovered jobs) ≤ ends (es.flatMap (·.acts i t reason)) := by
  induction es generalizing jobs with
  | nil =>
    cases h
    exact Nat.le_refl 0
  | cons e es ih =>
    cases e with
    | corrupt k =>
      unfold parseRecoveredJobs at h
      rcases hes : parseRecoveredJobs parse es with err | js
      · rw [hes] at h
        cases h
      · rw [hes] at h
        cases h
        have hrest := ih hes
        exact hrest
    | job o x =>
      unfold parseRecoveredJobs at h
      rcases hx : deserializeJobHash parse x.hgetall with err | j
      · rw [hx] at h
        cases h
      rcases hes : parseRecoveredJobs parse es with err | js
      · rw [hx, hes] at h
        cases h
      · rw [hx, hes] at h
        cases h
        have hid := id_of_deserializeJobHash hx
        have hrest := ih hes
        have hsplit : reports i (handleRecovered (.job o j :: js)) =
            reports i (RecoveredJob.events (.job o j)) + reports i (handleRecovered js) :=
          reports_append _ _ _
        rw [hsplit, List.flatMap_cons, ends_append]
        refine Nat.add_le_add ?_ hrest
        cases o with
        | waiting => exact Nat.zero_le _
        | failed =>
          by_cases hi : j.id = i
          · simp [reports, RecoveredJob.events, WorkerEvent.reportsEnd, RecoverEntry.acts, hid, hi]
          · simp [reports, RecoveredJob.events, WorkerEvent.reportsEnd, hi]

theorem input_reports (parse : String → Except String δ) (x : WorkerInput δ) (r : Reply) :
    reports i (x.events parse r) ≤ ends (actsOf i (x.op, r)) := by
  obtain ⟨step, t, d⟩ := x
  cases step with
  | acknowledge job settled retention => exact processJobTail_reports job settled retention t d r
  | other c => exact Nat.zero_le _
  | sweep a =>
    unfold WorkerInput.events sweepEvents
    simp only
    split
    · exact Nat.zero_le _
    · rename_i jobs h
      cases d with
      | false => cases h
      | true =>
        cases r with
        | recover es =>
          split
          · exact Nat.zero_le _
          · exact parseRecoveredJobs_reports h
        | _ => cases h

/-- All workers together report no more ends of a job than its history has. -/
theorem workerEvents_reports (parse : String → Except String δ) (xs : List (WorkerInput δ)) :
    reports i (workerEvents sha1hex parse xs) ≤
      ends (history i (trace sha1hex (xs.map WorkerInput.op))) := by
  rw [trace, Machine.trace_map, workerEvents, history, List.flatMap_map]
  generalize Machine.trace (fun x => exec sha1hex x.op) {} xs = tr
  induction tr with
  | nil => exact Nat.le_refl 0
  | cons x tr ih =>
    rw [List.flatMap_cons, List.flatMap_cons, reports_append, ends_append]
    exact Nat.add_le_add (input_reports parse x.1 x.2) ih

/-! ## The law -/

/-- In every run of any workers, a job ends at most once. After its end nothing
happens to it: no script puts it back, no claim returns it, and its hash stays
as it is or is gone. All workers together emit one event of its end at most. -/
theorem a_job_ends_once_and_is_reported_once (parse : String → Except String δ)
    (xs : List (WorkerInput δ)) (hl : LeasesAreNumbers (xs.map WorkerInput.op))
    (hids : IdsNotReused (trace sha1hex (xs.map WorkerInput.op))) (i : String) :
    ends (history i (trace sha1hex (xs.map WorkerInput.op))) ≤ 1 ∧
    (∀ before after, xs.map WorkerInput.op = before ++ after →
      0 < ends (history i (trace sha1hex before)) →
      historyFrom sha1hex before after i = [] ∧
      ¬ (run sha1hex (before ++ after)).InFlow i ∧
      ((run sha1hex (before ++ after)).jobs i = (run sha1hex before).jobs i ∨
        (run sha1hex (before ++ after)).jobs i = none)) ∧
    reports i (workerEvents sha1hex parse xs) ≤ 1 := by
  obtain ⟨p, -, hreach⟩ := run_refines sha1hex hl i
  have honce := (history_ends_once hreach (hids i)).1
  refine ⟨honce, ?_, Nat.le_trans (workerEvents_reports sha1hex parse xs) honce⟩
  intro before after hxs hend
  rw [hxs] at hl hids
  have hlb := hl.left
  have hla : LeasesAreNumbers after := fun o ho => hl o (List.mem_append_right _ ho)
  -- one enqueue came before the end, so none comes after it
  have hone := hids i
  rw [trace_append, history_append, List.countP_append] at hone
  obtain ⟨q, hq, hqr⟩ := run_refines sha1hex hlb i
  obtain ⟨hnp, henq⟩ := (history_ends_once hqr (by omega)).2 hend
  obtain ⟨q', ⟨-, hq'⟩, hr'⟩ := finish_refines sha1hex (sound_run sha1hex hlb) hla hq
  obtain ⟨hnil, hplace⟩ := ended_stays hnp hr' (by omega)
  rw [← run_append] at hq'
  refine ⟨hnil, ?_, ?_⟩
  · rw [hq'.inFlow]
    rcases hplace with rfl | rfl
    · exact hnp
    · exact id
  · rcases hplace with rfl | rfl
    · exact Or.inl (by rw [hq'.key, hq.key])
    · exact Or.inr hq'.key

/-- What the claimer of the sample job gets. -/
def sampleClaimed : JobData String where
  id := "j"
  queueId := "mail"
  status := .active
  data := "{}"
  numeric := fun _ => none
  lastRequeueReason := none
  failureKind := none
  failedReason := none
  lastError := none
  lockToken := some "j:2000:1"

/-- Its worker completes it, and the hash is kept. -/
def sampleAck : WorkerInput String :=
  ⟨.acknowledge sampleClaimed .returned ⟨.keep, -1, -1⟩, ⟨3, 0⟩, true⟩

def sampleWorkers : List (WorkerInput String) :=
  [⟨.other (.enqueue sampleJob), ⟨1, 0⟩, true⟩,
    ⟨.other (.claimGlobalBatch ⟨.ofNat 30000, 1⟩), ⟨2, 0⟩, true⟩, sampleAck,
    ⟨.other (.claimGlobalBatch ⟨.ofNat 30000, 1⟩), ⟨4, 0⟩, true⟩]

theorem sample_job_stays_ended :
    ¬ (run id (sampleOps ++ [sampleAck.op] ++
      [(.claimGlobalBatch ⟨.ofNat 30000, 1⟩, ⟨4, 0⟩)])).InFlow "j" :=
  ((a_job_ends_once_and_is_reported_once id Except.ok sampleWorkers (by decide)
    (idsNotReused_of_nodup id (by decide)) "j").2.1 (sampleOps ++ [sampleAck.op])
    [(.claimGlobalBatch ⟨.ofNat 30000, 1⟩, ⟨4, 0⟩)] rfl (by decide +kernel)).2.1

end Panqueue
