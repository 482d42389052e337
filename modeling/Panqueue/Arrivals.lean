-- The queue is first in, first out over whole runs: scripts push on the left
-- of the waiting list and claims pop on the right, and the runner starts jobs
-- in the order of its claim replies.
import Panqueue.Entries
import Panqueue.Lib.Fifo
import Panqueue.Placement
import Panqueue.ClaimLoop

namespace Panqueue

variable {δ : Type} {q q' : Queue} {t : RedisTime} {i : String} {issue : ℕ → ℕ → String}

/-! ## Arrivals and departures -/

/-- The id that an entry of a claim reply names. -/
def ClaimEntry.jobId : ClaimEntry → Option String
  | .job h => h.id
  | .corrupt jobId => some jobId

/-- The jobs that a call with its reply put on the waiting list, in order. -/
def arrivals : (Call × RedisTime) × Reply → List String
  | ((.enqueue a, _), .enqueue (.enqueued _)) => [a.jobId]
  | ((.fail a, _), .fail .waiting) => [a.jobId]
  | ((.requeueActive a, _), .requeueActive .waiting) => [a.jobId]
  | ((.recover _, _), .recover es) => es.filterMap RecoverEntry.requeued
  | _ => []

/-- The jobs that a call with its reply claimed, in order. -/
def departures : (Call × RedisTime) × Reply → List String
  | ((.claimGlobalBatch _, _), .claimGlobalBatch es) => es.filterMap ClaimEntry.jobId
  | _ => []

/-! ## Calls about one job -/

/-- The act puts the job on the waiting list. -/
def Act.arrives : Act → Bool
  | enqueue _ _ | retry _ _ _ | stall _ _ | requeue _ _ _ => true
  | _ => false

def Act.isClaim : Act → Bool
  | claim _ _ _ => true
  | _ => false

/-- A job waits as often as it came and was not claimed. -/
theorem reaches_waits {p p' : Place} {es : List Act} (h : Reaches (JobStep issue) p es p') :
    (p'.sight i).waits + es.countP Act.isClaim = (p.sight i).waits + es.countP Act.arrives := by
  induction h with
  | start => rfl
  | next _ hst ih =>
    rw [List.countP_append, List.countP_append]
    cases hst <;> simp [Place.sight, Act.isClaim, Act.arrives] at ih ⊢ <;> omega

/-- A script about one job that claims nothing pushes it once for each arrival. -/
theorem Touches.arrives {p p' : Place} {es : List Act} (h : Touches i q q') (hp : At q i p)
    (hp' : At q' i p') (hs : Reaches (JobStep issue) p es p') (hclaim : es.countP Act.isClaim = 0) :
    q'.waiting = List.replicate (es.countP Act.arrives) i ++ q.waiting := by
  obtain ⟨n, hn, hwaits⟩ := h.pushed hp hp'
  have hcount := reaches_waits (i := i) hs
  rw [hn]
  congr 2
  omega

/-- The job that a call is about. -/
def Call.subject : Call → Option String
  | .enqueue a => some a.jobId
  | .complete a => some a.jobId
  | .fail a => some a.jobId
  | .extendLock a => some a.jobId
  | .requeueActive a => some a.jobId
  | _ => none

theorem exec_touches (sha1hex : String → String) {op : Call × RedisTime}
    (hi : op.1.subject = some i) (q : Queue) : Touches i q (exec sha1hex op q).2 := by
  obtain ⟨call, t⟩ := op
  cases call with
  | enqueue a =>
    cases hi
    simp only [exec, Lua.exec, runScript_after]
    exact (enqueue_about a).touches q
  | complete a =>
    cases hi
    simp only [exec, Lua.exec, runScript_after]
    exact (complete_about a).touches q
  | fail a =>
    cases hi
    simp only [exec, Lua.exec, runScript_after]
    exact (fail_about a).touches q
  | extendLock a =>
    cases hi
    simp only [exec, Lua.exec, runScript_after]
    exact (extendLock_about a).touches q
  | requeueActive a =>
    cases hi
    simp only [exec, Lua.exec, runScript_after]
    exact (requeueActive_about a).touches q
  | _ => cases hi

/-- A call about one job claims nothing, and its arrivals are those of its acts. -/
theorem subject_acts {op : Call × RedisTime} (hi : op.1.subject = some i) (r : Reply) :
    departures (op, r) = [] ∧ (actsOf i (op, r)).countP Act.isClaim = 0 ∧
      arrivals (op, r) = List.replicate ((actsOf i (op, r)).countP Act.arrives) i := by
  obtain ⟨call, t⟩ := op
  cases call with
  | enqueue a =>
    cases hi
    rcases r with (_ | _) | _ | _ | _ | _ | _ | _ | _ | _ <;>
      simp [departures, arrivals, actsOf, Act.isClaim, Act.arrives]
  | complete a =>
    cases hi
    rcases r with _ | _ | (_ | _ | _) | _ | _ | _ | _ | _ | _ <;>
      simp [departures, arrivals, actsOf, Act.isClaim, Act.arrives]
  | fail a =>
    cases hi
    rcases r with _ | _ | _ | (_ | _ | _ | _) | _ | _ | _ | _ | _ <;>
      simp [departures, arrivals, actsOf, Act.isClaim, Act.arrives]
  | extendLock a =>
    cases hi
    rcases r with _ | _ | _ | _ | _ | (_ | _ | _) | _ | _ | _ <;>
      simp [departures, arrivals, actsOf, Act.isClaim, Act.arrives]
  | requeueActive a =>
    cases hi
    rcases r with _ | _ | _ | _ | _ | _ | (_ | _ | _) | _ | _ <;>
      simp [departures, arrivals, actsOf, Act.isClaim, Act.arrives]
  | _ => cases hi

/-! ## Every call -/

variable (sha1hex : String → String)

/-- The entries of a claim reply name their pointers. -/
theorem claimed_ids {now : ℕ} {d : Score} {ps : List (String × ClaimEntry)}
    (h : ∀ x ∈ ps, ∃ j, ClaimOf sha1hex now d q q' x.1 x.2 j) :
    (ps.map Prod.snd).map ClaimEntry.jobId = (ps.map Prod.fst).map some := by
  rw [List.map_map, List.map_map]
  refine List.map_congr_left fun x hx => ?_
  obtain ⟨j, hj⟩ := h x hx
  obtain ⟨y, he, hy⟩ := hj.entry
  cases hy
  simp [he, ClaimEntry.jobId, Job.hash]

theorem filterMap_of_map {β : Type} {f : β → Option String} {l : List β} {ids : List String}
    (h : l.map f = ids.map some) : l.filterMap f = ids := by
  have hid : (l.map f).filterMap id = ids := by
    rw [h, List.filterMap_map]
    simp
  rwa [List.filterMap_map] at hid

/-- One call: what it claims leaves at the right end of the waiting list, and
what it pushes comes in at the left end. -/
theorem exec_fifo {op : Call × RedisTime} (hop : op.1.LeaseIsNumber) (hq : Sound q) :
    Fifo.Step q.waiting.reverse (departures (op, (exec sha1hex op q).1))
      (arrivals (op, (exec sha1hex op q).1)) (exec sha1hex op q).2.waiting.reverse := by
  rcases hi : op.1.subject with _ | i
  · obtain ⟨call, t⟩ := op
    cases call with
    | claimGlobalBatch a =>
      obtain ⟨ps, d, -, hreply, hbatch, hps⟩ := exec_claim_sound sha1hex (t := t) hop hq
      rw [hreply]
      simp only [departures, arrivals, filterMap_of_map (claimed_ids sha1hex hps)]
      rw [hbatch.waiting, List.reverse_append, List.reverse_reverse]
      exact .pop _ _
    | recover a =>
      obtain ⟨ps, hreply, -, -, hw⟩ := exec_recover_sound sha1hex (t := t) a hq
      rw [hreply, hw, List.reverse_append, List.reverse_reverse]
      simp only [departures, arrivals, List.filterMap_map]
      exact .push _ _
    | declareConcurrencyLimit a =>
      have hw : (exec sha1hex (.declareConcurrencyLimit a, t) q).2.waiting = q.waiting := by
        simp only [exec, Lua.exec, runScript_after]
        rcases declare_after a q with ⟨-, he⟩ | ⟨-, he⟩
        · rw [he]
        · rw [he]
      rw [hw]
      exact .refl _
    | _ => cases hi
  · obtain ⟨hdep, hclaim, harr⟩ := subject_acts hi (exec sha1hex op q).1
    obtain ⟨p, hp⟩ := hq i
    obtain ⟨p', hp', hs⟩ := (exec_moves sha1hex op hop hq).1 i p hp
    rw [hdep, harr, (exec_touches sha1hex hi q).arrives hp hp' hs hclaim, List.reverse_append,
      List.reverse_replicate]
    exact .push _ _

/-- A whole run. -/
theorem finish_fifo {ops : List (Call × RedisTime)} (hl : LeasesAreNumbers ops) (hq : Sound q) :
    Fifo.Step q.waiting.reverse ((Machine.trace (exec sha1hex) q ops).flatMap departures)
      ((Machine.trace (exec sha1hex) q ops).flatMap arrivals)
      (Machine.finish (exec sha1hex) q ops).waiting.reverse := by
  induction ops generalizing q with
  | nil => exact .refl _
  | cons op ops ih =>
    have hop : op.1.LeaseIsNumber := hl op List.mem_cons_self
    have hq' : Sound (exec sha1hex op q).2 := (exec_moves sha1hex op hop hq).1.sound hq
    have hrest := ih (fun x hx => hl x (List.mem_cons_of_mem _ hx)) hq'
    exact (exec_fifo sha1hex hop hq).trans hrest

/-- All that came to the waiting list in a run, in order. -/
def arrived (ops : List (Call × RedisTime)) : List String := (trace sha1hex ops).flatMap arrivals

/-- The waiting list is the end of the log of arrivals, and lists no job twice. -/
theorem arrived_run {ops : List (Call × RedisTime)} (hl : LeasesAreNumbers ops) :
    (∃ l, arrived sha1hex ops = l ++ (run sha1hex ops).waiting.reverse) ∧
      (run sha1hex ops).waiting.reverse.Nodup := by
  refine ⟨⟨_, finish_fifo sha1hex hl sound_empty⟩, ?_⟩
  rw [List.nodup_reverse, List.nodup_iff_count_le_one]
  exact (sound_run sha1hex hl).placed.once

/-! ## The runner -/

/-- The job that a claim result names. -/
def ClaimResult.jobId : ClaimResult δ → String
  | job j => j.id
  | corrupt jobId => jobId

theorem decodeClaimEntry_jobId (parse : String → Except String δ) {e : ClaimEntry}
    (h : e.jobId = some i) : (decodeClaimEntry parse e).jobId = i := by
  cases e with
  | corrupt jobId => exact Option.some.inj h
  | job x =>
    have hx : x.id = some i := h
    simp only [decodeClaimEntry]
    rcases hd : deserializeJobHash parse x.hgetall with error | job
    · simp [ClaimResult.jobId, hx]
    · rw [id_of_deserializeJobHash hd] at hx
      exact Option.some.inj hx

/-- The runner's batch names the jobs of the entries, in their order. -/
theorem decode_jobIds (parse : String → Except String δ) {es : List ClaimEntry}
    {ids : List String} (h : es.map ClaimEntry.jobId = ids.map some) :
    (es.map (decodeClaimEntry parse)).map ClaimResult.jobId = ids := by
  induction es generalizing ids with
  | nil =>
    cases ids with
    | nil => rfl
    | cons i ids => cases h
  | cons e es ih =>
    cases ids with
    | nil => cases h
    | cons i ids =>
      simp only [List.map_cons, List.cons.injEq] at h ⊢
      exact ⟨decodeClaimEntry_jobId parse h.1, ih h.2⟩

theorem healthy_jobIds (results : List (ClaimResult δ)) :
    ((results.filterMap ClaimResult.healthy).map JobData.id).Sublist
      (results.map ClaimResult.jobId) := by
  induction results with
  | nil => exact .slnil
  | cons c results ih =>
    cases c with
    | job j => exact ih.cons_cons j.id
    | corrupt jobId => exact ih.cons jobId

/-! ## The law -/

/-- The last arrival of `i` in the run is earlier than that of `k`. -/
def CameBefore (ops : List (Call × RedisTime)) (i k : String) : Prop :=
  Fifo.lastArrival (arrived sha1hex ops) i < Fifo.lastArrival (arrived sha1hex ops) k

instance (ops : List (Call × RedisTime)) (i k : String) : Decidable (CameBefore sha1hex ops i k) :=
  inferInstanceAs (Decidable (_ < _))

/-- The jobs that the calls after a run claim, in order. -/
def claimedAfter (before after : List (Call × RedisTime)) : List String :=
  (Machine.trace (exec sha1hex) (run sha1hex before) after).flatMap departures

/-- The queue is first in, first out. Of two waiting jobs, the one that came
earlier is claimed first, by whatever claims follow. Each claim reply lists its
jobs in the order in which they came, and a runner that gets it starts the
processor of each healthy one, in that order. -/
theorem jobs_leave_in_the_order_they_came (parse : String → Except String δ)
    (before : List (Call × RedisTime)) (hl : LeasesAreNumbers before) :
    (∀ after, LeasesAreNumbers after → ∀ i ∈ (run sha1hex before).waiting,
      ∀ k ∈ (run sha1hex before).waiting, CameBefore sha1hex before i k →
      k ∈ claimedAfter sha1hex before after →
      (claimedAfter sha1hex before after).idxOf i < (claimedAfter sha1hex before after).idxOf k) ∧
    ∀ a t, a.leaseMs ≠ .nan → ∃ es ids results,
      (exec sha1hex (.claimGlobalBatch a, t) (run sha1hex before)).1 = .claimGlobalBatch es ∧
      es.map ClaimEntry.jobId = ids.map some ∧ ids.Pairwise (CameBefore sha1hex before) ∧
      (Reply.claimGlobalBatch es).claimed parse = .ok results ∧
      results.map ClaimResult.jobId = ids ∧
      ((results.filterMap ClaimResult.healthy).map JobData.id).Pairwise
        (CameBefore sha1hex before) ∧
      ∀ r : Runner δ, r.Reachable → ∀ n, (r.onClaimReply n (.ok results)).invoked =
        r.invoked ++ results.filterMap ClaimResult.healthy := by
  have hq := sound_run sha1hex hl
  obtain ⟨⟨l, hlog⟩, hnodup⟩ := arrived_run sha1hex hl
  constructor
  · intro after hl' i hi k hk hik hclaimed
    have hi' := List.mem_reverse.mpr hi
    have hk' := List.mem_reverse.mpr hk
    have hidx : (run sha1hex before).waiting.reverse.idxOf i <
        (run sha1hex before).waiting.reverse.idxOf k := by
      rwa [CameBefore, hlog, Fifo.lastArrival_lt hnodup hi' hk'] at hik
    exact (finish_fifo sha1hex hl' hq).leaves_first hidx hk' hclaimed
  · intro a t ha
    obtain ⟨ps, d, -, hreply, hbatch, hps⟩ := exec_claim_sound sha1hex (t := t) ha hq
    have hids := claimed_ids sha1hex hps
    have horder : (ps.map Prod.fst).Pairwise (CameBefore sha1hex before) := by
      have hall := Fifo.pairwise_lastArrival (l := l) hnodup
      rw [← hlog] at hall
      rw [hbatch.popped]
      exact hall.sublist (List.take_sublist _ _)
    have hresults := decode_jobIds parse hids
    refine ⟨_, _, _, hreply, hids, horder, rfl, hresults, horder.sublist ?_, fun r hr n => ?_⟩
    · rw [← hresults]
      exact healthy_jobIds _
    · obtain ⟨N, -, hn, -⟩ := hr.books
      exact (hn.onClaimReply n _).2.1

/-- Two jobs wait, and a claim of one is followed by a claim of the other. -/
theorem sample_jobs_leave_in_order :
    let before : List (Call × RedisTime) :=
      [(.enqueue sampleJob, ⟨1, 0⟩), (.enqueue { sampleJob with jobId := "k" }, ⟨1, 0⟩)]
    let after : List (Call × RedisTime) :=
      [(.claimGlobalBatch ⟨.ofNat 30000, 1⟩, ⟨2, 0⟩), (.claimGlobalBatch ⟨.ofNat 30000, 1⟩, ⟨2, 0⟩)]
    (claimedAfter id before after).idxOf "j" < (claimedAfter id before after).idxOf "k" := by
  intro before after
  exact (jobs_leave_in_the_order_they_came id sampleParse before (by decide)).1 after (by decide)
    "j" (by decide +kernel) "k" (by decide +kernel) (by decide +kernel) (by decide +kernel)

end Panqueue
