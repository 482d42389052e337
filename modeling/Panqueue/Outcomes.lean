-- Worker events tell the durable truth: the snapshot in each event of an
-- outcome is the hash that the script left, although `#processJob` rebuilds it
-- from the claim.
import Panqueue.ClaimLoop
import Panqueue.Durable
import Panqueue.Fencing
import Panqueue.Identity

namespace Panqueue

variable {δ : Type} {q q' : Queue} {t : RedisTime} {i : String} {issue : ℕ → ℕ → String}
  {parse : String → Except String δ}

/-! ## One token, one job -/

/-- While the token of a claim is live, nothing about its job changes. Once it
is not, it stays dead for that life. -/
theorem token_tells_job (hinj : ∀ now now' n n', issue now n = issue now' n' → n = n') (now : ℕ)
    {j : Job} {token : String} {d : Score} {es : List Act} {p : Place}
    (htoken : token = issue now j.runs) (hes : ∀ e ∈ es, e.isEnqueue = false)
    (h : Reaches (JobStep issue) (.active j token d) es p) :
    (∃ d', p = .active j token d') ∨
      (p.token ≠ some token ∧ ∀ j', p.job = some j' → j.runs ≤ j'.runs) := by
  induction h with
  | start => exact Or.inl ⟨d, rfl⟩
  | next _ hst ih =>
    rcases ih fun e he => hes e (List.mem_append_left _ he) with ⟨d1, rfl⟩ | ⟨hne, hruns⟩
    · -- the holder or a sweep ends the claim, or it is renewed
      cases hst with
      | extend _ _ _ d' => exact Or.inl ⟨d', rfl⟩
      | _ =>
        refine Or.inr ⟨by simp [Place.token], fun j' hj' => ?_⟩
        cases hj'
        exact Nat.le_refl _
    · right
      cases hst with
      | enqueue a now =>
        have hno := hes _ (List.mem_append_right _ (List.mem_singleton_self _))
        cases hno
      | claim j1 now1 d1 =>
        have hle : j.runs ≤ j1.runs := hruns j1 rfl
        refine ⟨fun he => ?_, fun j' hj' => ?_⟩
        · rw [htoken] at he
          have := hinj _ _ _ _ (Option.some.inj he)
          omega
        · cases hj'
          exact Nat.le_succ_of_le hle
      | extend j1 token1 d1 d' => exact ⟨hne, hruns⟩
      | evict s j1 now1 => exact ⟨by simp [Place.token], fun j' hj' => by cases hj'⟩
      | _ =>
        refine ⟨by simp [Place.token], fun j' hj' => ?_⟩
        cases hj'
        have hle := hruns _ rfl
        exact hle

/-! ## Snapshots -/

/-- The snapshot shows this hash, in this status and without a lease. The time
of the last failure is the one field that a worker does not fold in. -/
structure Mirrors (parse : String → Except String δ) (s : JobData δ) (status : JobStatus)
    (h : JobHash) : Prop where
  id : h.id = some s.id
  queueId : h.queueId = some s.queueId
  data : ∃ payload, h.payload = some payload ∧ parse payload = .ok s.data
  status : s.status = status
  lockToken : s.lockToken = none
  leaseDeadline : s.numeric .leaseDeadline = none
  numeric : ∀ f ≠ .lastFailedAt, s.numeric f = (h.numeric f).map Numeral.toNumber
  failureKind : s.failureKind = h.failureKind
  failedReason : s.failedReason = h.failedReason
  lastError : s.lastError = h.lastError
  lastRequeueReason : s.lastRequeueReason = h.lastRequeueReason

/-- The record of a claim entry is that of its hash. -/
structure JobData.Shows (parse : String → Except String δ) (job : JobData δ) (h : JobHash) :
    Prop where
  id : h.id = some job.id
  queueId : h.queueId = some job.queueId
  data : ∃ payload, h.payload = some payload ∧ parse payload = .ok job.data
  status : h.status = some job.status
  numeric : ∀ f, job.numeric f = (h.numeric f).map Numeral.toNumber
  failureKind : job.failureKind = h.failureKind
  failedReason : job.failedReason = h.failedReason
  lastError : job.lastError = h.lastError
  lastRequeueReason : job.lastRequeueReason = h.lastRequeueReason
  lockToken : job.lockToken = h.lockToken

theorem shows_of_deserializeJobHash {h : JobHash} {job : JobData δ}
    (hd : deserializeJobHash parse h.hgetall = .ok job) : job.Shows parse h := by
  obtain ⟨hi, hq, hs, p, hp, hdata⟩ := fields_of_deserializeJobHash hd
  rw [deserializeJobHash_hgetall parse h hi hq hs hp hdata] at hd
  have he := Except.ok.inj hd
  exact ⟨hi, hq, ⟨p, hp, hdata⟩, hs, fun f => (congrFun (congrArg JobData.numeric he) f).symm,
    (congrArg JobData.failureKind he).symm, (congrArg JobData.failedReason he).symm,
    (congrArg JobData.lastError he).symm, (congrArg JobData.lastRequeueReason he).symm,
    (congrArg JobData.lockToken he).symm⟩

theorem shows_of_decodeClaimEntry {h : JobHash} {job : JobData δ}
    (hd : decodeClaimEntry parse (.job h) = .job job) : job.Shows parse h := by
  rcases hx : deserializeJobHash parse h.hgetall with error | job'
  · simp [decodeClaimEntry, hx] at hd
  · simp only [decodeClaimEntry, hx, ClaimResult.job.injEq] at hd
    exact hd ▸ shows_of_deserializeJobHash hx

variable {j : Job} {token : String} {d : Score} {job : JobData δ} {x : JobHash}

/-- The lease is the one difference between the hash of a claim and that of its job. -/
theorem numeric_active (hx : (Place.active j token d).hash i = some x) (s : JobStatus)
    {f : NumericField} (hf : f ≠ .leaseDeadline) : x.numeric f = (j.hash i s).numeric f := by
  cases hx
  cases f <;> first | rfl | exact absurd rfl hf

/-- The snapshot of a completed job. -/
theorem settledSnapshot_mirrors (hx : (Place.active j token d).hash i = some x)
    (hs : job.Shows parse x) (status status' : JobStatus) :
    Mirrors parse (settledSnapshot job status) status (j.hash i status') := by
  refine ⟨?_, ?_, ?_, rfl, rfl, by simp [settledSnapshot], fun f _ => ?_, ?_, ?_, ?_, ?_⟩
  · cases hx
    exact hs.id
  · cases hx
    exact hs.queueId
  · cases hx
    exact hs.data
  · by_cases hf : f = .leaseDeadline
    · subst hf
      simp [settledSnapshot, JobHash.numeric, Job.hash]
    · rw [← numeric_active hx status' hf, ← hs.numeric f]
      simp [settledSnapshot, hf]
  · cases hx
    exact hs.failureKind
  · cases hx
    exact hs.failedReason
  · cases hx
    exact hs.lastError
  · cases hx
    exact hs.lastRequeueReason

/-- The snapshot of a failure. -/
theorem failedSnapshot_mirrors (hx : (Place.active j token d).hash i = some x)
    (hs : job.Shows parse x) (status status' : JobStatus) (message : String) (now : ℕ) :
    Mirrors parse (failedSnapshot job status message) status
      ((j.failed message now).hash i status') := by
  have hsettled := settledSnapshot_mirrors hx hs status status'
  refine ⟨hsettled.id, hsettled.queueId, hsettled.data, rfl, rfl,
    by simp [failedSnapshot, settledSnapshot], fun f hf => ?_, rfl, rfl, rfl,
    hsettled.lastRequeueReason⟩
  by_cases hfail : f = .failures
  · subst hfail
    have hcount : job.numeric .failures = some (Double.ofNat j.failures) := by
      rw [hs.numeric, numeric_active hx status' (by simp)]
      rfl
    simp only [failedSnapshot, Function.update_self, hcount]
    change some ((Double.ofNat j.failures).addRat 1) =
      some (Double.ofInt ((j.failures + 1 : ℕ) : ℤ))
    simp [Double.ofNat, Double.ofInt]
  · have hsame :
        ((j.failed message now).hash i status').numeric f = (j.hash i status').numeric f := by
      cases f <;> first | rfl | exact absurd rfl hfail | exact absurd rfl hf
    rw [hsame, ← hsettled.numeric f hf]
    simp [failedSnapshot, hfail]

/-! ## Acknowledgements -/

/-- The events that an acknowledgement of `job` leads to: they are determined by
its reply, they are about that job, and the snapshots in them mirror the hash
that was held. -/
def AckMirrors (parse : String → Except String δ) (job : JobData δ) (held : Option JobKey)
    (events : List (WorkerEvent δ)) : Reply → Prop
  | .complete .completed => ∃ s h, held = some (.hash h) ∧ events = [.onJobCompleted s] ∧
      s.id = job.id ∧ Mirrors parse s .completed h
  | .complete .stale => events = [.onJobStale job .complete]
  | .complete .missing => events = [.onJobAckError job .complete (.ok .missing)]
  | .fail .waiting => ∃ s h error, held = some (.hash h) ∧ h.failedReason = some error ∧
      events =
        [.onJobError s error true,
          .onJobRetry s error
            (retriesLeft (s.numeric .maxRetries) (s.numeric .failures)) .handler] ∧
      s.id = job.id ∧ Mirrors parse s .waiting h
  | .fail .failed => ∃ s h error, held = some (.hash h) ∧ h.failedReason = some error ∧
      events = [.onJobError s error false, .onJobFailed s error .handler] ∧
      s.id = job.id ∧ Mirrors parse s .failed h
  | .fail .stale => events = [.onJobStale job .fail]
  | .fail .missing => events = [.onJobAckError job .fail (.ok .missing)]
  | _ => False

variable (sha1hex : String → String)

/-- The job and the token that a snapshot of a claim presents. -/
theorem JobData.Shows.presents (hs : job.Shows parse x)
    (hx : (Place.active j token d).hash i = some x) :
    job.id = i ∧ job.lockToken.getD "" = token := by
  have hid := hs.id
  have htoken := hs.lockToken
  cases hx
  exact ⟨(Option.some.inj hid).symm, by rw [htoken]; rfl⟩

/-- An acknowledgement of a claim, when the token still tells the job. -/
theorem ack_mirrors (hx : (Place.active j token d).hash i = some x) (hs : job.Shows parse x)
    {p : Place} (hp : At q i p) (hone : p.token = some token → ∃ d', p = .active j token d')
    (retention : ResolvedRetention) (settled : Settled) :
    AckMirrors parse job (heldBy (acknowledgeCall retention job settled, t) q)
      (processJobTail job settled
        (exec sha1hex (acknowledgeCall retention job settled, t) q).1.ack)
      (exec sha1hex (acknowledgeCall retention job settled, t) q).1 := by
  obtain ⟨rfl, htoken⟩ := hs.presents hx
  cases settled with
  | returned =>
    simp only [acknowledgeCall, htoken]
    by_cases hlive : p.token = some token
    · obtain ⟨d', rfl⟩ := hone hlive
      let a : CompleteArgs := { jobId := job.id, lockToken := token, retention }
      obtain ⟨q', hrun, -⟩ := complete_holder sha1hex (t := t) (a := a) hp
      rw [complete_held (t := t) (a := a) hp]
      simp only [exec, Lua.exec, runScript, hrun, a]
      exact ⟨_, _, rfl, rfl, rfl, settledSnapshot_mirrors hx hs .completed .active⟩
    · have hrun : complete t { jobId := job.id, lockToken := token, retention } q = _ :=
        hp.refused hlive _ _ _
      simp only [exec, Lua.exec, runScript, hrun]
      split <;> rfl
  | threw message =>
    simp only [acknowledgeCall, htoken]
    by_cases hlive : p.token = some token
    · obtain ⟨d', rfl⟩ := hone hlive
      let a : FailArgs := { jobId := job.id, error := message, lockToken := token, retention }
      rcases fail_holder sha1hex (t := t) (a := a) hp with
        ⟨hm, q', hrun, -⟩ | ⟨hm, q', hrun, -⟩
      · rw [fail_held_waiting (a := a) hp hm]
        simp only [exec, Lua.exec, runScript, hrun, a]
        exact ⟨_, _, message, rfl, rfl, rfl, rfl,
          failedSnapshot_mirrors hx hs .waiting .waiting message t.now⟩
      · rw [fail_held (a := a) hp hm]
        simp only [exec, Lua.exec, runScript, hrun, a]
        exact ⟨_, _, message, rfl, rfl, rfl, rfl,
          failedSnapshot_mirrors hx hs .failed .active message t.now⟩
    · have hrun :
          fail t { jobId := job.id, error := message, lockToken := token, retention } q = _ :=
        hp.refused hlive _ _ _
      simp only [exec, Lua.exec, runScript, hrun]
      split <;> rfl

/-! ## Sweeps -/

/-- The one event of a sweep entry, whose snapshot mirrors the hash that was held. -/
def SweepMirrors (parse : String → Except String δ) :
    RecoverEntry × Option JobKey → WorkerEvent δ → Prop
  | (.job .waiting _, held), event => ∃ s h error, held = some (.hash h) ∧
      h.failedReason = some error ∧
      event = .onJobRetry s error
        (retriesLeft (s.numeric .maxStalls) (s.numeric .stalls)) .stalled ∧
      Mirrors parse s .waiting h
  | (.job .failed _, held), event => ∃ s h error, held = some (.hash h) ∧
      h.failedReason = some error ∧ event = .onJobFailed s error .stalled ∧
      Mirrors parse s .failed h
  | (.corrupt _, _), _ => False

/-- The record of a hash without a lease mirrors it. -/
theorem JobData.Shows.mirrors {h : JobHash} (hs : job.Shows parse h) {status : JobStatus}
    (hstatus : h.status = some status) (htoken : h.lockToken = none)
    (hdeadline : h.leaseDeadline = none) : Mirrors parse job status h := by
  refine ⟨hs.id, hs.queueId, hs.data, ?_, hs.lockToken.trans htoken, ?_, fun f _ => hs.numeric f,
    hs.failureKind, hs.failedReason, hs.lastError, hs.lastRequeueReason⟩
  · exact Option.some.inj (hs.status.symm.trans hstatus)
  · rw [hs.numeric, show h.numeric .leaseDeadline = none from hdeadline]
    rfl

/-- A sweep entry decodes, and its event mirrors its hash. -/
theorem Job.sweepEntry_mirrors (parse : String → Except String δ) (i : String) (j : Job)
    (reason : String) (now : ℕ) {data : δ} (hd : parse j.payload = .ok data) :
    ∃ o h job, j.sweepEntry i reason now = .job o h ∧
      deserializeJobHash parse h.hgetall = .ok job ∧
      ∃ event, (RecoveredJob.job o job).events = [event] ∧
        SweepMirrors parse (.job o h, some (.hash h)) event := by
  obtain ⟨o, h, he⟩ : ∃ o h, j.sweepEntry i reason now = .job o h := by
    unfold sweepEntry
    split <;> exact ⟨_, _, rfl⟩
  obtain ⟨hh, hj, -⟩ := Job.sweepEntry_hash he
  have hcarries := Place.hash_carries hj hh
  obtain ⟨job, hdec, -⟩ := hcarries.decodes parse hd (List.Perm.refl _)
  have hshows := shows_of_deserializeJobHash hdec
  refine ⟨o, h, job, he, hdec, ?_⟩
  unfold sweepEntry at he
  split at he
  · cases he
    have hreason : job.failedReason = some reason := hshows.failedReason
    refine ⟨_, rfl, job, _, reason, rfl, rfl, ?_, hshows.mirrors rfl rfl rfl⟩
    rw [hreason]
    rfl
  · cases he
    have hreason : job.failedReason = some reason := hshows.failedReason
    refine ⟨_, rfl, job, _, reason, rfl, rfl, ?_, hshows.mirrors rfl rfl rfl⟩
    rw [hreason]
    rfl

/-- When each entry decodes and has its event, the sweep emits these events, in order. -/
theorem handleRecovered_mirrors (parse : String → Except String δ)
    (xs : List (RecoverEntry × Option JobKey))
    (h : ∀ x ∈ xs, ∃ o y job, x.1 = .job o y ∧ deserializeJobHash parse y.hgetall = .ok job ∧
      ∃ event, (RecoveredJob.job o job).events = [event] ∧ SweepMirrors parse x event) :
    ∃ jobs, parseRecoveredJobs parse (xs.map Prod.fst) = .ok jobs ∧
      List.Forall₂ (SweepMirrors parse) xs (handleRecovered jobs) := by
  induction xs with
  | nil => exact ⟨[], rfl, .nil⟩
  | cons x xs ih =>
    obtain ⟨⟨o, y, job, hx, hdec, event, hevents, hm⟩, hrest⟩ := List.forall_mem_cons.mp h
    obtain ⟨jobs, hjobs, hall⟩ := ih hrest
    refine ⟨.job o job :: jobs, ?_, ?_⟩
    · simp only [List.map_cons, hx, parseRecoveredJobs, hdec, hjobs, bind, Except.bind]
    · rw [handleRecovered, List.flatMap_cons, hevents]
      exact .cons hm hall

theorem sweepEvents_ok (jobs : List (RecoveredJob δ)) :
    sweepEvents (.ok jobs) = handleRecovered jobs := by
  cases jobs <;> rfl

/-- A sweep of a sound queue whose active jobs have payloads that parse. -/
theorem sweep_mirrors (a : RecoverArgs) (hq : Sound q)
    (hp : ∀ i j token d, At q i (.active j token d) → ∃ data, parse j.payload = .ok data) :
    ∃ xs q', recoverHeld t a q = .ok xs q' ∧
      (exec sha1hex (.recover a, t) q).1 = .recover (xs.map Prod.fst) ∧
      List.Forall₂ (SweepMirrors parse) xs
        (sweepEvents ((exec sha1hex (.recover a, t) q).1.recovered parse)) := by
  obtain ⟨ps, hreply, -, hps, -⟩ := exec_recover_sound sha1hex (t := t) a hq
  rcases hrun : recoverHeld t a q with ⟨xs, q'⟩ | ⟨e, q'⟩
  · have hexec : (exec sha1hex (.recover a, t) q).1 = .recover (xs.map Prod.fst) := by
      have hr : recover t a q = .ok (xs.map Prod.fst) q' := by
        rw [recover_eq_held, map_eq_pure_bind, Script.bind_ok hrun]
        rfl
      simp only [exec, Lua.exec, runScript, hr]
    refine ⟨xs, q', rfl, hexec, ?_⟩
    have hentries : xs.map Prod.fst = ps.map Prod.snd := by
      rw [hexec] at hreply
      exact Reply.recover.inj hreply
    have hheld := recoverHeld_held hrun
    obtain ⟨jobs, hjobs, hall⟩ := handleRecovered_mirrors parse xs <| by
      intro x hx
      obtain ⟨y, hy, hyx⟩ := List.mem_map.mp (hentries ▸ List.mem_map_of_mem (f := Prod.fst) hx)
      obtain ⟨j, hj⟩ := hps y hy
      obtain ⟨token, d, hat, -⟩ := hj.active
      obtain ⟨data, hdata⟩ := hp _ _ _ _ hat
      obtain ⟨o, h, job, he, hdec, event, hevents, hm⟩ :=
        Job.sweepEntry_mirrors parse y.1 j a.reason t.now hdata
      have hx1 : x.1 = .job o h := by rw [← hyx, hj.entry, he]
      have hx2 : x.2 = some (.hash h) := hheld o h x.2 (by rw [← hx1]; exact hx)
      refine ⟨o, h, job, hx1, hdec, event, hevents, ?_⟩
      rw [← hx1, ← hx2] at hm
      exact hm
    rw [hexec]
    simp only [Reply.recovered, hjobs, sweepEvents_ok]
    exact hall
  · exfalso
    have hr : recover t a q = .error e q' := by
      rw [recover_eq_held, map_eq_pure_bind, Script.bind_error hrun]
    simp only [exec, Lua.exec, runScript, hr] at hreply
    cases hreply

/-! ## The law -/

theorem Runner.release_emitted (r : Runner δ) : r.release.emitted = r.emitted := by
  unfold Runner.release
  split <;> rfl

/-- What the runner sends and emits for an entry whose processor settled. -/
theorem Runner.acknowledgement_some {r : Runner δ} {e : InFlightEntry δ} {call : Call}
    (h : r.acknowledgement e = some call) :
    ∃ settled retention, call = acknowledgeCall retention e.job settled ∧
      ∀ reply, (r.acknowledged e reply).emitted =
        r.emitted ++ processJobTail e.job settled reply := by
  rcases hs : e.stage with _ | (_ | message)
  · simp [Runner.acknowledgement, hs] at h
  · simp only [Runner.acknowledgement, hs, Option.some.injEq] at h
    refine ⟨.returned, _, h.symm, fun reply => ?_⟩
    simp only [Runner.acknowledged, hs, Runner.settle, Runner.release_emitted, Runner.emit]
  · simp only [Runner.acknowledgement, hs, Option.some.injEq] at h
    refine ⟨.threw message, _, h.symm, fun reply => ?_⟩
    simp only [Runner.acknowledged, hs, Runner.settle, Runner.release_emitted, Runner.emit]

/-- The payload of an active job parses when all enqueued ones do. -/
theorem payload_parses {ops : List (Call × RedisTime)} (hl : LeasesAreNumbers ops)
    (hp : PayloadsParse parse ops) {p : Place} (hat : At (run sha1hex ops) i p)
    (hj : p.job = some j) : ∃ data, parse j.payload = .ok data := by
  obtain ⟨p', hp', hr⟩ := run_refines sha1hex hl i
  rw [← hat.unique hp'] at hr
  obtain ⟨a, now, hmem, hof⟩ := job_is_of_enqueue hr j hj
  obtain ⟨op, hop, hcall⟩ := enqueue_of_history sha1hex hmem
  rw [hof.payload]
  exact hp op hop a hcall

/-- After its claim, a job of an id that is not reused has no further enqueue. -/
theorem no_enqueue_after {before after : List (Call × RedisTime)} {op : Call × RedisTime}
    (hl : LeasesAreNumbers before) (hids : IdsNotReused (trace sha1hex (before ++ op :: after)))
    (hat : At (run sha1hex before) i (.waiting j)) :
    ∀ e ∈ history i (Machine.trace (exec sha1hex) (run sha1hex (before ++ [op])) after),
      e.isEnqueue = false := by
  obtain ⟨p, hp, hr⟩ := run_refines sha1hex hl i
  rw [← hat.unique hp] at hr
  obtain ⟨a, now, hmem, -⟩ := job_is_of_enqueue hr j rfl
  have hpos : 0 < (history i (trace sha1hex before)).countP Act.isEnqueue :=
    List.countP_pos_iff.mpr ⟨_, hmem, rfl⟩
  have hcount := hids i
  rw [List.append_cons, trace_append, trace_append, history_append, history_append,
    List.countP_append, List.countP_append] at hcount
  have hzero : (history i (Machine.trace (exec sha1hex) (run sha1hex (before ++ [op]))
      after)).countP Act.isEnqueue = 0 := by
    omega
  intro e he
  have hno := List.countP_eq_zero.mp hzero e he
  simpa using hno

/-- When an acknowledgement call of a runner comes back, the runner emits what
the reply determines, and the snapshots mirror the hash that the script held
just before retention. The same holds of each entry of a sweep. -/
theorem worker_events_tell_the_durable_truth (hsha : Function.Injective sha1hex)
    (parse : String → Except String δ) (ops : List (Call × RedisTime))
    (hl : LeasesAreNumbers ops) (hids : IdsNotReused (trace sha1hex ops))
    (hp : PayloadsParse parse ops) :
    (∀ before after a t₀ es entry, ops = before ++ (.claimGlobalBatch a, t₀) :: after →
      (exec sha1hex (.claimGlobalBatch a, t₀) (run sha1hex before)).1 = .claimGlobalBatch es →
      entry ∈ es → ∀ (r : Runner δ) (e : InFlightEntry δ) (call : Call) (t : RedisTime),
      decodeClaimEntry parse entry = .job e.job → r.acknowledgement e = some call →
      ∃ events,
        (r.acknowledged e (exec sha1hex (call, t) (run sha1hex ops)).1.ack).emitted =
          r.emitted ++ events ∧
        AckMirrors parse e.job (heldBy (call, t) (run sha1hex ops)) events
          (exec sha1hex (call, t) (run sha1hex ops)).1) ∧
    ∀ a t, ∃ xs q', recoverHeld t a (run sha1hex ops) = .ok xs q' ∧
      (exec sha1hex (.recover a, t) (run sha1hex ops)).1 = .recover (xs.map Prod.fst) ∧
      List.Forall₂ (SweepMirrors parse) xs
        (sweepEvents ((exec sha1hex (.recover a, t) (run sha1hex ops)).1.recovered parse)) := by
  constructor
  · rintro before after a t₀ es entry rfl hclaim hentry r e call t hdec hcall
    obtain ⟨settled, retention, rfl, hemitted⟩ := Runner.acknowledgement_some hcall
    refine ⟨_, hemitted _, ?_⟩
    have hop : a.leaseMs ≠ .nan := hl _ (List.mem_append_right _ List.mem_cons_self)
    have hl0 : LeasesAreNumbers (before ++ [(.claimGlobalBatch a, t₀)]) := fun x hx =>
      hl x (List.append_cons before _ after ▸ List.mem_append_left after hx)
    have hl1 : LeasesAreNumbers after := fun x hx =>
      hl x (List.mem_append_right _ (List.mem_cons_of_mem _ hx))
    -- the claim that the snapshot shows
    obtain ⟨ps, d, -, hreply, -, hps⟩ :=
      exec_claim_sound sha1hex (t := t₀) hop (sound_run sha1hex hl.left)
    rw [hreply] at hclaim
    obtain ⟨y, hy, rfl⟩ := List.mem_map.mp (Reply.claimGlobalBatch.inj hclaim ▸ hentry)
    obtain ⟨j, hj⟩ := hps y hy
    obtain ⟨x, hx, hhash⟩ := hj.entry
    rw [hx] at hdec
    have hactive := hj.active
    rw [← run_snoc] at hactive
    -- the job at the acknowledgement
    obtain ⟨p, ⟨-, hat⟩, hr⟩ := finish_refines sha1hex (sound_run sha1hex hl0) hl1 hactive
    rw [← run_append, ← List.append_cons] at hat
    refine ack_mirrors sha1hex hhash (shows_of_decodeClaimEntry hdec) hat (fun hlive => ?_) _ _
    rcases token_tells_job
      (fun _ _ _ _ he => (issued_inj hsha he).2) t₀.now rfl
      (no_enqueue_after sha1hex hl.left hids hj.waited) hr with hsame | ⟨hdead, -⟩
    · exact hsame
    · exact absurd hlive hdead
  · intro a t
    exact sweep_mirrors sha1hex a (sound_run sha1hex hl) fun i j token d hat =>
      payload_parses sha1hex hl hp hat rfl

/-- The hash in the reply to the sample claim. -/
def sampleClaimedHash : JobHash :=
  { ((Job.enqueued sampleJob 1000).claimed 2000).hash "j" .active with
    lockToken := some "j:2000:1", leaseDeadline := some (.int 32000) }

/-- The sample job is completed, and its event says so. -/
theorem sample_completion_is_told : ∃ (r : Runner String) (e : InFlightEntry String) (call : Call)
    (s : JobData String), r.acknowledgement e = some call ∧
      (r.acknowledged e (exec id (call, ⟨3, 0⟩) (run id sampleOps)).1.ack).emitted =
        r.emitted ++ [.onJobCompleted s] ∧ s.id = "j" ∧ s.status = .completed := by
  obtain ⟨job, hjob, hid, htoken⟩ : ∃ job,
      deserializeJobHash sampleParse sampleClaimedHash.hgetall = .ok job ∧ job.id = "j" ∧
        job.lockToken = some "j:2000:1" :=
    ⟨_, deserializeJobHash_hgetall (i := "j") (q := "mail") (s := .active) (p := "{}")
      (d := "{}") sampleParse sampleClaimedHash rfl rfl rfl rfl rfl, rfl, rfl⟩
  have hdec : decodeClaimEntry sampleParse (.job sampleClaimedHash) = .job job := by
    simp only [decodeClaimEntry, hjob]
  let r : Runner String := sampleRunner
  let e : InFlightEntry String := { serial := 0, job, stage := .acknowledging .returned }
  have hcall : r.acknowledgement e =
      some (.complete ⟨"j", "j:2000:1", ⟨.delete, -1, -1⟩⟩) := by
    simp only [Runner.acknowledgement, acknowledgeCall, hid, htoken, Option.getD_some, r, e,
      sampleRunner]
  have hparse : PayloadsParse sampleParse sampleOps := fun _ _ a _ => ⟨a.payload, rfl⟩
  have hclaim : (exec id (.claimGlobalBatch ⟨.ofNat 30000, 1⟩, ⟨2, 0⟩)
      (run id [(.enqueue sampleJob, ⟨1, 0⟩)])).1 =
        .claimGlobalBatch [.job sampleClaimedHash] := by decide +kernel
  obtain ⟨events, hemitted, hm⟩ := (worker_events_tell_the_durable_truth id Function.injective_id
    sampleParse sampleOps (by decide) (idsNotReused_of_nodup id (by decide)) hparse).1
    [(.enqueue sampleJob, ⟨1, 0⟩)] [] _ _ _ _ rfl hclaim List.mem_cons_self r e _ ⟨3, 0⟩ hdec hcall
  have hreply : (exec id (.complete ⟨"j", "j:2000:1", ⟨.delete, -1, -1⟩⟩, ⟨3, 0⟩)
      (run id sampleOps)).1 = .complete .completed := by decide +kernel
  rw [hreply] at hm
  obtain ⟨s, h, -, rfl, hid', hs⟩ := hm
  exact ⟨r, e, _, s, hcall, hemitted, hid'.trans hid, hs.status⟩

end Panqueue
