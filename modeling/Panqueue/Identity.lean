-- A job keeps its identity and its payload for life: each entry that a claim
-- or a sweep makes of it decodes to what its enqueue sent.
import Panqueue.Entries
import Panqueue.Placement

namespace Panqueue

variable {α δ : Type} {q : Queue} {t t' : RedisTime} {k : String}

/-! ## The enqueue of a client -/

/-- Per-job options of an enqueue. -/
structure JobOptions where
  retries : Option Double := none
  maxStalls : Option Double := none

/-- The errors of `QueueClient.enqueue` that come before its script. -/
inductive ClientError
  | serialization (message : String)
  | connection

/-- `QueueClient.enqueue`, up to its script call, with the job id that it
generated. The check of the payload is a parameter, and so is `JSON.stringify`:
a payload without a text makes the Redis client throw. -/
def QueueClient.enqueue (assertJsonSerializable : α → Except String Unit)
    (stringify : α → Option String) (jobId queueId : String) (data : α)
    (options : Option JobOptions) : Except ClientError EnqueueArgs :=
  match assertJsonSerializable data with
  | .error message => .error (.serialization message)
  | .ok () =>
    match stringify data with
    | none => .error .connection
    | some payload => .ok
        { jobId
          payload
          queueId
          maxRetries := (options.bind JobOptions.retries).getD (.ofNat 0)
          maxStalls := (options.bind JobOptions.maxStalls).getD (.ofNat 5) }

/-- The call carries the id, the queue, the text of the payload and the budgets. -/
theorem QueueClient.enqueue_ok {check : α → Except String Unit} {stringify : α → Option String}
    {jobId queueId : String} {data : α} {options : Option JobOptions} {args : EnqueueArgs}
    (h : QueueClient.enqueue check stringify jobId queueId data options = .ok args) :
    args.jobId = jobId ∧ args.queueId = queueId ∧ stringify data = some args.payload ∧
      args.maxRetries = (options.bind JobOptions.retries).getD (.ofNat 0) ∧
      args.maxStalls = (options.bind JobOptions.maxStalls).getD (.ofNat 5) := by
  unfold QueueClient.enqueue at h
  split at h
  · cases h
  · split at h
    · cases h
    · rename_i payload hp
      cases h
      exact ⟨rfl, rfl, hp, rfl, rfl⟩

/-! ## The hashes of a reply -/

/-- The hashes in the entries of a claim reply or of a sweep reply. -/
def Reply.hashes : Reply → List JobHash
  | .claimGlobalBatch es => es.filterMap fun
    | .job h => some h
    | .corrupt _ => none
  | .recover es => es.filterMap fun
    | .job _ h => some h
    | .corrupt _ => none
  | _ => []

/-- The hash of a job at a place has the identity of the job. -/
structure JobHash.Carries (h : JobHash) (k : String) (j : Job) : Prop where
  id : h.id = some k
  queueId : h.queueId = some j.queueId
  payload : h.payload = some j.payload
  status : h.status.isSome
  maxRetries : h.maxRetries = some (.ofDouble j.maxRetries)
  maxStalls : h.maxStalls = some (.ofDouble j.maxStalls)
  createdAt : h.createdAt = some (.int j.createdAt)

theorem Place.hash_carries {p : Place} {j : Job} {h : JobHash} (hj : p.job = some j)
    (hh : p.hash k = some h) : h.Carries k j := by
  cases p <;> cases hj <;> cases hh <;> exact ⟨rfl, rfl, rfl, rfl, rfl, rfl, rfl⟩

/-- The hash `h` in a reply is that of a job which stood in `q` as `j`. It is
stored in `q'`, but retention may have deleted it there if the job failed for good. -/
structure HashOf (q q' : Queue) (h : JobHash) (k : String) (j : Job) : Prop where
  stood : ∃ p, p.job = some j ∧ At q k p
  shown : ∃ j', h.Carries k j' ∧ ∀ a now, j.IsOf a now → j'.IsOf a now
  stored : q'.jobs k = some (.hash h) ∨ q'.jobs k = none ∧ h.status = some .failed

variable {sha1hex : String → String}

theorem ClaimOf.hashOf {d : Score} {now : ℕ} {q' : Queue} {e : ClaimEntry} {j : Job} {h : JobHash}
    (hc : ClaimOf sha1hex now d q q' k e j) (he : e = .job h) : HashOf q q' h k j := by
  obtain ⟨x, hx, hh⟩ := hc.entry
  cases hx.symm.trans he
  refine ⟨⟨_, rfl, hc.waited⟩, ⟨j.claimed now, Place.hash_carries rfl hh, ?_⟩, Or.inl ?_⟩
  · intro a now' ho
    exact ⟨ho.queueId, ho.payload, ho.maxRetries, ho.maxStalls, ho.createdAt⟩
  · rw [hc.active.key, hh]
    rfl

/-- The hash in the entry of a sweep is that of the place which the sweep gave the job. -/
theorem Job.sweepEntry_hash {i : String} {j : Job} {reason : String} {now : ℕ}
    {o : RecoverOutcome} {h : JobHash} (he : j.sweepEntry i reason now = .job o h) :
    (j.sweptTo reason now).hash i = some h ∧
      (j.sweptTo reason now).job = some (j.stalled reason now) ∧
      (¬ (j.stalled reason now).MayStall → h.status = some .failed) := by
  unfold sweepEntry at he
  unfold sweptTo
  by_cases hm : (j.stalled reason now).MayStall
  · rw [if_pos hm] at he ⊢
    cases he
    exact ⟨rfl, rfl, fun hnot => absurd hm hnot⟩
  · rw [if_neg hm] at he ⊢
    cases he
    exact ⟨rfl, rfl, fun _ => rfl⟩

theorem SweepOf.hashOf {reason : String} {q' : Queue} {e : RecoverEntry} {j : Job}
    {o : RecoverOutcome} {h : JobHash} (hs : SweepOf t reason q q' k e j) (he : e = .job o h) :
    HashOf q q' h k j := by
  obtain ⟨token, d, hat, -⟩ := hs.active
  obtain ⟨hh, hj, hfailed⟩ := Job.sweepEntry_hash (hs.entry.symm.trans he)
  refine ⟨⟨_, rfl, hat⟩, ⟨j.stalled reason t.now, Place.hash_carries hj hh, ?_⟩, ?_⟩
  · intro a now' ho
    exact ⟨ho.queueId, ho.payload, ho.maxRetries, ho.maxStalls, ho.createdAt⟩
  · obtain ⟨p', hp', rfl | ⟨rfl, hm⟩⟩ := hs.after
    · left
      rw [hp'.key, hh]
      rfl
    · exact Or.inr ⟨hp'.key, hfailed hm⟩

/-- Each hash in a reply is that of a job of the queue. -/
theorem hashOf_of_mem (sha1hex : String → String) (hq : Sound q) {op : Call × RedisTime}
    (hop : op.1.LeaseIsNumber) {h : JobHash} (hh : h ∈ (exec sha1hex op q).1.hashes) :
    ∃ k j, HashOf q (exec sha1hex op q).2 h k j := by
  obtain ⟨call, t⟩ := op
  cases call with
  | claimGlobalBatch a =>
    obtain ⟨ps, d, -, hreply, -, hps⟩ := exec_claim_sound sha1hex (t := t) hop hq
    rw [hreply] at hh
    obtain ⟨e, he, hx⟩ := List.mem_filterMap.mp hh
    obtain ⟨x, hx', rfl⟩ := List.mem_map.mp he
    obtain ⟨j, hj⟩ := hps x hx'
    rcases hentry : x.2 with h' | i
    · rw [hentry] at hx
      cases hx
      exact ⟨x.1, j, hj.hashOf hentry⟩
    · rw [hentry] at hx
      cases hx
  | recover a =>
    obtain ⟨ps, hreply, -, hps, -⟩ := exec_recover_sound sha1hex (t := t) a hq
    rw [hreply] at hh
    obtain ⟨e, he, hx⟩ := List.mem_filterMap.mp hh
    obtain ⟨x, hx', rfl⟩ := List.mem_map.mp he
    obtain ⟨j, hj⟩ := hps x hx'
    rcases hentry : x.2 with ⟨o, h'⟩ | i
    · rw [hentry] at hx
      cases hx
      exact ⟨x.1, j, hj.hashOf hentry⟩
    · rw [hentry] at hx
      cases hx
  | _ =>
    simp only [exec, Lua.exec, runScript] at hh
    split at hh <;> cases hh

/-! ## The law -/

/-- The record is the job as the client sent it at `now`, and its numeric fields
are the numbers in the hash. -/
structure JobData.IsSent (stringify : α → Option String) (parse : String → Except String δ)
    (jobId queueId : String) (data : α) (options : Option JobOptions) (now : ℕ) (h : JobHash)
    (job : JobData δ) : Prop where
  id : job.id = jobId
  queueId : job.queueId = queueId
  data : ∃ text, stringify data = some text ∧ parse text = .ok job.data
  maxRetries : job.numeric .maxRetries = some ((options.bind JobOptions.retries).getD (.ofNat 0))
  maxStalls : job.numeric .maxStalls = some ((options.bind JobOptions.maxStalls).getD (.ofNat 5))
  createdAt : job.numeric .createdAt = some (.ofNat now)
  numeric : ∀ f, job.numeric f = (h.numeric f).map Numeral.toNumber

/-- A hash that carries a job decodes to it, in whatever order its fields come. -/
theorem JobHash.Carries.decodes {h : JobHash} {j : Job} (hc : h.Carries k j)
    (parse : String → Except String δ) {d : δ} (hd : parse j.payload = .ok d)
    {flat : List JobField} (hp : flat.Perm h.hgetall) :
    ∃ job, deserializeJobHash parse flat = .ok job ∧ job.id = k ∧ job.queueId = j.queueId ∧
      job.data = d ∧ ∀ f, job.numeric f = (h.numeric f).map Numeral.toNumber := by
  obtain ⟨s, hs⟩ := Option.isSome_iff_exists.mp hc.status
  rw [deserializeJobHash_perm parse hp,
    deserializeJobHash_hgetall parse h hc.id hc.queueId hs hc.payload hd]
  exact ⟨_, rfl, rfl, rfl, rfl, fun f => rfl⟩

/-- After an enqueue that was no collision, the job waits. -/
theorem enqueued_at (sha1hex : String → String) {a : EnqueueArgs} (hq : Sound q)
    (h : (exec sha1hex (.enqueue a, t) q).1 = .enqueue (.enqueued a.jobId)) :
    At (exec sha1hex (.enqueue a, t) q).2 a.jobId (.waiting (.enqueued a t.now)) := by
  obtain ⟨hm, -⟩ := exec_moves sha1hex (.enqueue a, t) trivial hq
  obtain ⟨p, hp⟩ := hq a.jobId
  obtain ⟨p', hp', hs⟩ := hm a.jobId p hp
  simp only [h, actsOf, if_true] at hs
  obtain ⟨b, c, -, hbc, hrest⟩ := uncons_act hs
  cases hbc
  rwa [Place.Pending.silent (p := .waiting _) trivial hrest] at hp'

/-- Every claim entry and every sweep entry of a job that a client enqueued, in
any run, has its identity and its payload, in whatever order HGETALL lists the
fields. `JSON.parse` takes what `JSON.stringify` writes. -/
theorem identity_survives_the_life (sha1hex : String → String) (stringify : α → Option String)
    (parse : String → Except String δ)
    (hjson : ∀ x text, stringify x = some text → ∃ d, parse text = .ok d)
    {check : α → Except String Unit} {jobId queueId : String} {data : α}
    {options : Option JobOptions} {args : EnqueueArgs}
    (hsend : QueueClient.enqueue check stringify jobId queueId data options = .ok args)
    (before after : List (Call × RedisTime))
    (hl : LeasesAreNumbers (before ++ (.enqueue args, t) :: after))
    (hnew : (exec sha1hex (.enqueue args, t) (run sha1hex before)).1 = .enqueue (.enqueued jobId))
    (hlast : ∀ e ∈ history jobId (Machine.trace (exec sha1hex)
      (run sha1hex (before ++ [(.enqueue args, t)])) after), e.isEnqueue = false)
    (op : Call × RedisTime) (hop : op.1.LeaseIsNumber) :
    let q := run sha1hex (before ++ (.enqueue args, t) :: after)
    (exec sha1hex op q).1.NoCorrupt ∧
      ∀ h ∈ (exec sha1hex op q).1.hashes, ∃ k, h.id = some k ∧
        ((exec sha1hex op q).2.jobs k = some (.hash h) ∨
          (exec sha1hex op q).2.jobs k = none ∧ h.status = some .failed) ∧
        (k = jobId → ∀ flat, flat.Perm h.hgetall →
          ∃ job, deserializeJobHash parse flat = .ok job ∧
            job.IsSent stringify parse jobId queueId data options t.now h) := by
  obtain ⟨hid, hqueue, htext, hretries, hstalls⟩ := QueueClient.enqueue_ok hsend
  subst hid
  have hq := sound_run sha1hex hl
  refine ⟨exec_noCorrupt sha1hex op hop hq, fun h hh => ?_⟩
  obtain ⟨k, j, ⟨p, hj, hat⟩, ⟨j', hcarries, horigin⟩, hstored⟩ := hashOf_of_mem sha1hex hq hop hh
  refine ⟨k, hcarries.id, hstored, ?_⟩
  rintro rfl flat hflat
  -- from its enqueue on, the job keeps what the client sent
  have hof : j.IsOf args t.now := by
    have hq0 := sound_run sha1hex hl.left
    have hat0 := enqueued_at sha1hex hq0 hnew
    rw [← run_snoc] at hat0
    have hl0 : LeasesAreNumbers (before ++ [(.enqueue args, t)]) := fun x hx =>
      hl x (List.append_cons before _ after ▸ List.mem_append_left after hx)
    have hl1 : LeasesAreNumbers after := fun x hx =>
      hl x (List.mem_append_right _ (List.mem_cons_of_mem _ hx))
    obtain ⟨p', ⟨-, hp'⟩, hs⟩ := finish_refines sha1hex (sound_run sha1hex hl0) hl1 hat0
    rw [← run_append, ← List.append_cons] at hp'
    cases hat.unique hp'
    obtain ⟨j0, hj0, h0⟩ := origin_of_reaches hs hlast hj
    cases hj0
    exact h0 args t.now ⟨rfl, rfl, rfl, rfl, rfl⟩
  have hof' := horigin _ _ hof
  obtain ⟨d, hd⟩ := hjson data args.payload htext
  obtain ⟨job, hdec, h1, h2, h3, hnum⟩ :=
    hcarries.decodes parse (hof'.payload ▸ hd) hflat
  refine ⟨job, hdec, h1, h2.trans (hof'.queueId.trans hqueue), ⟨_, htext, h3 ▸ hd⟩, ?_, ?_, ?_,
    hnum⟩
  · rw [hnum, show h.numeric .maxRetries = _ from hcarries.maxRetries, hof'.maxRetries, hretries]
    simp
  · rw [hnum, show h.numeric .maxStalls = _ from hcarries.maxStalls, hof'.maxStalls, hstalls]
    simp
  · rw [hnum, show h.numeric .createdAt = _ from hcarries.createdAt, hof'.createdAt]
    rfl

/-- JSON for the sample: a value is its text. -/
def sampleStringify (s : String) : Option String := some s

/-- The sample job stalls, and the sweep shows what its client sent, with the
fields in any order. -/
theorem sample_job_survives_its_stall :
    ∃ h job, (exec id (.recover sampleRecover, ⟨100, 0⟩) (run id sampleOps)).1.hashes = [h] ∧
      deserializeJobHash sampleParse h.hgetall.reverse = .ok job ∧
      job.IsSent sampleStringify sampleParse "j" "mail" "{}"
        (some ⟨some (.ofNat 1), some (.ofNat 1)⟩)
        1000 h := by
  have hsend : QueueClient.enqueue (fun _ => .ok ()) sampleStringify "j" "mail" "{}"
      (some ⟨some (.ofNat 1), some (.ofNat 1)⟩) = .ok sampleJob := rfl
  obtain ⟨-, hall⟩ := identity_survives_the_life id sampleStringify sampleParse
    (fun _ text _ => ⟨text, rfl⟩) hsend [] [(.claimGlobalBatch ⟨.ofNat 30000, 1⟩, ⟨2, 0⟩)]
    (t := ⟨1, 0⟩) (by decide) (by decide +kernel) (by decide +kernel)
    (.recover sampleRecover, ⟨100, 0⟩) trivial
  have hids : (exec id (.recover sampleRecover, ⟨100, 0⟩) (run id sampleOps)).1.hashes.map
      JobHash.id = [some "j"] := by decide +kernel
  obtain ⟨h, hh, hid⟩ := List.map_eq_singleton_iff.mp hids
  have hmem : h ∈ (exec id (.recover sampleRecover, ⟨100, 0⟩) (run id sampleOps)).1.hashes := by
    rw [hh]
    exact List.mem_singleton_self h
  obtain ⟨k, hk, -, hdec⟩ := hall h hmem
  obtain ⟨job, hjob, hsent⟩ := hdec (Option.some.inj (hk.symm.trans hid)) _ (List.reverse_perm _)
  exact ⟨h, job, hh, hjob, hsent⟩

end Panqueue
