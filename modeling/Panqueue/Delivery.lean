-- What a claim delivers: each entry of a reply is the hash of a job that is
-- active now, with the payload of its enqueue, and the runner can decode it.
import Panqueue.Runner
import Panqueue.Runs

namespace Panqueue

variable {δ : Type} {i : String} {issue : ℕ → ℕ → String}

/-! ## Where a job comes from -/

/-- The job has the queue, the payload and the budgets of this enqueue. -/
structure Job.IsOf (a : EnqueueArgs) (now : ℕ) (j : Job) : Prop where
  queueId : j.queueId = a.queueId
  payload : j.payload = a.payload
  maxRetries : j.maxRetries = a.maxRetries
  maxStalls : j.maxStalls = a.maxStalls
  createdAt : j.createdAt = now

/-- A step that is no enqueue keeps what the job got at its enqueue. -/
theorem JobStep.origin {p p' : Place} {es : List Act} (h : JobStep issue p es p')
    (hes : ∀ e ∈ es, e.isEnqueue = false) {j' : Job} (hj' : p'.job = some j') :
    ∃ j, p.job = some j ∧ ∀ a now, j.IsOf a now → j'.IsOf a now := by
  cases h with
  | enqueue a now => exact absurd (hes _ (List.mem_singleton_self _)) (by simp [Act.isEnqueue])
  | evict s j now => cases hj'
  | _ =>
    cases hj'
    exact ⟨_, rfl, fun a now ho =>
      ⟨ho.queueId, ho.payload, ho.maxRetries, ho.maxStalls, ho.createdAt⟩⟩

/-- Without an enqueue, a job keeps what it got at its enqueue. -/
theorem origin_of_reaches {p p' : Place} {es : List Act} (h : Reaches (JobStep issue) p es p')
    (hes : ∀ e ∈ es, e.isEnqueue = false) {j' : Job} (hj' : p'.job = some j') :
    ∃ j, p.job = some j ∧ ∀ a now, j.IsOf a now → j'.IsOf a now := by
  induction h generalizing j' with
  | start => exact ⟨j', hj', fun _ _ => id⟩
  | next _ hst ih =>
    obtain ⟨j1, hj1, h1⟩ := hst.origin (fun e he => hes e (List.mem_append_right _ he)) hj'
    obtain ⟨j, hj, h0⟩ := ih (fun e he => hes e (List.mem_append_left _ he)) hj1
    exact ⟨j, hj, fun a now ho => h1 a now (h0 a now ho)⟩

/-- Every job comes from an enqueue of its history, and keeps what it got there. -/
theorem job_is_of_enqueue {es : List Act} {p : Place} (h : Reaches (JobStep issue) .gone es p) :
    ∀ j, p.job = some j → ∃ a now, Act.enqueue a now ∈ es ∧ j.IsOf a now := by
  refine Reaches.invariant
    (P := fun es p => ∀ j, p.job = some j → ∃ a now, Act.enqueue a now ∈ es ∧ j.IsOf a now) ?_ ?_ h
  · intro j hj
    cases hj
  · intro es t fs u ih hst j hj
    by_cases hes : ∀ e ∈ fs, e.isEnqueue = false
    · obtain ⟨j', hj', h'⟩ := hst.origin hes hj
      obtain ⟨a, now, hm, ho⟩ := ih j' hj'
      exact ⟨a, now, List.mem_append_left _ hm, h' a now ho⟩
    · cases hst with
      | enqueue a now =>
        cases hj
        exact ⟨a, now, by simp, rfl, rfl, rfl, rfl, rfl⟩
      | _ => simp [Act.isEnqueue] at hes

/-! ## The entries of a claim reply -/

/-- The entry shows an active job as it stands in the queue. -/
def ClaimEntry.Stands (q : Queue) (e : ClaimEntry) : Prop :=
  ∃ i j token d x, e = .job x ∧ (Place.active j token d).hash i = some x ∧
    At q i (.active j token d)

variable (sha1hex : String → String) {q q' : Queue} {t : RedisTime}

theorem JobStep.claimed {j : Job} {token : String} {now : ℕ} {d : Score} {p : Place}
    (h : JobStep issue (.waiting j) [.claim token now (.val d)] p) :
    p = .active (j.claimed now) token d := by
  cases h
  rfl

/-- A claim of a waiting job makes it active. -/
theorem Moves.claimed {i : String} {j : Job} {now : ℕ} {d : Score}
    (m : Moves sha1hex
      (fun k =>
        if i = k then [.claim (issued sha1hex i now (j.runs + 1)) now (.val d)] else []) q q')
    (h : At q i (.waiting j)) :
    At q' i (.active (j.claimed now) (issued sha1hex i now (j.runs + 1)) d) := by
  obtain ⟨p, hp, hs⟩ := m i _ h
  simp only [if_true] at hs
  obtain ⟨b, hb, hrest⟩ := Place.Pending.uncons (p := .waiting j) trivial hs
  rw [hb.claimed] at hrest
  rwa [Place.Pending.silent (p := .active _ _ _) trivial hrest] at hp

/-- An active job shows no claim next. -/
theorem active_shows_no_claim {j : Job} {token token' : String} {d : Score} {now : ℕ} {d' : Double}
    {es : List Act} {p : Place} :
    ¬ Reaches (JobStep issue) (.active j token d) (.claim token' now d' :: es) p := by
  intro h
  obtain ⟨b, hb, -⟩ := Place.Pending.uncons (p := .active j token d) trivial h
  cases hb

theorem mem_claim_acts {i : String} {leaseMs : Double} {e : ClaimEntry} {act : Act}
    (h : act ∈ e.acts i t leaseMs) :
    ∃ token, act = .claim token t.now (leaseMs.plus t.now) ∧
      ∃ x, e = .job x ∧ x.id = some i ∧ x.lockToken = some token := by
  cases e with
  | corrupt k => simp [ClaimEntry.acts] at h
  | job x =>
    by_cases hi : x.id = some i
    · rcases ht : x.lockToken with _ | token
      · simp [ClaimEntry.acts, hi, ht] at h
      · simp only [ClaimEntry.acts, hi, ht, if_true, Option.map_some, Option.toList_some,
          List.mem_singleton] at h
        exact ⟨token, h, x, rfl, hi, ht⟩
    · simp [ClaimEntry.acts, hi] at h

/-- The rest of a claim loop leaves an active job as it is. -/
theorem At.claims_stay {j : Job} {token : String} {d : Score} {leaseMs : Double}
    {es : List ClaimEntry} (h : At q i (.active j token d))
    (hm : Moves sha1hex (fun i => es.flatMap (·.acts i t leaseMs)) q q') :
    At q' i (.active j token d) := by
  obtain ⟨p, hp, hs⟩ := hm i _ h
  simp only at hs
  rcases hacts : es.flatMap (·.acts i t leaseMs) with _ | ⟨act, acts⟩
  · rw [hacts] at hs
    rwa [Place.Pending.silent (p := .active j token d) trivial hs] at hp
  · have hmem : act ∈ es.flatMap (·.acts i t leaseMs) := by
      rw [hacts]
      exact List.mem_cons_self
    obtain ⟨e, _, hact⟩ := List.mem_flatMap.mp hmem
    obtain ⟨token', rfl, -⟩ := mem_claim_acts hact
    rw [hacts] at hs
    exact absurd hs active_shows_no_claim

theorem claimLoop_stands {leaseMs : Double} {d : Score} (hd : leaseMs.plus t.now = .val d)
    {n : ℕ} {es : List ClaimEntry} (hq : Sound q)
    (h : claimLoop sha1hex t.now (.val d) n q = .ok es q') : ∀ e ∈ es, e.Stands q' := by
  induction n generalizing q es with
  | zero =>
    cases h
    simp
  | succ n ih =>
    rcases hlast : q.waiting.getLast? with _ | i
    · rw [claimLoop_empty hlast] at h
      cases h
      simp
    · obtain ⟨j, hj⟩ := hq.waiting_last hlast
      obtain ⟨q1, q2, x, r1, r2, hx, m⟩ := claimOne_waiting sha1hex t.now d hj hlast
      obtain ⟨fs, q3, r3, -, -, m3⟩ := claimLoop_moves sha1hex hd n (m.sound hq)
      simp only [claimLoop, Lua.claimEach, Script.run_bind, r1, r2, r3, Script.run_pure] at h
      cases h
      have hat := m.claimed sha1hex hj
      intro e he
      rcases List.mem_cons.mp he with rfl | he
      · exact ⟨i, _, _, _, x, rfl, hx, hat.claims_stay sha1hex m3⟩
      · exact ih (m.sound hq) r3 e he

/-- All enqueued payloads are texts that the runner can parse, as `JSON.stringify` writes them. -/
def PayloadsParse (parse : String → Except String δ) (ops : List (Call × RedisTime)) : Prop :=
  ∀ op ∈ ops, ∀ a, op.1 = .enqueue a → ∃ data, parse a.payload = .ok data

/-- An enqueue in a history comes from a call. -/
theorem enqueue_of_history {ops : List (Call × RedisTime)} {a : EnqueueArgs} {now : ℕ}
    (h : Act.enqueue a now ∈ history i (trace sha1hex ops)) :
    ∃ op ∈ ops, op.1 = .enqueue a := by
  obtain ⟨⟨op, r⟩, hmem, hact⟩ := List.mem_flatMap.mp h
  have hof := of_mem_actsOf hact
  exact ⟨op, Machine.mem_of_mem_trace hmem, by rw [hof.1]⟩

/-- Each entry of a claim reply decodes to a job with the id and the token of its hash. -/
theorem claim_entries_decode {parse : String → Except String δ} {ops : List (Call × RedisTime)}
    (hl : LeasesAreNumbers ops) (hp : PayloadsParse parse ops) {a : ClaimGlobalBatchArgs}
    (ha : a.leaseMs ≠ .nan) {es : List ClaimEntry}
    (h : exec sha1hex (.claimGlobalBatch a, t) (run sha1hex ops) = (.claimGlobalBatch es, q')) :
    ∀ e ∈ es, ∃ i token x job, e = .job x ∧ x.id = some i ∧ x.lockToken = some token ∧
      decodeClaimEntry parse e = .job job ∧ job.id = i ∧ job.lockToken = some token := by
  obtain ⟨d, hd⟩ := Call.deadline ha t.now
  have hq' : q' = run sha1hex (ops ++ [(.claimGlobalBatch a, t)]) := by
    rw [run_snoc, h]
  have hl' : LeasesAreNumbers (ops ++ [(.claimGlobalBatch a, t)]) := by
    intro op hop
    rcases List.mem_append.mp hop with hop | hop
    · exact hl op hop
    · rw [List.mem_singleton.mp hop]
      exact ha
  have hstands : ∀ e ∈ es, e.Stands q' := by
    simp only [exec, Lua.exec, runScript] at h
    split at h
    · rename_i es' q1 hrun
      cases h
      simp only [Lua.claimGlobalBatch, Lua.claimBatch, Script.run_bind, Redis.hgetLimit,
        Redis.zcardActive, hd] at hrun
      exact claimLoop_stands sha1hex hd (sound_run sha1hex hl) hrun
    · cases h
  intro e he
  obtain ⟨i, j, token, d', x, rfl, hx, hat⟩ := hstands e he
  rw [hq'] at hat
  obtain ⟨p, hp', hr⟩ := run_refines sha1hex hl' i
  rw [← hat.unique hp'] at hr
  obtain ⟨b, now, hmem, hof⟩ := job_is_of_enqueue hr j rfl
  obtain ⟨op, hop, hcall⟩ := enqueue_of_history sha1hex hmem
  obtain ⟨data, hdata⟩ : ∃ data, parse b.payload = .ok data := by
    rcases List.mem_append.mp hop with hop | hop
    · exact hp op hop b hcall
    · rw [List.mem_singleton.mp hop] at hcall
      cases hcall
  have hpay : x.payload = some b.payload := by
    cases hx
    exact congrArg some hof.payload
  have hid : x.id = some i := by
    cases hx
    rfl
  have htok : x.lockToken = some token := by
    cases hx
    rfl
  obtain ⟨job, hdec, hji, hjt⟩ : ∃ job, deserializeJobHash parse x.hgetall = .ok job ∧
      job.id = i ∧ job.lockToken = some token :=
    ⟨_, deserializeJobHash_hgetall parse x (q := j.queueId) (s := .active) hid
      (by cases hx; rfl) (by cases hx; rfl) hpay hdata, rfl, htok⟩
  refine ⟨i, token, x, job, rfl, hid, htok, ?_, hji, hjt⟩
  simp only [decodeClaimEntry, hdec]

end Panqueue
