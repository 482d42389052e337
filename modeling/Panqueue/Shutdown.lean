-- Force shutdown: one runner with its script calls, their replies on the way,
-- and the handover of its jobs, among the calls of all other workers.
import Panqueue.Delivery
import Panqueue.Fencing
import Panqueue.Handshake
import Panqueue.Permits

namespace Panqueue

variable {δ : Type}

/-! ## Claims of a runner -/

/-- The claim that an entry tells of: the job id and the lock token. -/
def ClaimEntry.claim : ClaimEntry → Option (String × String)
  | .corrupt _ => none
  | .job h => h.id.bind fun i => h.lockToken.map fun token => (i, token)

/-- The claims that a reply issues. -/
def Reply.claims : Reply → List (String × String)
  | .claimGlobalBatch es => es.filterMap ClaimEntry.claim
  | _ => []

/-- The claim that a job in a handler runs under. -/
def JobData.claim (job : JobData δ) : String × String := (job.id, job.lockToken.getD "")

/-! ## The system -/

/-- Who sends a call: the runner for its claim loop, for the acknowledgement of
an in-flight job, for the renewal of a lease or for the handover of its `k`-th
job, or anyone else. The sweeps of the runner itself count as those of others. -/
inductive Sender
  | claim
  | acknowledgement (serial : ℕ)
  | renewal
  | requeue (k : ℕ)
  | other

/-- A call with its sender, its reading of TIME and its reply. -/
abbrev Sent := Sender × ((Call × RedisTime) × Reply)

/-- One runner on a queue. `reply` is the reply of its claim call and `acked`
holds the replies of its acknowledgement calls, each on its way to the runner or
delivered. `claims` are all claims that its claim calls issued, and `requeue` is
what `forceRequeueInflight` has of its calls. -/
structure Shutdown (δ : Type) where
  queue : Queue := {}
  runner : Runner δ
  reply : Option Reply := none
  claims : List (String × String) := []
  acked : List (ℕ × Reply) := []
  requeue : Option (List (InFlightEntry δ × Option Reply)) := none

/-- The `k`-th call got its reply. -/
def answer (calls : List (InFlightEntry δ × Option Reply)) (k : ℕ) (reply : Reply) :
    List (InFlightEntry δ × Option Reply) := calls.modify k fun x => (x.1, some reply)

/-- What `forceRequeueInflight` returns. -/
structure ForceRequeueResult where
  unfinishedJobs : ℕ
  requeued : ℕ
  deriving DecidableEq

/-- The loop of `forceRequeueInflight` over its results. -/
def forceRequeueResult (calls : List (InFlightEntry δ × Option Reply)) : ForceRequeueResult where
  unfinishedJobs := calls.length
  requeued := calls.countP fun x => x.2 = some (.requeueActive .waiting)

variable (sha1hex : String → String) (parse : String → Except String δ) (reason : String)

namespace Shutdown

/-- The calls that a sender can make. Others never present a token of this
runner, which only its own claim replies carry. -/
def Sends (s : Shutdown δ) : Sender → Call → Prop
  | .claim, call => s.reply = none ∧
      ∃ n, s.runner.loop = .claiming n ∧ call = .claimGlobalBatch ⟨s.runner.leaseMs, n⟩
  | .acknowledgement serial, call => serial ∉ s.acked.map Prod.fst ∧
      ∃ e ∈ s.runner.inFlight, e.serial = serial ∧ s.runner.acknowledgement e = some call
  | .renewal, call => ∃ a, call = .extendLock a ∧ (a.jobId, a.lockToken) ∈ s.claims
  | .requeue k, call => ∃ calls e, s.requeue = some calls ∧ calls[k]? = some (e, none) ∧
      call = .requeueActive ⟨e.jobId, e.lockToken, reason⟩
  | .other, call => ∀ c, call.presents = some c → c ∉ s.claims

/-- What a reply leaves on the side of the runner, before it is delivered. -/
def replied (s : Shutdown δ) : Sender → Reply → Shutdown δ
  | .claim, reply => { s with reply := some reply, claims := s.claims ++ reply.claims }
  | .acknowledgement serial, reply => { s with acked := s.acked ++ [(serial, reply)] }
  | .requeue k, reply => { s with requeue := s.requeue.map fun calls => answer calls k reply }
  | .renewal, _ => s
  | .other, _ => s

end Shutdown

/-- One step: a script that Redis runs for a sender, the delivery of a claim
reply or of the reply of an acknowledgement, the promise of a job that rejects
after that reply, an own step of the runner, or the start of
`forceRequeueInflight`. It is called after `stopClaiming`, which waits for the
end of the claim loop. A call of the runner that is refused, and a promise that
rejects before its acknowledgement, have no step. -/
inductive ShutdownStep : Shutdown δ → List Sent → Shutdown δ → Prop
  | script (s : Shutdown δ) (sender : Sender) (op : Call × RedisTime)
      (hs : s.Sends reason sender op.1) :
      ShutdownStep s [(sender, op, (exec sha1hex op s.queue).1)]
        { s.replied sender (exec sha1hex op s.queue).1 with
          queue := (exec sha1hex op s.queue).2 }
  | claimReply (s : Shutdown δ) (reply : Reply) (hr : s.reply = some reply) :
      ShutdownStep s []
        { s with runner := s.runner.step (.claimReply (reply.claimed parse)), reply := none }
  | acknowledged (s : Shutdown δ) (e : InFlightEntry δ) (reply : Reply)
      (hx : s.runner.Admits (.acknowledged e reply.ack)) (hr : (e.serial, reply) ∈ s.acked) :
      ShutdownStep s [] { s with runner := s.runner.step (.acknowledged e reply.ack) }
  | rejected (s : Shutdown δ) (e : InFlightEntry δ) (hx : s.runner.Admits (.rejected e))
      (hr : e.serial ∈ s.acked.map Prod.fst) :
      ShutdownStep s [] { s with runner := s.runner.step (.rejected e) }
  | runner (s : Shutdown δ) (x : RunnerInput δ) (hx : x.Own) :
      ShutdownStep s [] { s with runner := s.runner.step x }
  | forceRequeue (s : Shutdown δ) (hl : s.runner.loop = .exited) (hr : s.requeue = none) :
      ShutdownStep s [] { s with requeue := some (s.runner.inFlight.map fun e => (e, none)) }

/-! ## What one call leaves -/

variable {sha1hex}

/-- A claim that holds after a call held before it, and the call was not an
acknowledgement or a handover of it. -/
theorem lockToken_stays (hsha : Function.Injective sha1hex) {ops : List (Call × RedisTime)}
    {op : Call × RedisTime} (hl : LeasesAreNumbers (ops ++ [op]))
    (hids : IdsNotReused (trace sha1hex (ops ++ [op]))) {i token : String}
    (ht : token ∈ (fenceOf sha1hex ops i).issued)
    (h : (run sha1hex (ops ++ [op])).lockToken i = some token) :
    (run sha1hex ops).lockToken i = some token ∧
      (op.1.presents = some (i, token) → ∃ a, op.1 = .extendLock a) := by
  have hl0 := hl.left
  have hop : op.1.LeaseIsNumber := hl op (by simp)
  constructor
  · rw [lockToken_run hl0]
    rw [lockToken_run hl] at h
    exact live_of_issued hsha hl hids ht h
  · intro hp
    by_contra hne
    obtain ⟨p, hat⟩ := sound_run sha1hex hl0 i
    obtain ⟨p', hat', hs⟩ := exec_refines sha1hex hl0 hop hat
    have hdead := presented_token_is_dead sha1hex hop hp (fun a ha => hne ⟨a, ha⟩) hat hat' hs
    rw [run_snoc, hat'.lockToken] at h
    exact hdead h

/-- The claims of a reply are issued by the acts of the call. -/
theorem claims_issued {a : ClaimGlobalBatchArgs} {t : RedisTime} {reply : Reply}
    {c : String × String} (hc : c ∈ reply.claims) :
    c.2 ∈ (actsOf c.1 ((.claimGlobalBatch a, t), reply)).filterMap Act.issues := by
  cases reply with
  | claimGlobalBatch es =>
    obtain ⟨e, he, hce⟩ := List.mem_filterMap.mp hc
    refine List.mem_filterMap.mpr ⟨.claim c.2 t.now (a.leaseMs.plus t.now), ?_, rfl⟩
    refine List.mem_flatMap.mpr ⟨e, he, ?_⟩
    cases e with
    | corrupt i => cases hce
    | job x =>
      rcases hi : x.id with _ | i
      · simp [ClaimEntry.claim, hi] at hce
      · rcases ht : x.lockToken with _ | token
        · simp [ClaimEntry.claim, hi, ht] at hce
        · simp only [ClaimEntry.claim, hi, ht, Option.bind_some, Option.map_some,
            Option.some.injEq] at hce
          subst hce
          simp [ClaimEntry.acts, hi, ht]
  | _ => cases hc

/-- A claim call issues no token that was issued before. -/
theorem claims_new (hsha : Function.Injective sha1hex) {ops : List (Call × RedisTime)}
    {a : ClaimGlobalBatchArgs} {t : RedisTime}
    (hl : LeasesAreNumbers (ops ++ [(.claimGlobalBatch a, t)]))
    (hids : IdsNotReused (trace sha1hex (ops ++ [(.claimGlobalBatch a, t)])))
    {c : String × String}
    (hc : c ∈ (exec sha1hex (.claimGlobalBatch a, t) (run sha1hex ops)).1.claims) :
    c.2 ∉ (fenceOf sha1hex ops c.1).issued := by
  intro hm
  obtain ⟨runs, hf⟩ := fenceOf_fenced hsha hl hids c.1
  have hn := hf.nodup
  rw [fenceOf_snoc, Fence.issued_foldl] at hn
  exact (List.nodup_append.mp hn).2.2 _ hm _ (claims_issued hc) rfl

/-- The jobs of a batch that decodes run under the claims of the reply. -/
theorem healthy_claims {parse : String → Except String δ} {entries : List ClaimEntry}
    (h : ∀ e ∈ entries, ∃ job, decodeClaimEntry parse e = .job job ∧ e.claim = some job.claim) :
    ((entries.map (decodeClaimEntry parse)).filterMap ClaimResult.healthy).map JobData.claim =
      Reply.claims (.claimGlobalBatch entries) := by
  induction entries with
  | nil => rfl
  | cons e entries ih =>
    obtain ⟨job, hd, hc⟩ := h e List.mem_cons_self
    have ih' := ih fun e' he' => h e' (List.mem_cons_of_mem _ he')
    simp only [Reply.claims] at ih' ⊢
    rw [List.map_cons, hd, List.filterMap_cons, ClaimResult.healthy, List.map_cons, ih',
      List.filterMap_cons_some hc]

/-- An acknowledgement presents the claim of its job. -/
theorem acknowledgement_presents {r : Runner δ} {e : InFlightEntry δ} {call : Call}
    (h : r.acknowledgement e = some call) :
    call.presents = some e.job.claim ∧ ∀ a, call ≠ .extendLock a := by
  unfold Runner.acknowledgement at h
  split at h
  · cases h
  · cases h
    exact ⟨rfl, fun _ ha => by cases ha⟩
  · cases h
    exact ⟨rfl, fun _ ha => by cases ha⟩

/-! ## The calls of the handover -/

variable {calls : List (InFlightEntry δ × Option Reply)} {k : ℕ} {e : InFlightEntry δ}
  {reply : Reply}

theorem mem_answer {x : InFlightEntry δ × Option Reply} (hx : x ∈ answer calls k reply) :
    ∃ y ∈ calls, x.1 = y.1 := by
  obtain ⟨j, hj⟩ := List.mem_iff_getElem?.mp hx
  rw [answer, List.getElem?_modify] at hj
  obtain ⟨y, hy, rfl⟩ := Option.map_eq_some_iff.mp hj
  refine ⟨y, List.mem_iff_getElem?.mpr ⟨j, hy⟩, ?_⟩
  split <;> rfl

/-- The other calls wait on. -/
theorem mem_answer_of_ne (hk : calls[k]? = some (e, none)) {e' : InFlightEntry δ}
    (he : (e', none) ∈ calls) (hne : e' ≠ e) : (e', none) ∈ answer calls k reply := by
  obtain ⟨j, hj⟩ := List.mem_iff_getElem?.mp he
  have hkj : k ≠ j := by
    rintro rfl
    rw [hk] at hj
    cases hj
    exact hne rfl
  refine List.mem_iff_getElem?.mpr ⟨j, ?_⟩
  rw [answer, List.getElem?_modify_ne _ _ hkj]
  exact hj

theorem requeued_answer (reply : Reply) (hk : calls[k]? = some (e, none)) :
    (forceRequeueResult (answer calls k reply)).requeued =
      (forceRequeueResult calls).requeued +
        if reply = .requeueActive .waiting then 1 else 0 := by
  obtain ⟨hlt, hget⟩ := List.getElem?_eq_some_iff.mp hk
  have hset : answer calls k reply = calls.set k (e, some reply) := by
    rw [answer, List.modify_eq_set_getElem?, hk]
    rfl
  simp only [forceRequeueResult, hset, List.countP_set hlt, hget]
  simp

/-! ## The invariant -/

variable (sha1hex)

namespace Shutdown

/-- The claim is on its way to the runner, or its job is in flight with no
acknowledgement run; and once the handover has begun, its call is still to come. -/
def Tracks (s : Shutdown δ) (c : String × String) : Prop :=
  match s.requeue with
  | none => (∃ reply, s.reply = some reply ∧ c ∈ reply.claims) ∨
      ∃ x ∈ s.runner.entries, x.1.claim = c ∧ x.2 ∉ s.acked.map Prod.fst
  | some calls => ∃ e, (e, none) ∈ calls ∧ e.job.claim = c

/-- The books of the runner: its claims were issued, and each claim that holds is tracked. -/
structure Accounted (ops : List (Call × RedisTime)) (s : Shutdown δ) : Prop where
  queue : s.queue = run sha1hex ops
  runner : s.runner.Reachable
  issued : ∀ c ∈ s.claims, c.2 ∈ (fenceOf sha1hex ops c.1).issued
  reply : ∀ reply, s.reply = some reply → (∀ c ∈ reply.claims, c ∈ s.claims) ∧
    ∃ n entries, s.runner.loop = .claiming n ∧ reply = .claimGlobalBatch entries ∧
      entries.length ≤ n ∧ ∀ e ∈ entries, ∃ job, decodeClaimEntry parse e = .job job ∧
        e.claim = some job.claim
  entries : ∀ x ∈ s.runner.entries, x.1.claim ∈ s.claims
  acked : ∀ x ∈ s.acked, x.1 < s.runner.invoked.length
  calls : ∀ calls, s.requeue = some calls → s.runner.loop = .exited ∧
    ∀ x ∈ calls, x.1.job.claim ∈ s.claims
  tracked : ∀ c ∈ s.claims, s.queue.lockToken c.1 = some c.2 → s.Tracks c

variable {sha1hex parse reason} {s s' : Shutdown δ} {ops : List (Call × RedisTime)}
  {op : Call × RedisTime}

theorem Accounted.sound (h : Accounted sha1hex parse ops s) (hl : LeasesAreNumbers ops) :
    Sound s.queue := by
  rw [h.queue]
  exact sound_run sha1hex hl

/-- The handover has not begun while the loop claims. -/
theorem Accounted.not_requeueing (h : Accounted sha1hex parse ops s) {n : ℕ}
    (hl : s.runner.loop = .claiming n) : s.requeue = none := by
  rcases hr : s.requeue with _ | calls
  · rfl
  · obtain ⟨hex, -⟩ := h.calls calls hr
    rw [hl] at hex
    cases hex

/-- A call that issues no claim of the runner keeps the books when it loses track
only of the claim that it presents. -/
theorem Accounted.frame (h : Accounted sha1hex parse ops s) (hsha : Function.Injective sha1hex)
    (hl : LeasesAreNumbers (ops ++ [op])) (hids : IdsNotReused (trace sha1hex (ops ++ [op])))
    (hq : s'.queue = (exec sha1hex op s.queue).2) (hrun : s'.runner = s.runner)
    (hrep : s'.reply = s.reply) (hc : s'.claims = s.claims)
    (hack : ∀ x ∈ s'.acked, x.1 < s.runner.invoked.length)
    (hcalls : ∀ calls, s'.requeue = some calls → s.runner.loop = .exited ∧
      ∀ x ∈ calls, x.1.job.claim ∈ s.claims)
    (htr : ∀ c ∈ s.claims, s.Tracks c → (op.1.presents = some c → ∃ a, op.1 = .extendLock a) →
      s'.Tracks c) :
    Accounted sha1hex parse (ops ++ [op]) s' := by
  have hq' : s'.queue = run sha1hex (ops ++ [op]) := by rw [hq, h.queue, run_snoc]
  refine ⟨hq', ?_, ?_, ?_, ?_, ?_, ?_, ?_⟩
  · rw [hrun]
    exact h.runner
  · intro c hm
    rw [hc] at hm
    rw [fenceOf_snoc, Fence.issued_foldl]
    exact List.mem_append_left _ (h.issued c hm)
  · rw [hrep, hrun, hc]
    exact h.reply
  · rw [hrun, hc]
    exact h.entries
  · rw [hrun]
    exact hack
  · rw [hrun, hc]
    exact hcalls
  · intro c hm hlive
    rw [hc] at hm
    rw [hq'] at hlive
    obtain ⟨hbefore, hp⟩ := lockToken_stays hsha hl hids (h.issued c hm) hlive
    rw [← h.queue] at hbefore
    exact htr c hm (h.tracked c hm hbefore) hp

theorem Accounted.acknowledgement (h : Accounted sha1hex parse ops s)
    (hsha : Function.Injective sha1hex) (hl : LeasesAreNumbers (ops ++ [op]))
    (hids : IdsNotReused (trace sha1hex (ops ++ [op]))) {serial : ℕ}
    (hs : s.Sends reason (.acknowledgement serial) op.1) (reply : Reply) :
    Accounted sha1hex parse (ops ++ [op])
      { s.replied (.acknowledgement serial) reply with queue := (exec sha1hex op s.queue).2 } := by
  obtain ⟨-, e, he, rfl, hcall⟩ := hs
  obtain ⟨hp, hne⟩ := acknowledgement_presents hcall
  obtain ⟨N, -, hn, -⟩ := h.runner.books
  refine h.frame hsha hl hids rfl rfl rfl rfl ?_ h.calls ?_
  · intro x hx
    rcases List.mem_append.mp hx with hx | hx
    · exact h.acked x hx
    · rw [List.mem_singleton.mp hx]
      exact hn.serial_lt (Runner.mem_entries he)
  · intro c _ htr hpc
    rcases hr : s.requeue with _ | calls
    · simp only [Tracks, hr, replied] at htr ⊢
      rcases htr with hrep | ⟨x, hx, rfl, hxa⟩
      · exact Or.inl hrep
      · refine Or.inr ⟨x, hx, rfl, ?_⟩
        rw [List.map_append]
        intro hmem
        rcases List.mem_append.mp hmem with hmem | hmem
        · exact hxa hmem
        · -- the job of this acknowledgement
          have hxe := hn.entries_inj hx (Runner.mem_entries he) (List.mem_singleton.mp hmem)
          rw [hxe] at hpc
          obtain ⟨a, ha⟩ := hpc hp
          exact hne a ha
    · simpa only [Tracks, hr, replied] using htr

theorem Accounted.requeue (h : Accounted sha1hex parse ops s) (hsha : Function.Injective sha1hex)
    (hl : LeasesAreNumbers (ops ++ [op])) (hids : IdsNotReused (trace sha1hex (ops ++ [op])))
    {k : ℕ} (hs : s.Sends reason (.requeue k) op.1) (reply : Reply) :
    Accounted sha1hex parse (ops ++ [op])
      { s.replied (.requeue k) reply with queue := (exec sha1hex op s.queue).2 } := by
  obtain ⟨calls, e, hc, hk, hcall⟩ := hs
  obtain ⟨hex, hclaims⟩ := h.calls calls hc
  refine h.frame hsha hl hids rfl rfl rfl rfl h.acked ?_ ?_
  · intro calls' hc'
    simp only [replied, hc, Option.map_some, Option.some.injEq] at hc'
    subst hc'
    refine ⟨hex, fun x hx => ?_⟩
    obtain ⟨y, hy, hxy⟩ := mem_answer hx
    rw [hxy]
    exact hclaims y hy
  · intro c _ htr hpc
    simp only [Tracks, hc, replied, Option.map_some] at htr ⊢
    obtain ⟨e', he', rfl⟩ := htr
    refine ⟨e', mem_answer_of_ne hk he' ?_, rfl⟩
    rintro rfl
    rw [hcall] at hpc
    obtain ⟨a, ha⟩ := hpc rfl
    cases ha

theorem Accounted.claim (h : Accounted sha1hex parse ops s) (hsha : Function.Injective sha1hex)
    (hl : LeasesAreNumbers (ops ++ [op])) (hids : IdsNotReused (trace sha1hex (ops ++ [op])))
    (hp : PayloadsParse parse ops) (hs : s.Sends reason .claim op.1) :
    Accounted sha1hex parse (ops ++ [op])
      { s.replied .claim (exec sha1hex op s.queue).1 with
        queue := (exec sha1hex op s.queue).2 } := by
  obtain ⟨hnone, n, hloop, hcall⟩ := hs
  obtain ⟨call, t⟩ := op
  cases hcall
  have hl0 := hl.left
  have hop : (Call.claimGlobalBatch ⟨s.runner.leaseMs, n⟩).LeaseIsNumber := hl (_, t) (by simp)
  have hq' : (exec sha1hex (.claimGlobalBatch ⟨s.runner.leaseMs, n⟩, t) s.queue).2 =
      run sha1hex (ops ++ [(.claimGlobalBatch ⟨s.runner.leaseMs, n⟩, t)]) := by
    rw [h.queue, run_snoc]
  have hrn := h.not_requeueing hloop
  obtain ⟨entries, -, hrep, -⟩ :=
    (exec_moves sha1hex (.claimGlobalBatch ⟨s.runner.leaseMs, n⟩, t) hop (h.sound hl0)).2
  have hx : exec sha1hex (.claimGlobalBatch ⟨s.runner.leaseMs, n⟩, t) s.queue =
      (.claimGlobalBatch entries, (exec sha1hex (.claimGlobalBatch ⟨s.runner.leaseMs, n⟩, t)
        s.queue).2) := Prod.ext hrep rfl
  have hnew : ∀ c ∈ Reply.claims (.claimGlobalBatch entries),
      c.2 ∈ (actsOf c.1 ((.claimGlobalBatch ⟨s.runner.leaseMs, n⟩, t),
        .claimGlobalBatch entries)).filterMap Act.issues := fun c hc => claims_issued hc
  rw [hrep]
  refine ⟨hq', h.runner, ?_, ?_, ?_, h.acked, ?_, ?_⟩
  · intro c hc
    rw [fenceOf_snoc, Fence.issued_foldl, ← h.queue, hrep]
    rcases List.mem_append.mp hc with hc | hc
    · exact List.mem_append_left _ (h.issued c hc)
    · exact List.mem_append_right _ (hnew c hc)
  · intro reply hr
    cases hr
    refine ⟨fun c hc => List.mem_append_right _ hc, n, entries, hloop, rfl,
      claim_reply_length sha1hex hx, fun e he => ?_⟩
    rw [h.queue] at hx
    obtain ⟨i, token, x, job, rfl, hi, ht, hdec, hji, hjt⟩ :=
      claim_entries_decode sha1hex hl0 hp hop hx e he
    refine ⟨job, hdec, ?_⟩
    simp [ClaimEntry.claim, JobData.claim, hi, ht, hji, hjt]
  · intro x hx
    exact List.mem_append_left _ (h.entries x hx)
  · intro calls hc
    rw [show s.requeue = some calls from hc] at hrn
    cases hrn
  · intro c hc hlive
    simp only [Tracks, hrn, replied]
    rcases List.mem_append.mp hc with hc | hc
    · right
      simp only at hlive
      rw [hq'] at hlive
      obtain ⟨hbefore, -⟩ := lockToken_stays hsha hl hids (h.issued c hc) hlive
      rw [← h.queue] at hbefore
      have htr := h.tracked c hc hbefore
      simpa [Tracks, hrn, hnone] using htr
    · exact Or.inl ⟨_, rfl, hc⟩

/-- The runner takes in the jobs of its claim reply. -/
theorem Accounted.claimReply (h : Accounted sha1hex parse ops s) {reply : Reply}
    (hr : s.reply = some reply) :
    Accounted sha1hex parse ops
      { s with runner := s.runner.step (.claimReply (reply.claimed parse)), reply := none } := by
  obtain ⟨hsub, n, entries, hloop, rfl, hlen, hdec⟩ := h.reply reply hr
  obtain ⟨N, -, hn, -⟩ := h.runner.books
  have hadm : s.runner.Admits (.claimReply (Reply.claimed parse (.claimGlobalBatch entries))) := by
    refine ⟨n, hloop, fun jobs hj => ?_⟩
    cases hj
    simpa using hlen
  have hrn := h.not_requeueing hloop
  -- the entries after the reply: those of before and the jobs of the batch
  let jobs := (entries.map (decodeClaimEntry parse)).filterMap ClaimResult.healthy
  have hent :
      (s.runner.step (.claimReply (Reply.claimed parse (.claimGlobalBatch entries)))).entries
      = s.runner.entries ++ jobs.zipIdx s.runner.invoked.length := by
    simp only [Runner.step, hloop, Reply.claimed]
    exact Runner.onClaimReply_entries n _
  have hjobs : jobs.map JobData.claim = Reply.claims (.claimGlobalBatch entries) :=
    healthy_claims hdec
  refine ⟨h.queue, h.runner.step hadm, h.issued, ?_, ?_, ?_, ?_, ?_⟩
  · intro reply' hr'
    cases hr'
  · intro x hx
    simp only at hx
    rw [hent] at hx
    rcases List.mem_append.mp hx with hx | hx
    · exact h.entries x hx
    · apply hsub
      rw [← hjobs]
      exact List.mem_map_of_mem (List.fst_mem_of_mem_zipIdx hx)
  · intro x hx
    have hlt := h.acked x hx
    rw [(hn.step hadm).2.1, List.length_append]
    omega
  · intro calls hc
    rw [show s.requeue = some calls from hc] at hrn
    cases hrn
  · intro c hc hlive
    have htr := h.tracked c hc hlive
    simp only [Tracks, hrn] at htr ⊢
    rw [hent]
    right
    rcases htr with ⟨reply, hr', hcr⟩ | ⟨x, hx, rfl, hxa⟩
    · rw [hr] at hr'
      cases hr'
      rw [← hjobs] at hcr
      obtain ⟨job, hj, rfl⟩ := List.mem_map.mp hcr
      rw [← List.zipIdx_map_fst s.runner.invoked.length jobs] at hj
      obtain ⟨x, hx, rfl⟩ := List.mem_map.mp hj
      refine ⟨x, List.mem_append_right _ hx, rfl, fun hxa => ?_⟩
      -- the serial number is new
      obtain ⟨y, hy, hyx⟩ := List.mem_map.mp hxa
      have hlt := h.acked y hy
      have hle := List.le_snd_of_mem_zipIdx hx
      omega
    · exact ⟨x, List.mem_append_left _ hx, rfl, hxa⟩

/-- Any other step of the runner keeps the jobs whose acknowledgement has not run. -/
theorem Accounted.runnerStep (h : Accounted sha1hex parse ops s) {x : RunnerInput δ}
    (hx : s.runner.Admits x) (hno : ∀ reply, x ≠ .claimReply reply)
    (hsub : ∀ y ∈ (s.runner.step x).entries, y ∈ s.runner.entries)
    (hkeep : ∀ y ∈ s.runner.entries, y.2 ∉ s.acked.map Prod.fst → y ∈ (s.runner.step x).entries) :
    Accounted sha1hex parse ops { s with runner := s.runner.step x } := by
  obtain ⟨N, hb, hn, hf⟩ := h.runner.books
  have ha := Runner.attentive_step hb hf hno
  refine ⟨h.queue, h.runner.step hx, h.issued, ?_, fun y hy => h.entries y (hsub y hy), ?_, ?_, ?_⟩
  · intro reply hr
    obtain ⟨hsub, n, entries, hloop, hrest⟩ := h.reply reply hr
    exact ⟨hsub, n, entries, ha.stays hloop trivial, hrest⟩
  · intro y hy
    have hlt := h.acked y hy
    rw [(hn.step hx).2.1, List.length_append]
    omega
  · intro calls hc
    obtain ⟨hloop, hclaims⟩ := h.calls calls hc
    exact ⟨ha.stays hloop trivial, hclaims⟩
  · intro c hc hlive
    have htr := h.tracked c hc hlive
    rcases hr : s.requeue with _ | calls
    · simp only [Tracks, hr] at htr ⊢
      rcases htr with hrep | ⟨y, hy, hyc, hya⟩
      · exact Or.inl hrep
      · exact Or.inr ⟨y, hkeep y hy hya, hyc, hya⟩
    · simpa only [Tracks, hr] using htr

/-- After the end of the loop no reply is on its way, so the jobs in flight are all. -/
theorem Accounted.forceRequeue (h : Accounted sha1hex parse ops s)
    (hl : s.runner.loop = .exited) (hr : s.requeue = none) :
    Accounted sha1hex parse ops
      { s with requeue := some (s.runner.inFlight.map fun e => (e, none)) } := by
  refine ⟨h.queue, h.runner, h.issued, h.reply, h.entries, h.acked, ?_, ?_⟩
  · intro calls hc
    cases hc
    refine ⟨hl, fun x hx => ?_⟩
    obtain ⟨e, he, rfl⟩ := List.mem_map.mp hx
    exact h.entries _ (Runner.mem_entries he)
  · intro c hc hlive
    have htr := h.tracked c hc hlive
    simp only [Tracks, hr] at htr
    rcases htr with ⟨reply, hrep, -⟩ | ⟨x, hx, rfl, -⟩
    · obtain ⟨-, n, entries, hloop, -⟩ := h.reply reply hrep
      rw [hl] at hloop
      cases hloop
    · obtain ⟨e, he, rfl⟩ := List.mem_map.mp hx
      exact ⟨e, List.mem_map_of_mem he, rfl⟩

end Shutdown

/-! ## Whole runs -/

/-- The calls of some events, without their senders. -/
def opsOf (es : List Sent) : List (Call × RedisTime) := es.map fun x => x.2.1

theorem opsOf_snoc (es : List Sent) (sender : Sender) (op : Call × RedisTime) (reply : Reply) :
    opsOf (es ++ [(sender, op, reply)]) = opsOf es ++ [op] := List.map_append

namespace Shutdown

variable {sha1hex parse reason} {s s' : Shutdown δ} {es fs : List Sent}

/-- The step lemma of the books. -/
theorem Accounted.step (h : Accounted sha1hex parse (opsOf es) s)
    (hsha : Function.Injective sha1hex) (hst : ShutdownStep sha1hex parse reason s fs s')
    (hl : LeasesAreNumbers (opsOf (es ++ fs)))
    (hids : IdsNotReused (trace sha1hex (opsOf (es ++ fs))))
    (hp : PayloadsParse parse (opsOf es)) : Accounted sha1hex parse (opsOf (es ++ fs)) s' := by
  cases hst with
  | script sender op hs =>
    rw [opsOf_snoc] at hl hids ⊢
    cases sender with
    | claim => exact h.claim hsha hl hids hp hs
    | acknowledgement serial => exact h.acknowledgement hsha hl hids hs _
    | requeue k => exact h.requeue hsha hl hids hs _
    | renewal => exact h.frame hsha hl hids rfl rfl rfl rfl h.acked h.calls fun _ _ htr _ => htr
    | other => exact h.frame hsha hl hids rfl rfl rfl rfl h.acked h.calls fun _ _ htr _ => htr
  | claimReply reply hr =>
    rw [List.append_nil]
    exact h.claimReply hr
  | acknowledged e reply hx hr =>
    have hent := Runner.acknowledged_entries (r := s.runner) hx.2 reply.ack
    rw [List.append_nil]
    refine h.runnerStep hx (fun _ hf => by cases hf) ?_ ?_
    · intro y hy
      rw [Runner.step, hent] at hy
      exact List.mem_of_mem_filter hy
    · intro y hy hya
      rw [Runner.step, hent]
      refine List.mem_filter.mpr ⟨hy, ?_⟩
      simp only [decide_eq_true_eq]
      intro hserial
      exact hya (hserial ▸ List.mem_map_of_mem hr)
  | rejected e hx hr =>
    have hent := Runner.settle_entries s.runner e
    rw [List.append_nil]
    refine h.runnerStep hx (fun _ hf => by cases hf) ?_ ?_
    · intro y hy
      rw [Runner.step, Runner.rejected, hent] at hy
      exact List.mem_of_mem_filter hy
    · intro y hy hya
      rw [Runner.step, Runner.rejected, hent]
      refine List.mem_filter.mpr ⟨hy, ?_⟩
      simp only [decide_eq_true_eq]
      intro hserial
      exact hya (hserial ▸ hr)
  | runner x hx =>
    have hent := Runner.step_entries s.runner hx
    rw [List.append_nil]
    refine h.runnerStep hx.admits ?_ ?_ ?_
    · rintro reply rfl
      exact hx
    · rw [hent]
      exact fun y hy => hy
    · rw [hent]
      exact fun y hy _ => hy
  | forceRequeue hl' hr =>
    rw [List.append_nil]
    exact h.forceRequeue hl' hr

end Shutdown

end Panqueue
