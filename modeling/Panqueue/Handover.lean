-- What a force shutdown leaves: each claim of the runner has ended, by the
-- runner itself or by a sweep, and each job that it gave back was pushed once.
import Panqueue.Shutdown

namespace Panqueue

variable {δ : Type} (sha1hex : String → String) (parse : String → Except String δ)
  (reason : String)

/-! ## How the claims end -/

/-- The senders whose calls end a claim of the runner. -/
def Sender.Ends : Sender → Prop
  | .acknowledgement _ => True
  | .requeue _ => True
  | _ => False

/-- The act is one of a sweep, or of an acknowledgement or a handover of the runner. -/
def EndedBy (es : List Sent) (i : String) (act : Act) : Prop :=
  act.OfSweep ∨ ∃ x ∈ es, x.1.Ends ∧ act ∈ actsOf i x.2

namespace Shutdown

variable {sha1hex parse reason} {s s' : Shutdown δ} {es fs : List Sent}

theorem mem_replied_claims {sender : Sender} {reply : Reply} {c : String × String}
    (hc : c ∈ (s.replied sender reply).claims) :
    c ∈ s.claims ∨ sender = .claim ∧ c ∈ reply.claims := by
  cases sender with
  | claim => exact (List.mem_append.mp hc).imp_right fun hc => ⟨rfl, hc⟩
  | _ => exact Or.inl hc

/-- Each claim of the runner that ended was ended by the runner or by a sweep. -/
def EndedRightly (sha1hex : String → String) (es : List Sent) (s : Shutdown δ) : Prop :=
  ∀ c ∈ s.claims, ∀ x ∈ (fenceOf sha1hex (opsOf es) c.1).ended, x.1 = some c.2 →
    EndedBy es c.1 x.2

theorem EndedRightly.call (he : s.EndedRightly sha1hex es)
    (hsha : Function.Injective sha1hex) (h : Accounted sha1hex parse (opsOf es) s)
    {sender : Sender} {op : Call × RedisTime} (hs : s.Sends reason sender op.1)
    (hl : LeasesAreNumbers (opsOf es ++ [op]))
    (hids : IdsNotReused (trace sha1hex (opsOf es ++ [op]))) :
    EndedRightly sha1hex (es ++ [(sender, op, (exec sha1hex op s.queue).1)])
      { s.replied sender (exec sha1hex op s.queue).1 with
        queue := (exec sha1hex op s.queue).2 } := by
  intro c hc x hx hxc
  rw [opsOf_snoc] at hx
  obtain ⟨runs', hf'⟩ := fenceOf_fenced hsha hl hids c.1
  obtain ⟨token, -, htok, hby⟩ := hf'.ended x hx
  obtain rfl : c.2 = token := by
    rw [hxc] at htok
    exact Option.some.inj htok
  rw [fenceOf_snoc] at hx
  rcases Fence.ended_foldl hx with hold | hact
  · -- the claim had ended before
    rcases mem_replied_claims hc with hcs | ⟨rfl, hnew⟩
    · exact (he c hcs x hold hxc).imp_right fun ⟨y, hy, hrest⟩ =>
        ⟨y, List.mem_append_left _ hy, hrest⟩
    · obtain ⟨-, n, -, hcall⟩ := hs
      obtain ⟨call, t⟩ := op
      cases hcall
      obtain ⟨runs, hf⟩ := fenceOf_fenced hsha hl.left hids.left c.1
      obtain ⟨token, hmem, htok', -⟩ := hf.ended x hold
      rw [hxc] at htok'
      cases htok'
      rw [h.queue] at hnew
      exact absurd hmem (claims_new hsha hl hids hnew)
  · -- this call ends it
    rw [← h.queue] at hact
    rcases by_of_mem_actsOf hact hby with hsweep | ⟨hp, hne⟩
    · exact Or.inl hsweep
    · right
      refine ⟨_, List.mem_append_right _ (List.mem_singleton_self _), ?_, hact⟩
      cases sender with
      | claim =>
        obtain ⟨-, n, -, hcall⟩ := hs
        rw [hcall] at hp
        cases hp
      | acknowledgement serial => trivial
      | renewal =>
        obtain ⟨a, ha, -⟩ := hs
        exact absurd ha (hne a)
      | requeue k => trivial
      | other => exact absurd hc (hs _ hp)

theorem EndedRightly.step (he : s.EndedRightly sha1hex es)
    (hsha : Function.Injective sha1hex) (h : Accounted sha1hex parse (opsOf es) s)
    (hst : ShutdownStep sha1hex parse reason s fs s') (hl : LeasesAreNumbers (opsOf (es ++ fs)))
    (hids : IdsNotReused (trace sha1hex (opsOf (es ++ fs)))) :
    s'.EndedRightly sha1hex (es ++ fs) := by
  cases hst with
  | script sender op hs =>
    rw [opsOf_snoc] at hl hids
    exact he.call hsha h hs hl hids
  | _ =>
    rw [List.append_nil]
    exact he

end Shutdown

/-! ## What the handover hands back -/

/-- The job that a handover of the runner gave back. -/
def handedBack : Sent → Option String
  | (.requeue _, (.requeueActive a, _), .requeueActive .waiting) => some a.jobId
  | _ => none

theorem handedBack_none {sender : Sender} {op : Call × RedisTime} {reply : Reply}
    (hr : reply ≠ .requeueActive .waiting) : handedBack (sender, op, reply) = none := by
  unfold handedBack
  split
  · rename_i heq
    cases heq
    exact absurd rfl hr
  · rfl

theorem handedBack_requeue {es : List Sent} {k : ℕ} {a : RequeueActiveArgs} {t : RedisTime}
    {reply : Reply} :
    (es ++ [(Sender.requeue k, (Call.requeueActive a, t), reply)]).filterMap handedBack =
      es.filterMap handedBack ++ if reply = .requeueActive .waiting then [a.jobId] else [] := by
  rw [List.filterMap_append]
  split
  · rename_i hw
    rw [hw]
    rfl
  · rename_i hw
    rw [List.filterMap_cons, handedBack_none hw]
    rfl

variable {sha1hex parse reason}

/-- A handover without the token of the claim that holds is refused. -/
theorem requeueActive_refused {q : Queue} {p : Place} {a : RequeueActiveArgs} (t : RedisTime)
    (h : At q a.jobId p) (hne : p.token ≠ some a.lockToken) :
    (exec sha1hex (.requeueActive a, t) q).1 ≠ .requeueActive .waiting ∧
      (exec sha1hex (.requeueActive a, t) q).2 = q := by
  have hr : (exec sha1hex (.requeueActive a, t) q).1.Refused ∧
      (exec sha1hex (.requeueActive a, t) q).2 = q := exec_refused sha1hex rfl h hne
  refine ⟨fun hw => ?_, hr.2⟩
  rw [hw] at hr
  exact hr.1

namespace Shutdown

variable {s s' : Shutdown δ} {es fs : List Sent}

/-- The handovers that took effect agree with what `forceRequeueInflight` counts,
they are of different jobs, and no claim of the runner is left on these. -/
structure Handed (es : List Sent) (s : Shutdown δ) : Prop where
  before : s.requeue = none → es.filterMap handedBack = []
  count : ∀ calls, s.requeue = some calls →
    (forceRequeueResult calls).requeued = (es.filterMap handedBack).length
  nodup : (es.filterMap handedBack).Nodup
  free : ∀ c ∈ s.claims, c.1 ∈ es.filterMap handedBack → s.queue.lockToken c.1 ≠ some c.2

/-- A handover that took effect presented the token of the claim that held. -/
theorem Accounted.handedBack_holds {ops : List (Call × RedisTime)} {a : RequeueActiveArgs}
    {t : RedisTime} (h : Accounted sha1hex parse ops s) (hl : LeasesAreNumbers ops)
    (hw : (exec sha1hex (.requeueActive a, t) s.queue).1 = .requeueActive .waiting) :
    s.queue.lockToken a.jobId = some a.lockToken := by
  obtain ⟨p, hat⟩ := h.sound hl a.jobId
  rw [hat.lockToken]
  by_contra hne
  exact (requeueActive_refused t hat hne).1 hw

/-- Whatever is called, a claim of the runner does not come back. -/
theorem Handed.free_after (hh : s.Handed es) (h : Accounted sha1hex parse (opsOf es) s)
    (hsha : Function.Injective sha1hex) {op : Call × RedisTime}
    (hl : LeasesAreNumbers (opsOf es ++ [op]))
    (hids : IdsNotReused (trace sha1hex (opsOf es ++ [op])))
    {c : String × String} (hc : c ∈ s.claims) (hm : c.1 ∈ es.filterMap handedBack) :
    (exec sha1hex op s.queue).2.lockToken c.1 ≠ some c.2 := by
  intro hlive
  rw [h.queue, ← run_snoc] at hlive
  have hbefore := (lockToken_stays hsha hl hids (h.issued c hc) hlive).1
  rw [← h.queue] at hbefore
  exact hh.free c hc hm hbefore

theorem Handed.requeue (hh : s.Handed es) (h : Accounted sha1hex parse (opsOf es) s)
    (hsha : Function.Injective sha1hex) {op : Call × RedisTime}
    (hl : LeasesAreNumbers (opsOf es ++ [op]))
    (hids : IdsNotReused (trace sha1hex (opsOf es ++ [op])))
    {k : ℕ} (hs : s.Sends reason (.requeue k) op.1) :
    Handed (es ++ [(.requeue k, op, (exec sha1hex op s.queue).1)])
      { s.replied (.requeue k) (exec sha1hex op s.queue).1 with
        queue := (exec sha1hex op s.queue).2 } := by
  obtain ⟨calls, e, hcalls, hk, hcall⟩ := hs
  obtain ⟨call, t⟩ := op
  cases hcall
  have hclaim : e.job.claim ∈ s.claims := (h.calls calls hcalls).2 _ (List.mem_of_getElem? hk)
  refine ⟨?_, ?_, ?_, ?_⟩
  · intro hn
    simp [replied, hcalls] at hn
  · intro calls' hc'
    simp only [replied, hcalls, Option.map_some, Option.some.injEq] at hc'
    subst hc'
    rw [requeued_answer _ hk, hh.count calls hcalls, handedBack_requeue, List.length_append]
    split <;> rfl
  · rw [handedBack_requeue]
    refine List.nodup_append.mpr ⟨hh.nodup, by split <;> simp, fun a ha b hb hab => ?_⟩
    obtain ⟨hw, hb⟩ := List.mem_ite_nil_right.mp hb
    rw [hab, List.mem_singleton.mp hb] at ha
    exact hh.free e.job.claim hclaim ha (h.handedBack_holds hl.left hw)
  · intro c hc hm
    rw [handedBack_requeue] at hm
    rcases List.mem_append.mp hm with hm | hm
    · exact hh.free_after h hsha hl hids hc hm
    · -- the job of this call: only the presented claim held, and the call ended it
      obtain ⟨hw, hm⟩ := List.mem_ite_nil_right.mp hm
      have hci := List.mem_singleton.mp hm
      intro hlive
      simp only at hlive
      rw [h.queue, ← run_snoc] at hlive
      obtain ⟨hbefore, hp⟩ := lockToken_stays hsha hl hids (h.issued c hc) hlive
      rw [← h.queue, hci, h.handedBack_holds hl.left hw] at hbefore
      obtain ⟨a, ha⟩ := hp (by rw [hci, ← Option.some.inj hbefore]; rfl)
      cases ha

/-- A call that is no handover hands nothing back. -/
theorem Handed.call (hh : s.Handed es) (h : Accounted sha1hex parse (opsOf es) s)
    (hsha : Function.Injective sha1hex) {op : Call × RedisTime}
    (hl : LeasesAreNumbers (opsOf es ++ [op]))
    (hids : IdsNotReused (trace sha1hex (opsOf es ++ [op])))
    {sender : Sender} (hs : s.Sends reason sender op.1) (hne : ∀ k, sender ≠ .requeue k) :
    Handed (es ++ [(sender, op, (exec sha1hex op s.queue).1)])
      { s.replied sender (exec sha1hex op s.queue).1 with
        queue := (exec sha1hex op s.queue).2 } := by
  have hsame : ∀ reply, (es ++ [(sender, op, reply)]).filterMap handedBack =
      es.filterMap handedBack := by
    intro reply
    rw [List.filterMap_append]
    cases sender with
    | requeue k => exact absurd rfl (hne k)
    | _ => exact List.append_nil _
  have hreq : ∀ reply, (s.replied sender reply).requeue = s.requeue := by
    intro reply
    cases sender with
    | requeue k => exact absurd rfl (hne k)
    | _ => rfl
  refine ⟨?_, ?_, ?_, ?_⟩
  · rw [hsame, hreq]
    exact hh.before
  · rw [hsame, hreq]
    exact hh.count
  · rw [hsame]
    exact hh.nodup
  · intro c hc hm
    rw [hsame] at hm
    rcases mem_replied_claims hc with hcs | ⟨rfl, -⟩
    · exact hh.free_after h hsha hl hids hcs hm
    · -- nothing is handed back while the loop claims
      obtain ⟨-, n, hloop, -⟩ := hs
      rw [hh.before (h.not_requeueing hloop)] at hm
      cases hm

/-- The step lemma of the handover. -/
theorem Handed.step (hh : s.Handed es) (h : Accounted sha1hex parse (opsOf es) s)
    (hsha : Function.Injective sha1hex) (hst : ShutdownStep sha1hex parse reason s fs s')
    (hl : LeasesAreNumbers (opsOf (es ++ fs)))
    (hids : IdsNotReused (trace sha1hex (opsOf (es ++ fs)))) :
    s'.Handed (es ++ fs) := by
  cases hst with
  | script sender op hs =>
    rw [opsOf_snoc] at hl hids
    cases sender with
    | requeue k => exact hh.requeue h hsha hl hids hs
    | _ => exact hh.call h hsha hl hids hs fun _ hk => by cases hk
  | forceRequeue hl' hr =>
    rw [List.append_nil]
    refine ⟨(fun hn => by cases hn), ?_, hh.nodup, hh.free⟩
    intro calls hc
    cases hc
    rw [hh.before hr]
    simp [forceRequeueResult, List.countP_map]
  | _ =>
    rw [List.append_nil]
    exact ⟨hh.before, hh.count, hh.nodup, hh.free⟩

/-! ## The run of the scripts -/

/-- The events are the trace of a run, and a handover is a call of `requeueActive`. -/
structure Traced (sha1hex : String → String) (es : List Sent) (s : Shutdown δ) : Prop where
  queue : s.queue = run sha1hex (opsOf es)
  trace : es.map Prod.snd = trace sha1hex (opsOf es)
  requeue : ∀ x ∈ es, ∀ k, x.1 = .requeue k → ∃ a, x.2.1.1 = .requeueActive a

theorem Traced.step (h : s.Traced sha1hex es) (hst : ShutdownStep sha1hex parse reason s fs s') :
    s'.Traced sha1hex (es ++ fs) := by
  cases hst with
  | script sender op hs =>
    have hops := opsOf_snoc es sender op (exec sha1hex op s.queue).1
    refine ⟨?_, ?_, ?_⟩
    · rw [hops, run_snoc, h.queue]
    · rw [hops, trace_snoc, List.map_append, h.trace, h.queue]
      rfl
    · intro x hx k hk
      rcases List.mem_append.mp hx with hx | hx
      · exact h.requeue x hx k hk
      · rw [List.mem_singleton.mp hx] at hk ⊢
        simp only at hk
        subst hk
        obtain ⟨_, e, _, _, hcall⟩ := hs
        exact ⟨_, hcall⟩
  | _ =>
    rw [List.append_nil]
    exact ⟨h.queue, h.trace, h.requeue⟩

/-- Each event shows the reply that its call got after the calls before it. -/
theorem Traced.reply_eq (h : s.Traced sha1hex es) {pre post : List Sent} {sender : Sender}
    {op : Call × RedisTime} {reply : Reply} (hes : es = pre ++ (sender, op, reply) :: post) :
    reply = (exec sha1hex op (run sha1hex (opsOf pre))).1 := by
  have ht := h.trace
  rw [hes, List.map_append, List.map_cons] at ht
  have hr := Machine.reply_of_trace ht.symm
  rwa [List.map_map] at hr

end Shutdown

/-- The job joins the waiting list, and no other does. -/
def Pushes (i : String) (q q' : Queue) : Prop := q'.waiting = i :: q.waiting

/-- A script that pushes may follow one that leaves the waiting list alone. -/
theorem Pushes.after {α β : Type} {i : String} {x : QueueScript α} {f : α → QueueScript β}
    (hx : Script.Does Queue.Readable Loosens x)
    (hf : ∀ a, Script.Does Queue.Readable (Pushes i) (f a)) :
    Script.Does Queue.Readable (Pushes i) (x >>= f) :=
  Script.Does.seq hx hf fun _ _ _ h h' => by rw [Pushes, h', h.waiting]

/-- A handover pushes its job to the waiting list, or it changes nothing. -/
theorem requeueActive_pushes {ops : List (Call × RedisTime)} (hl : LeasesAreNumbers ops)
    (a : RequeueActiveArgs) (t : RedisTime) :
    ((exec sha1hex (.requeueActive a, t) (run sha1hex ops)).1 = .requeueActive .waiting ∧
      Pushes a.jobId (run sha1hex ops) (exec sha1hex (.requeueActive a, t) (run sha1hex ops)).2) ∨
    ((exec sha1hex (.requeueActive a, t) (run sha1hex ops)).1 ≠ .requeueActive .waiting ∧
      (exec sha1hex (.requeueActive a, t) (run sha1hex ops)).2 = run sha1hex ops) := by
  obtain ⟨p, hat⟩ := sound_run sha1hex hl a.jobId
  rcases p.holder_or a.lockToken with ⟨j, d, rfl⟩ | hne
  · left
    obtain ⟨q', hrun, -⟩ := requeueActive_holder sha1hex (t := t) hat
    have hpush : Pushes a.jobId (run sha1hex ops) q' := by
      rw [requeueActive, Lua.requeueActive, hat.holder] at hrun
      apply Script.Does.of_ok hrun (readable_run sha1hex ops)
      apply Pushes.after (zremActive_loosens a.jobId)
      intro _
      refine Pushes.after (Unseen.loosens (Unseen.hset a.jobId fun h hh =>
        ⟨hh.runs, hh.failures, hh.stalls⟩)) fun _ => ?_
      apply Pushes.after (Unseen.hdelLease a.jobId).loosens
      intro _ q hq
      exact ⟨_, _, rfl, hq, rfl⟩
    simp only [exec, Lua.exec, runScript, hrun]
    exact ⟨trivial, hpush⟩
  · right
    exact requeueActive_refused t hat hne

/-! ## Whole runs -/

theorem PayloadsParse.left {ops ops' : List (Call × RedisTime)}
    (h : PayloadsParse parse (ops ++ ops')) : PayloadsParse parse ops :=
  fun op hop => h op (List.mem_append_left _ hop)

/-- The run lemma: a runner keeps its books, whatever happens around it. -/
theorem shutdown_keeps_books (hsha : Function.Injective sha1hex)
    {options : WorkerDefinitionOptions} {retention : QueueRetention} {r₀ : Runner δ}
    (hnew : Runner.new options retention = .ok r₀) {es : List Sent} {s : Shutdown δ}
    (hr : Reaches (ShutdownStep sha1hex parse reason) { runner := r₀ } es s)
    (hl : LeasesAreNumbers (opsOf es)) (hids : IdsNotReused (trace sha1hex (opsOf es)))
    (hp : PayloadsParse parse (opsOf es)) :
    s.Accounted sha1hex parse (opsOf es) ∧ s.EndedRightly sha1hex es ∧ s.Handed es ∧
      s.Traced sha1hex es := by
  revert hl hids hp
  refine Reaches.invariant (P := fun es s => LeasesAreNumbers (opsOf es) →
    IdsNotReused (trace sha1hex (opsOf es)) → PayloadsParse parse (opsOf es) →
    s.Accounted sha1hex parse (opsOf es) ∧ s.EndedRightly sha1hex es ∧ s.Handed es ∧
      s.Traced sha1hex es) ?_ ?_ hr
  · intro _ _ _
    refine ⟨?_, ?_, ?_, ?_⟩
    · refine ⟨rfl, ⟨options, retention, r₀, [], hnew, .start⟩, ?_, ?_, ?_, ?_, ?_, ?_⟩
      · simp
      · simp
      · simp [Runner.entries, Runner.new_inFlight hnew]
      · simp
      · simp
      · simp
    · intro c hc
      cases hc
    · exact ⟨fun _ => rfl, (fun _ hc => by cases hc), List.nodup_nil, (fun _ hc => by cases hc)⟩
    · exact ⟨rfl, rfl, fun _ hx => by cases hx⟩
  · intro es s fs s' ih hst hl hids hp
    have happ : opsOf (es ++ fs) = opsOf es ++ opsOf fs := List.map_append
    have hl0 := (happ ▸ hl).left
    have hids0 := (happ ▸ hids).left
    have hp0 := (happ ▸ hp).left
    obtain ⟨ha, he, hh, ht⟩ := ih hl0 hids0 hp0
    exact ⟨ha.step hsha hst hl hids hp0, he.step hsha ha hst hl hids,
      hh.step ha hsha hst hl hids, ht.step hst⟩

variable (sha1hex parse reason)

/-- Force shutdown hands over everything. When `forceRequeueInflight` has the
replies of all its calls, whatever ran in between, no lock token in the queue is
one of a claim of the runner. Each of its claims ended once, by an
acknowledgement or a handover of its own or by a sweep. The count `requeued` is
that of the jobs handed back, which are different jobs, and each such call
pushed its job to the waiting list, while the other handovers changed nothing. -/
theorem a_force_shutdown_hands_over_everything (hsha : Function.Injective sha1hex)
    (options : WorkerDefinitionOptions) (retention : QueueRetention) (r₀ : Runner δ)
    (es : List Sent) (s : Shutdown δ) (calls : List (InFlightEntry δ × Option Reply))
    (hnew : Runner.new options retention = .ok r₀)
    (hr : Reaches (ShutdownStep sha1hex parse reason) { runner := r₀ } es s)
    (hl : LeasesAreNumbers (opsOf es)) (hids : IdsNotReused (trace sha1hex (opsOf es)))
    (hp : PayloadsParse parse (opsOf es)) (hc : s.requeue = some calls)
    (hall : ∀ x ∈ calls, x.2 ≠ none) :
    (∀ i token, s.queue.lockToken i = some token → ∀ k, (k, token) ∉ s.claims) ∧
    (∀ c ∈ s.claims,
      ((fenceOf sha1hex (opsOf es) c.1).ended.map Prod.fst).count (some c.2) = 1 ∧
      ∀ x ∈ (fenceOf sha1hex (opsOf es) c.1).ended, x.1 = some c.2 → EndedBy es c.1 x.2) ∧
    (forceRequeueResult calls).requeued = (es.filterMap handedBack).length ∧
    (forceRequeueResult calls).requeued ≤ (forceRequeueResult calls).unfinishedJobs ∧
    (es.filterMap handedBack).Nodup ∧
    ∀ pre k op reply post, es = pre ++ (.requeue k, op, reply) :: post →
      match handedBack (.requeue k, op, reply) with
      | some i => Pushes i (run sha1hex (opsOf pre)) (run sha1hex (opsOf pre ++ [op]))
      | none => run sha1hex (opsOf pre ++ [op]) = run sha1hex (opsOf pre) := by
  obtain ⟨ha, he, hh, ht⟩ := shutdown_keeps_books hsha hnew hr hl hids hp
  have hfree : ∀ c ∈ s.claims, s.queue.lockToken c.1 ≠ some c.2 := by
    intro c hcl hlive
    have htr := ha.tracked c hcl hlive
    simp only [Shutdown.Tracks, hc] at htr
    obtain ⟨e, hmem, -⟩ := htr
    exact hall _ hmem rfl
  refine ⟨?_, ?_, hh.count calls hc, List.countP_le_length, hh.nodup, ?_⟩
  · intro i token hlive k hk
    obtain ⟨runs, hf⟩ := fenceOf_fenced hsha hl hids i
    have hi := hlive
    rw [ha.queue, lockToken_run hl] at hi
    obtain rfl := issued_once hsha hl hids (hf.live token hi).1 (ha.issued _ hk)
    exact hfree _ hk hlive
  · intro c hcl
    refine ⟨?_, he c hcl⟩
    obtain ⟨runs, hf⟩ := fenceOf_fenced hsha hl hids c.1
    rcases hf.covered c.2 (ha.issued c hcl) with hlive | hend
    · rw [← lockToken_run hl, ← ha.queue] at hlive
      exact absurd hlive (hfree c hcl)
    · exact List.count_eq_one_of_mem hf.once hend
  · intro pre k op reply post hes
    have hreply := ht.reply_eq hes
    obtain ⟨a, hcall⟩ := ht.requeue (.requeue k, op, reply) (by simp [hes]) k rfl
    obtain ⟨call, t⟩ := op
    cases hcall
    have hops : opsOf es = opsOf pre ++ (.requeueActive a, t) :: opsOf post := by
      rw [hes]
      exact List.map_append
    have hl0 := (hops ▸ hl).left
    rw [run_snoc]
    rcases requeueActive_pushes hl0 a t with ⟨hw, hpush⟩ | ⟨hw, hsame⟩
    · rw [hreply, hw]
      exact hpush
    · rw [← hreply] at hw
      rw [handedBack_none hw]
      exact hsame

/-- A call that has no reply yet can be sent. -/
theorem Shutdown.sends_requeue {s : Shutdown δ} {calls : List (InFlightEntry δ × Option Reply)}
    {k : ℕ} {i token : String} (hc : s.requeue = some calls)
    (hk : (calls[k]?.map fun x => ((x.1.jobId, x.1.lockToken), x.2)) = some ((i, token), none)) :
    s.Sends reason (.requeue k) (.requeueActive ⟨i, token, reason⟩) := by
  obtain ⟨⟨e, reply⟩, hget, he⟩ := Option.map_eq_some_iff.mp hk
  cases he
  exact ⟨calls, e, hc, hget, rfl⟩

/-- A runner takes a job, stops, and gives it back. -/
theorem sample_job_is_handed_over : ∃ s : Shutdown String,
    ("j", "j:2000:1") ∈ s.claims ∧ s.queue.lockToken "j" ≠ some "j:2000:1" ∧
      s.requeue.map forceRequeueResult = some ⟨1, 1⟩ := by
  have h1 : Reaches (ShutdownStep id Except.ok "shutdown") { runner := sampleRunner } _ _ :=
    Reaches.start.next (.runner _ .start trivial)
  have h2 := h1.next (.runner _ .resume trivial)
  have h3 := h2.next (.script _ .other (.enqueue sampleJob, ⟨1, 0⟩) fun _ hc => by cases hc)
  have h4 := h3.next (.script _ .claim (.claimGlobalBatch ⟨.ofNat 30000, 2⟩, ⟨2, 0⟩)
    ⟨rfl, 2, by decide +kernel, rfl⟩)
  have h5 := h4.next (.claimReply _ _ rfl)
  have h6 := h5.next (.runner _ .stopClaiming trivial)
  have h7 := h6.next (.runner _ .resume trivial)
  have h8 := h7.next (.forceRequeue _ (by decide +kernel) rfl)
  have h9 := h8.next (.script _ (.requeue 0)
    (.requeueActive ⟨"j", "j:2000:1", "shutdown"⟩, ⟨3, 0⟩)
    (Shutdown.sends_requeue _ rfl (by decide +kernel)))
  have h := a_force_shutdown_hands_over_everything id Except.ok "shutdown" Function.injective_id
    { concurrency := 2 } sampleRunner.retention sampleRunner _ _ _ rfl h9 (by decide +kernel)
    (idsNotReused_of_nodup id (by decide +kernel)) (fun _ _ a _ => ⟨a.payload, rfl⟩) rfl
    (by decide +kernel)
  exact ⟨_, by decide +kernel, fun hlive => h.1 "j" _ hlive "j" (by decide +kernel),
    by decide +kernel⟩

end Panqueue
