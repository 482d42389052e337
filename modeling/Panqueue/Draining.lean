-- A runner that drains: its live leases are those of its jobs in flight, and
-- when the last of them is acknowledged, it has none.
import Panqueue.Handover

namespace Panqueue

variable {δ : Type} {sha1hex : String → String} {parse : String → Except String δ}
  {reason : String} {s : Shutdown δ} {es : List Sent}

namespace Shutdown

/-- A live lease of the runner is on its way to it, or belongs to a job in flight. -/
theorem Accounted.lease_in_flight (h : s.Accounted sha1hex parse (opsOf es))
    (hnone : s.requeue = none) {c : String × String} (hc : c ∈ s.claims)
    (hlive : s.queue.lockToken c.1 = some c.2) :
    (∃ n, s.runner.loop = .claiming n) ∨ ∃ e ∈ s.runner.inFlight, e.job.claim = c := by
  have htr := h.tracked c hc hlive
  unfold Tracks at htr
  rw [hnone] at htr
  rcases htr with ⟨reply, hr, -⟩ | ⟨x, hx, hclaim, -⟩
  · obtain ⟨-, n, entries, hl, -⟩ := h.reply reply hr
    exact Or.inl ⟨n, hl⟩
  · unfold Runner.entries at hx
    obtain ⟨e, he, rfl⟩ := List.mem_map.mp hx
    exact Or.inr ⟨e, he, hclaim⟩

/-- A claim that holds no more was ended once. -/
theorem Accounted.ended_once (h : s.Accounted sha1hex parse (opsOf es))
    (hsha : Function.Injective sha1hex) (hl : LeasesAreNumbers (opsOf es))
    (hids : IdsNotReused (trace sha1hex (opsOf es))) {c : String × String} (hc : c ∈ s.claims)
    (hfree : s.queue.lockToken c.1 ≠ some c.2) :
    ((fenceOf sha1hex (opsOf es) c.1).ended.map Prod.fst).count (some c.2) = 1 := by
  obtain ⟨runs, hf⟩ := fenceOf_fenced hsha hl hids c.1
  rcases hf.covered c.2 (h.issued c hc) with hlive | hend
  · rw [← lockToken_run hl, ← h.queue] at hlive
    exact absurd hlive hfree
  · exact List.count_eq_one_of_mem hf.once hend

/-- Without a handover, the runner ends its claims by acknowledgements only. -/
theorem EndedRightly.acknowledged (he : s.EndedRightly sha1hex es) (hh : s.Handed es)
    (ht : s.Traced sha1hex es) (hnone : s.requeue = none) {c : String × String} (hc : c ∈ s.claims)
    {x : Option String × Act} (hx : x ∈ (fenceOf sha1hex (opsOf es) c.1).ended)
    (hxc : x.1 = some c.2) :
    x.2.OfSweep ∨ ∃ y ∈ es, (∃ serial, y.1 = .acknowledgement serial) ∧ x.2 ∈ actsOf c.1 y.2 := by
  rcases he c hc x hx hxc with hsweep | ⟨⟨sender, op, reply⟩, hy, hends, hact⟩
  · exact Or.inl hsweep
  · right
    cases sender with
    | acknowledgement serial => exact ⟨_, hy, ⟨serial, rfl⟩, hact⟩
    | requeue k =>
      obtain ⟨a, hcall⟩ := ht.requeue _ hy k rfl
      obtain ⟨call, t⟩ := op
      cases hcall
      have hback : handedBack (.requeue k, (.requeueActive a, t), reply) = none := by
        have hempty := hh.before hnone
        rw [List.filterMap_eq_nil_iff] at hempty
        exact hempty _ hy
      have hof := of_mem_actsOf hact
      cases hact' : x.2 with
      | requeue token reason now =>
        rw [hact'] at hof
        obtain ⟨-, -, hr, -⟩ := hof
        rw [show reply = .requeueActive .waiting from hr] at hback
        cases hback
      | enqueue a now =>
        rw [hact'] at hof
        cases hof.1
      | claim | extend | complete | retry | fail | stall | stallOut =>
        rw [hact'] at hof
        obtain ⟨b, hof⟩ := hof
        simp at hof
    | claim | renewal | other => exact hends.elim

end Shutdown

variable (sha1hex parse reason)

/-- Until a runner hands anything over, its live leases are those of its jobs in
flight and of a claim call that is on its way. So once its claim loop has ended
and all its jobs in flight are settled, as after a drain in time, no lock token in
the queue is one of its claims. Each of them was ended once, by an
acknowledgement of its own or by a sweep, and no job was handed back. -/
theorem a_drained_runner_holds_no_lease (hsha : Function.Injective sha1hex)
    (options : WorkerDefinitionOptions) (retention : QueueRetention) (r₀ : Runner δ)
    (es : List Sent) (s : Shutdown δ) (hnew : Runner.new options retention = .ok r₀)
    (hr : Reaches (ShutdownStep sha1hex parse reason) { runner := r₀ } es s)
    (hl : LeasesAreNumbers (opsOf es)) (hids : IdsNotReused (trace sha1hex (opsOf es)))
    (hp : PayloadsParse parse (opsOf es)) (hnone : s.requeue = none) :
    es.filterMap handedBack = [] ∧
    (∀ c ∈ s.claims, s.queue.lockToken c.1 = some c.2 →
      (∃ n, s.runner.loop = .claiming n) ∨ ∃ e ∈ s.runner.inFlight, e.job.claim = c) ∧
    (s.runner.loop = .exited → s.runner.inFlight = [] →
      (∀ i token, s.queue.lockToken i = some token → ∀ k, (k, token) ∉ s.claims) ∧
      ∀ c ∈ s.claims,
        ((fenceOf sha1hex (opsOf es) c.1).ended.map Prod.fst).count (some c.2) = 1 ∧
        ∀ x ∈ (fenceOf sha1hex (opsOf es) c.1).ended, x.1 = some c.2 → x.2.OfSweep ∨
          ∃ y ∈ es, (∃ serial, y.1 = .acknowledgement serial) ∧ x.2 ∈ actsOf c.1 y.2) := by
  obtain ⟨ha, he, hh, ht⟩ := shutdown_keeps_books hsha hnew hr hl hids hp
  refine ⟨hh.before hnone, fun c hc hlive => ha.lease_in_flight hnone hc hlive, ?_⟩
  intro hexit hempty
  have hfree : ∀ c ∈ s.claims, s.queue.lockToken c.1 ≠ some c.2 := by
    intro c hc hlive
    rcases ha.lease_in_flight hnone hc hlive with ⟨n, hn⟩ | ⟨e, hmem, -⟩
    · rw [hexit] at hn
      cases hn
    · rw [hempty] at hmem
      cases hmem
  refine ⟨fun i token hlive k hk => ?_, fun c hc => ⟨?_, fun x hx hxc => ?_⟩⟩
  · obtain ⟨runs, hf⟩ := fenceOf_fenced hsha hl hids i
    have hi := hlive
    rw [ha.queue, lockToken_run hl] at hi
    obtain rfl := issued_once hsha hl hids (hf.live token hi).1 (ha.issued _ hk)
    exact hfree _ hk hlive
  · exact ha.ended_once hsha hl hids hc (hfree c hc)
  · exact he.acknowledged hh ht hnone hc hx hxc

namespace Shutdown

/-- The first job in flight can be acknowledged. -/
theorem sends_acknowledgement (hne : s.runner.inFlight ≠ []) {call : Call}
    (hnew : (s.runner.inFlight.head hne).serial ∉ s.acked.map Prod.fst)
    (hcall : s.runner.acknowledgement (s.runner.inFlight.head hne) = some call) :
    s.Sends reason (.acknowledgement (s.runner.inFlight.head hne).serial) call :=
  ⟨hnew, _, List.head_mem hne, rfl, hcall⟩

/-- The reply of its acknowledgement can be delivered. -/
theorem step_acknowledged (reply : Reply) (hne : s.runner.inFlight ≠ [])
    (hstage : (s.runner.inFlight.head hne).stage ≠ .handling)
    (hreply : ((s.runner.inFlight.head hne).serial, reply) ∈ s.acked) :
    ShutdownStep sha1hex parse reason s []
      { s with runner := s.runner.step (.acknowledged (s.runner.inFlight.head hne) reply.ack) } :=
  .acknowledged s _ reply ⟨List.head_mem hne, hstage⟩ hreply

end Shutdown

/-- A runner takes a job, stops, and acknowledges it. -/
theorem sample_runner_drains : ∃ s : Shutdown String, s.runner.inFlight = [] ∧
    ("j", "j:2000:1") ∈ s.claims ∧ s.queue.lockToken "j" ≠ some "j:2000:1" := by
  have h1 : Reaches (ShutdownStep id Except.ok "shutdown") { runner := sampleRunner } _ _ :=
    Reaches.start.next (.runner _ .start trivial)
  have h2 := h1.next (.runner _ .resume trivial)
  have h3 := h2.next (.script _ .other (.enqueue sampleJob, ⟨1, 0⟩) fun _ hc => by cases hc)
  have h4 := h3.next (.script _ .claim (.claimGlobalBatch ⟨.ofNat 30000, 2⟩, ⟨2, 0⟩)
    ⟨rfl, 2, by decide +kernel, rfl⟩)
  have h5 := h4.next (.claimReply _ _ rfl)
  have h6 := h5.next (.runner _ .stopClaiming trivial)
  have h7 := h6.next (.runner _ .resume trivial)
  have h8 := h7.next (.runner _ (.handlerSettled 0 .returned) trivial)
  have h9 := h8.next (.script _ _
    (.complete ⟨"j", "j:2000:1", ⟨.delete, -1, -1⟩⟩, ⟨3, 0⟩)
    (Shutdown.sends_acknowledgement "shutdown" (List.ne_nil_of_length_pos (by decide +kernel))
      (by decide +kernel) (by decide +kernel)))
  have h10 := h9.next (Shutdown.step_acknowledged id Except.ok "shutdown" (.complete .completed)
    (List.ne_nil_of_length_pos (by decide +kernel)) (by decide +kernel) (by decide +kernel))
  have h := a_drained_runner_holds_no_lease id Except.ok "shutdown" Function.injective_id
    { concurrency := 2 } sampleRunner.retention sampleRunner _ _ rfl h10 (by decide +kernel)
    (idsNotReused_of_nodup id (by decide +kernel)) (fun _ _ a _ => ⟨a.payload, rfl⟩) rfl
  have hdrained := h.2.2 (by decide +kernel) (List.length_eq_zero_iff.mp (by decide +kernel))
  exact ⟨_, List.length_eq_zero_iff.mp (by decide +kernel), by decide +kernel,
    fun hlive => hdrained.1 "j" _ hlive "j" (by decide +kernel)⟩

end Panqueue
