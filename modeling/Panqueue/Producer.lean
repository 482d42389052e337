-- queue-client.ts: any number of enqueue calls on one client, its connection,
-- and the queues on which their scripts run among the calls of all others.
import Panqueue.Identity
import Panqueue.RedisConnection

namespace Panqueue

/-! ## Enqueue calls -/

/-- How an enqueue call ends: with the job id, or with what it throws. -/
inductive EnqueueOutcome
  | resolved (jobId : String)
  | serializationError (message : String)
  | clientConnectionError
  | clientClosedError
  | enqueueError (queueId : String)
  | panqueueError (message : String)

/-- The await at which an enqueue call stands: the connect call of this number,
its script call, or its end. -/
inductive EnqueuePhase
  | connects (k : ℕ)
  | sends
  | settled (o : EnqueueOutcome)

/-- The script call of an enqueue. Redis executes it when it comes, also after the
client has given up on the reply, or it answers with an error and executes nothing. -/
inductive ScriptCall
  | unsent
  | sent (a : EnqueueArgs)
  | executed (a : EnqueueArgs) (r : Reply)
  | refused

structure EnqueueCall where
  jobId : String
  queueId : String
  options : Option JobOptions
  phase : EnqueuePhase
  script : ScriptCall := .unsent

namespace EnqueueCall

variable (c : EnqueueCall)

def settle (o : EnqueueOutcome) : EnqueueCall := { c with phase := .settled o }

/-- `enqueue` after its connect call. The text is that of the payload as it is
then; the caller may have changed it since the check. -/
def afterConnect (redis : RedisConnection) (text : Option String) : ConnectOutcome → EnqueueCall
  | .clientConnectionError => c.settle .clientConnectionError
  | .clientClosedError => c.settle .clientClosedError
  | .resolved =>
    match redis.access with
    | .error .clientClosedError => c.settle .clientClosedError
    | .error (.panqueueError message) => c.settle (.panqueueError message)
    | .ok _ =>
      match QueueClient.enqueue (fun _ => .ok ()) id c.jobId c.queueId text c.options with
      | .error _ => c.settle .clientConnectionError
      | .ok a => { c with phase := .sends, script := .sent a }

/-- `enqueue` after the reply to its script call. An error reply is rethrown as one of the queue. -/
def afterReply : Reply → EnqueueCall
  | .enqueue (.enqueued _) => c.settle (.resolved c.jobId)
  | _ => c.settle (.enqueueError c.queueId)

/-- The arguments are those of this call, with the text of some payload. -/
def Sends (a : EnqueueArgs) : Prop :=
  ∃ text, QueueClient.enqueue (fun _ => .ok ()) id c.jobId c.queueId (some text) c.options = .ok a

end EnqueueCall

/-- A client with its enqueue calls, and the calls that each queue executed, with
the number of the enqueue call that one came from. -/
structure Producing where
  redis : RedisConnection := {}
  calls : List EnqueueCall := []
  log : String → List (Option ℕ × (Call × RedisTime)) := fun _ => []

namespace Producing

variable (s : Producing)

def setCall (i : ℕ) (c : EnqueueCall) : Producing := { s with calls := s.calls.set i c }

/-- A queue executes a call. -/
def record (queueId : String) (x : Option ℕ × (Call × RedisTime)) : Producing :=
  { s with log := Function.update s.log queueId (s.log queueId ++ [x]) }

/-- `enqueue`, up to its first await, with the outcome of `assertJsonSerializable`
and the id that it generates. -/
def enqueue (check : Except String Unit) (jobId queueId : String) (options : Option JobOptions) :
    Producing :=
  match check with
  | .error message =>
    { s with calls := s.calls ++
        [{ jobId, queueId, options, phase := .settled (.serializationError message) }] }
  | .ok () =>
    { s with
      redis := s.redis.connect
      calls := s.calls ++ [{ jobId, queueId, options, phase := .connects s.redis.made }] }

/-- The calls that a queue executed, in order. -/
def ops (queueId : String) : List (Call × RedisTime) := (s.log queueId).map Prod.snd

/-- How often a queue executed the script call of the enqueue call `i`. -/
def executions (i : ℕ) (queueId : String) : ℕ :=
  (s.log queueId).countP fun x => decide (x.1 = some i)

end Producing

/-- One step: a call on the client, a step of its connection, the rest of an
enqueue call after an await, or an execution in Redis. -/
inductive ProducerStep (sha1hex : String → String) (s : Producing) : Producing → Prop
  | enqueue (check : Except String Unit) (jobId queueId : String) (options : Option JobOptions) :
    ProducerStep sha1hex s (s.enqueue check jobId queueId options)
  | connection (redis : RedisConnection) (h : RedisConnection.Step s.redis redis) :
    ProducerStep sha1hex s { s with redis }
  | connected (i k : ℕ) (c : EnqueueCall) (j : Option ℕ) (r : ConnectOutcome)
      (text : Option String) (hc : s.calls[i]? = some c) (hphase : c.phase = .connects k)
      (hcall : s.redis.call k = .settled j r) :
    ProducerStep sha1hex s (s.setCall i (c.afterConnect s.redis text r))
  | executes (i : ℕ) (c : EnqueueCall) (a : EnqueueArgs) (t : RedisTime)
      (hc : s.calls[i]? = some c) (hscript : c.script = .sent a) :
    ProducerStep sha1hex s
      ((s.record c.queueId (some i, (.enqueue a, t))).setCall i
        { c with
          script := .executed a (exec sha1hex (.enqueue a, t) (run sha1hex (s.ops c.queueId))).1 })
  | replies (i : ℕ) (c : EnqueueCall) (a : EnqueueArgs) (r : Reply) (hc : s.calls[i]? = some c)
      (hphase : c.phase = .sends) (hscript : c.script = .executed a r) :
    ProducerStep sha1hex s (s.setCall i (c.afterReply r))
  | refuses (i : ℕ) (c : EnqueueCall) (a : EnqueueArgs) (hc : s.calls[i]? = some c)
      (hphase : c.phase = .sends) (hscript : c.script = .sent a) :
    ProducerStep sha1hex s
      (s.setCall i { c.settle (.enqueueError c.queueId) with script := .refused })
  | fails (i : ℕ) (c : EnqueueCall) (hc : s.calls[i]? = some c) (hphase : c.phase = .sends) :
    ProducerStep sha1hex s (s.setCall i (c.settle .clientConnectionError))
  | other (queueId : String) (op : Call × RedisTime) (hop : op.1.LeaseIsNumber) :
    ProducerStep sha1hex s (s.record queueId (none, op))

/-! ## The connection after a connect call -/

namespace RedisConnection

variable {r r' : RedisConnection} {i k : ℕ}

/-- The connection is closed, or it has a client. -/
def Settled (r : RedisConnection) : Prop := r.closed = true ∨ r.client.isSome

theorem Settled.step (h : r.Settled) (hstep : Step r r') : r'.Settled := by
  cases hstep with
  | connect =>
    unfold RedisConnection.connect
    rcases h with h | h
    · rw [if_pos h]
      exact Or.inl h
    · split
      · exact Or.inr h
      · exact Or.inr h
  | disconnect => exact Or.inl disconnect_closed.1
  | connectEnds k hk hphase hraw =>
    unfold RedisConnection.afterConnect
    split
    · exact h
    · split
      · exact h
      · exact Or.inr rfl
  | rawConnects => exact h
  | rawFails => exact h
  | rawDisconnects => exact h
  | disconnectEnds => exact h
  | ownerSettles => exact h
  | followerSettles => exact h
  | disconnectSettles => exact h

/-- A resolved attempt left a client, unless the connection was closed since. -/
theorem Consistent.settled (h : r.Consistent) (hk : k < r.opened)
    (hphase : (r.attempt k).phase = .settled .resolved) : r.Settled := by
  have hfits := h.fits k hk
  rw [Attempt.Fits, hphase] at hfits
  rcases hfits with ⟨hheld, -⟩ | ⟨hclosed, -⟩
  · exact Or.inr (by rw [hheld]; rfl)
  · exact Or.inl hclosed

/-- A call that resolved, or that awaits a disconnect, leaves the connection settled. -/
def Resolves (r : RedisConnection) : Prop :=
  ∀ i < r.made, (∃ j, r.call i = .settled j .resolved) ∨ (∃ k, r.call i = .disconnecting k) →
    r.Settled

theorem Resolves.addCall {c : ConnectionCall} (h : r.Resolves)
    (hc : (∃ j, c = .settled j .resolved) ∨ (∃ k, c = .disconnecting k) → r.Settled) :
    (r.addCall c).Resolves := by
  intro i hi hcall
  rcases call_addCall_cases hi with ⟨hi', he⟩ | ⟨-, he⟩
  · rw [he] at hcall
    exact h i hi' hcall
  · rw [he] at hcall
    exact hc hcall

theorem Resolves.setCall {c : ConnectionCall} (h : r.Resolves)
    (hc : (∃ j, c = .settled j .resolved) ∨ (∃ k, c = .disconnecting k) → r.Settled) :
    (r.setCall i c).Resolves := by
  intro j hj hcall
  by_cases he : j = i
  · subst he
    rw [call_setCall_self] at hcall
    exact hc hcall
  · rw [call_setCall_ne he] at hcall
    exact h j hj hcall

/-- No call changed. -/
theorem Resolves.keep (h : r.Resolves) (hmade : r'.made = r.made) (hcall : r'.call = r.call)
    (hs : r.Settled → r'.Settled) : r'.Resolves := by
  intro i hi hc
  rw [hcall] at hc
  exact hs (h i (hmade ▸ hi) hc)

theorem Resolves.step (h : r.Resolves) (hr : r.Consistent) (hstep : Step r r') : r'.Resolves := by
  have hs : r.Settled → r'.Settled := fun hs => hs.step hstep
  cases hstep with
  | connect =>
    unfold RedisConnection.connect
    split
    · exact h.addCall (by simp)
    · split
      · rename_i hclient
        exact h.addCall fun _ => Or.inr hclient
      · split
        · exact h.addCall (by simp)
        · exact (h.addCall (c := .connecting r.opened) (by simp)).keep rfl rfl id
  | disconnect =>
    have hclosed : r.disconnect.Settled := Or.inl disconnect_closed.1
    exact fun _ _ _ => hclosed
  | connectEnds k hk hphase hraw =>
    refine h.keep ?_ ?_ hs
    · unfold RedisConnection.afterConnect
      split
      · rfl
      · split <;> rfl
    · unfold RedisConnection.afterConnect
      split
      · rfl
      · split <;> rfl
  | rawConnects => exact h.keep rfl rfl hs
  | rawFails => exact h.keep rfl rfl hs
  | rawDisconnects => exact h.keep rfl rfl hs
  | disconnectEnds => exact h.keep rfl rfl hs
  | ownerSettles i k o hi hcall hphase =>
    refine Resolves.keep (r := r.setCall i (.settled (some k) o)) (h.setCall fun hc => ?_)
      rfl rfl id
    have ho : o = .resolved := by simpa using hc
    rw [ho] at hphase
    exact hr.settled (hr.starts i hi k hcall).1 hphase
  | followerSettles i k o hi hcall hphase howned =>
    refine h.setCall fun hc => ?_
    have ho : o = .resolved := by simpa using hc
    rw [ho] at hphase
    exact hr.settled (hr.follows i hi k hcall) hphase
  | disconnectSettles i k hi hcall hraw => exact h.setCall fun _ => h i hi (Or.inr ⟨k, hcall⟩)

theorem Reachable.resolves (h : r.Reachable) : r.Resolves := by
  induction h with
  | refl => exact fun i hi => absurd hi (Nat.not_lt_zero i)
  | tail hr hstep ih => exact ih.step (Reachable.consistent hr) hstep

theorem Settled.access (h : r.Settled) (message : String) :
    r.access ≠ .error (.panqueueError message) := by
  unfold RedisConnection.access
  split
  · simp
  · rename_i hclosed
    obtain ⟨k, hk⟩ := Option.isSome_iff_exists.mp (h.resolve_left hclosed)
    rw [hk]
    simp

theorem connect_made (r : RedisConnection) : r.connect.made = r.made + 1 := by
  unfold RedisConnection.connect
  split
  · rfl
  · split
    · rfl
    · split <;> rfl

theorem Step.made_le (hstep : Step r r') : r.made ≤ r'.made := by
  cases hstep with
  | connect =>
    rw [connect_made]
    exact Nat.le_succ _
  | disconnect =>
    unfold RedisConnection.disconnect
    split <;> exact Nat.le_succ _
  | connectEnds k hk hphase hraw =>
    unfold RedisConnection.afterConnect
    split
    · exact Nat.le_refl _
    · split <;> exact Nat.le_refl _
  | _ => exact Nat.le_refl _

end RedisConnection

/-! ## What became of the script calls -/

variable {sha1hex : String → String} {s s' : Producing} {i : ℕ} {c c' : EnqueueCall}

/-- Where a call stands against what became of its script call. -/
def EnqueueCall.Fits (c : EnqueueCall) (made : ℕ) : Prop :=
  match c.phase with
  | .connects k => k < made ∧ c.script = .unsent
  | .sends => (∃ a, c.script = .sent a) ∨ ∃ a r, c.script = .executed a r
  | .settled (.resolved jobId) =>
    jobId = c.jobId ∧ ∃ a k, c.script = .executed a (.enqueue (.enqueued k))
  | .settled (.enqueueError queueId) => queueId = c.queueId ∧
    (c.script = .refused ∨ ∃ a r, c.script = .executed a r ∧ ∀ k, r ≠ .enqueue (.enqueued k))
  | .settled .clientConnectionError => True
  | .settled (.panqueueError _) => False
  | .settled _ => c.script = .unsent

/-- What became of the script call of the enqueue call `i` against what the queues executed. -/
def Producing.Shows (sha1hex : String → String) (s : Producing) (i : ℕ) (c : EnqueueCall) : Prop :=
  match c.script with
  | .unsent => ∀ queueId, s.executions i queueId = 0
  | .refused => ∀ queueId, s.executions i queueId = 0
  | .sent a => c.Sends a ∧ ∀ queueId, s.executions i queueId = 0
  | .executed a r => c.Sends a ∧
    (∀ queueId, s.executions i queueId = if queueId = c.queueId then 1 else 0) ∧
    ∃ before t after, s.log c.queueId = before ++ (some i, (.enqueue a, t)) :: after ∧
      r = (exec sha1hex (.enqueue a, t) (run sha1hex (before.map Prod.snd))).1

/-- The queues executed more, but nothing of the enqueue call `i`. -/
def Producing.Passes (i : ℕ) (s s' : Producing) : Prop :=
  ∀ queueId, ∃ more, s'.log queueId = s.log queueId ++ more ∧ ∀ x ∈ more, x.1 ≠ some i

theorem Producing.Passes.executions (h : s.Passes i s') (queueId : String) :
    s'.executions i queueId = s.executions i queueId := by
  obtain ⟨more, hlog, hmore⟩ := h queueId
  have h0 : more.countP (fun x => decide (x.1 = some i)) = 0 := by
    rw [List.countP_eq_zero]
    intro x hx
    simpa using hmore x hx
  unfold Producing.executions
  rw [hlog, List.countP_append, h0, Nat.add_zero]

theorem Producing.Passes.shows (h : s.Passes i s') (hs : s.Shows sha1hex i c) :
    s'.Shows sha1hex i c := by
  unfold Producing.Shows at hs ⊢
  split at hs
  · intro queueId
    rw [h.executions]
    exact hs queueId
  · intro queueId
    rw [h.executions]
    exact hs queueId
  · refine ⟨hs.1, fun queueId => ?_⟩
    rw [h.executions]
    exact hs.2 queueId
  · obtain ⟨hsends, hcount, before, t, after, hlog, hr⟩ := hs
    obtain ⟨more, hmore, -⟩ := h c.queueId
    refine ⟨hsends, fun queueId => ?_, before, t, after ++ more, ?_, hr⟩
    · rw [h.executions]
      exact hcount queueId
    · rw [hmore, hlog, List.append_assoc, List.cons_append]

theorem Producing.log_record_self (queueId : String) (x : Option ℕ × (Call × RedisTime)) :
    (s.record queueId x).log queueId = s.log queueId ++ [x] := Function.update_self _ _ _

theorem Producing.log_record_ne {queueId queueId' : String} (x : Option ℕ × (Call × RedisTime))
    (h : queueId' ≠ queueId) : (s.record queueId x).log queueId' = s.log queueId' :=
  Function.update_of_ne h _ _

theorem Producing.record_passes (queueId : String) {x : Option ℕ × (Call × RedisTime)}
    (hx : x.1 ≠ some i) : s.Passes i (s.record queueId x) := by
  intro queueId'
  by_cases hq : queueId' = queueId
  · subst hq
    refine ⟨[x], Producing.log_record_self _ _, fun y hy => ?_⟩
    rw [List.mem_singleton.mp hy]
    exact hx
  · refine ⟨[], ?_, fun y hy => by cases hy⟩
    rw [Producing.log_record_ne _ hq, List.append_nil]

theorem Producing.record_leases {o : Option ℕ} {op : Call × RedisTime} (queueId : String)
    (hop : op.1.LeaseIsNumber) (h : ∀ queueId', LeasesAreNumbers (s.ops queueId'))
    (queueId' : String) : LeasesAreNumbers ((s.record queueId (o, op)).ops queueId') := by
  unfold Producing.ops
  by_cases hq : queueId' = queueId
  · subst hq
    rw [Producing.log_record_self, List.map_append]
    intro x hx
    rcases List.mem_append.mp hx with hx | hx
    · exact h queueId' x hx
    · rw [List.mem_singleton.mp hx]
      exact hop
  · rw [Producing.log_record_ne _ hq]
    exact h queueId'

structure Producing.Recorded (sha1hex : String → String) (s : Producing) : Prop where
  redis : s.redis.Reachable
  fits : ∀ (i : ℕ) (c : EnqueueCall), s.calls[i]? = some c → c.Fits s.redis.made
  shows : ∀ (i : ℕ) (c : EnqueueCall), s.calls[i]? = some c → s.Shows sha1hex i c
  new : ∀ i, s.calls.length ≤ i → ∀ queueId, s.executions i queueId = 0
  leases : ∀ queueId, LeasesAreNumbers (s.ops queueId)

theorem EnqueueCall.Fits.mono {made made' : ℕ} (h : c.Fits made) (hm : made ≤ made') :
    c.Fits made' := by
  unfold EnqueueCall.Fits at h ⊢
  split at h
  · exact ⟨Nat.lt_of_lt_of_le h.1 hm, h.2⟩
  · exact h
  · exact h
  · exact h
  · exact h
  · exact h
  · exact h

namespace Producing.Recorded

theorem empty : Recorded sha1hex {} where
  redis := Relation.ReflTransGen.refl
  fits i c hc := by cases hc
  shows i c hc := by cases hc
  new _ _ _ := rfl
  leases _ _ hop := by cases hop

/-- The enqueue call `i` goes on, and no other. -/
theorem goesOn (h : s.Recorded sha1hex) (hc : s.calls[i]? = some c) (hredis : s'.redis = s.redis)
    (hcalls : s'.calls = s.calls.set i c') (hlog : ∀ j ≠ i, s.Passes j s')
    (hleases : ∀ queueId, LeasesAreNumbers (s'.ops queueId)) (hfits : c'.Fits s.redis.made)
    (hshows : s'.Shows sha1hex i c') : s'.Recorded sha1hex := by
  have hi : i < s.calls.length := (List.getElem?_eq_some_iff.mp hc).1
  have hcase : ∀ j d, s'.calls[j]? = some d →
      j = i ∧ d = c' ∨ j ≠ i ∧ s.calls[j]? = some d := by
    intro j d hd
    rw [hcalls] at hd
    by_cases hji : j = i
    · subst hji
      rw [List.getElem?_set_self hi] at hd
      exact Or.inl ⟨rfl, (Option.some.inj hd).symm⟩
    · rw [List.getElem?_set_ne (Ne.symm hji)] at hd
      exact Or.inr ⟨hji, hd⟩
  refine ⟨hredis ▸ h.redis, ?_, ?_, ?_, hleases⟩
  · intro j d hd
    rw [hredis]
    rcases hcase j d hd with ⟨-, rfl⟩ | ⟨-, hold⟩
    · exact hfits
    · exact h.fits j d hold
  · intro j d hd
    rcases hcase j d hd with ⟨rfl, rfl⟩ | ⟨hji, hold⟩
    · exact hshows
    · exact (hlog j hji).shows (h.shows j d hold)
  · intro j hj queueId
    rw [hcalls, List.length_set] at hj
    have hji : j ≠ i := by omega
    rw [(hlog j hji).executions]
    exact h.new j hj queueId

/-- The enqueue call `i` goes on without an execution. -/
theorem setCall (h : s.Recorded sha1hex) (hc : s.calls[i]? = some c)
    (hfits : c'.Fits s.redis.made) (hshows : s.Shows sha1hex i c') :
    (s.setCall i c').Recorded sha1hex := by
  have hpasses : ∀ j, s.Passes j (s.setCall i c') := fun j queueId =>
    ⟨[], (List.append_nil _).symm, fun x hx => by cases hx⟩
  exact h.goesOn hc rfl rfl (fun j _ => hpasses j) h.leases hfits ((hpasses i).shows hshows)

/-- A new enqueue call. -/
theorem adds {redis : RedisConnection} (h : s.Recorded sha1hex) (hr : redis.Reachable)
    (hmade : s.redis.made ≤ redis.made) (hfits : c.Fits redis.made) (hscript : c.script = .unsent) :
    Recorded sha1hex { s with redis, calls := s.calls ++ [c] } := by
  have hcase : ∀ j d, (s.calls ++ [c])[j]? = some d →
      s.calls[j]? = some d ∨ j = s.calls.length ∧ d = c := by
    intro j d hd
    rw [List.getElem?_append] at hd
    split at hd
    · exact Or.inl hd
    · rename_i hj
      obtain ⟨hj0, hd⟩ := List.getElem?_eq_some_iff.mp hd
      rw [List.length_singleton] at hj0
      refine Or.inr ⟨by omega, ?_⟩
      rw [← hd, List.getElem_singleton]
  refine ⟨hr, ?_, ?_, ?_, h.leases⟩
  · intro j d hd
    rcases hcase j d hd with hold | ⟨-, rfl⟩
    · exact (h.fits j d hold).mono hmade
    · exact hfits
  · intro j d hd
    rcases hcase j d hd with hold | ⟨rfl, rfl⟩
    · exact h.shows j d hold
    · unfold Producing.Shows
      rw [hscript]
      exact h.new _ (Nat.le_refl _)
  · intro j hj
    rw [List.length_append, List.length_singleton] at hj
    exact h.new j (by omega)

theorem enqueue (h : s.Recorded sha1hex) (check : Except String Unit) (jobId queueId : String)
    (options : Option JobOptions) : (s.enqueue check jobId queueId options).Recorded sha1hex := by
  unfold Producing.enqueue
  split
  · exact h.adds h.redis (Nat.le_refl _) rfl rfl
  · have hmade := RedisConnection.connect_made s.redis
    refine h.adds (h.redis.tail .connect) (by omega) ⟨?_, rfl⟩ rfl
    omega

theorem connected {k : ℕ} {j : Option ℕ} {r : ConnectOutcome} (text : Option String)
    (h : s.Recorded sha1hex) (hc : s.calls[i]? = some c) (hphase : c.phase = .connects k)
    (hcall : s.redis.call k = .settled j r) :
    (s.setCall i (c.afterConnect s.redis text r)).Recorded sha1hex := by
  have hf := h.fits i c hc
  unfold EnqueueCall.Fits at hf
  rw [hphase] at hf
  obtain ⟨hk, hscript⟩ := hf
  have hs := h.shows i c hc
  have hzero : ∀ queueId, s.executions i queueId = 0 := by
    unfold Producing.Shows at hs
    rw [hscript] at hs
    exact hs
  have hunsent : ∀ o, s.Shows sha1hex i (c.settle o) := by
    intro o
    unfold Producing.Shows
    rw [show (c.settle o).script = .unsent from hscript]
    exact hzero
  unfold EnqueueCall.afterConnect
  split
  · exact h.setCall hc trivial (hunsent _)
  · exact h.setCall hc hscript (hunsent _)
  · -- the connection has a client now, or it was closed since
    have hsettled := h.redis.resolves k hk (Or.inl ⟨j, hcall⟩)
    split
    · exact h.setCall hc hscript (hunsent _)
    · rename_i message haccess
      exact absurd haccess (hsettled.access message)
    · split
      · exact h.setCall hc trivial (hunsent _)
      · rename_i a ha
        refine h.setCall hc (Or.inl ⟨a, rfl⟩) ⟨?_, hzero⟩
        cases text with
        | none => cases ha
        | some text => exact ⟨text, ha⟩

theorem executes {a : EnqueueArgs} (t : RedisTime) (h : s.Recorded sha1hex)
    (hc : s.calls[i]? = some c) (hscript : c.script = .sent a) :
    ((s.record c.queueId (some i, (.enqueue a, t))).setCall i
      { c with
        script := .executed a (exec sha1hex (.enqueue a, t) (run sha1hex (s.ops c.queueId))).1
      }).Recorded sha1hex := by
  have hs := h.shows i c hc
  unfold Producing.Shows at hs
  rw [hscript] at hs
  obtain ⟨hsends, hzero⟩ := hs
  refine h.goesOn hc rfl rfl ?_ ?_ ?_ ?_
  · exact fun j hj => Producing.record_passes c.queueId fun he => hj (Option.some.inj he).symm
  · exact Producing.record_leases c.queueId trivial h.leases
  · -- a call whose script was on its way awaits the reply, or gave up on it
    have hf := h.fits i c hc
    unfold EnqueueCall.Fits at hf ⊢
    split at hf <;> simp_all
  · refine ⟨hsends, ?_, s.log c.queueId, t, [], Producing.log_record_self _ _, rfl⟩
    intro queueId
    have h0 := hzero queueId
    unfold Producing.executions at h0 ⊢
    change ((s.record c.queueId _).log queueId).countP _ = _
    by_cases hq : queueId = c.queueId
    · subst hq
      rw [Producing.log_record_self, List.countP_append, h0]
      simp
    · rw [Producing.log_record_ne _ hq, h0, if_neg hq]

theorem step (h : s.Recorded sha1hex) (hstep : ProducerStep sha1hex s s') :
    s'.Recorded sha1hex := by
  cases hstep with
  | enqueue check jobId queueId options => exact h.enqueue check jobId queueId options
  | connection redis hr =>
    exact ⟨h.redis.tail hr, fun i c hc => (h.fits i c hc).mono hr.made_le, h.shows, h.new, h.leases⟩
  | connected i k c j r text hc hphase hcall => exact h.connected text hc hphase hcall
  | executes i c a t hc hscript => exact h.executes t hc hscript
  | replies i c a r hc hphase hscript =>
    have hs := h.shows i c hc
    unfold EnqueueCall.afterReply
    split
    · exact h.setCall hc ⟨rfl, a, _, hscript⟩ hs
    · rename_i hne
      exact h.setCall hc ⟨rfl, Or.inr ⟨a, r, hscript, hne⟩⟩ hs
  | refuses i c a hc hphase hscript =>
    have hs := h.shows i c hc
    unfold Producing.Shows at hs
    rw [hscript] at hs
    exact h.setCall hc ⟨rfl, Or.inl rfl⟩ hs.2
  | fails i c hc hphase => exact h.setCall hc trivial (h.shows i c hc)
  | other queueId op hop =>
    have hpasses : ∀ i, s.Passes i (s.record queueId (none, op)) := fun i =>
      Producing.record_passes queueId (by simp)
    refine ⟨h.redis, h.fits, fun i c hc => (hpasses i).shows (h.shows i c hc), ?_,
      Producing.record_leases queueId hop h.leases⟩
    intro i hi queueId'
    rw [(hpasses i).executions]
    exact h.new i hi queueId'

end Producing.Recorded

/-! ## What an enqueue tells -/

/-- The queue at the end of what it executed. -/
def Producing.queue (sha1hex : String → String) (s : Producing) (queueId : String) : Queue :=
  run sha1hex (s.ops queueId)

/-- The queue executed the script of the enqueue call `i` where the job was not
there yet. The job waited from then on, and since then it has waited or been
active, or it has ended. -/
def Producing.Stored (sha1hex : String → String) (s : Producing) (i : ℕ) (c : EnqueueCall) : Prop :=
  ∃ before a t after, s.log c.queueId = before ++ (some i, (.enqueue a, t)) :: after ∧ c.Sends a ∧
    At (run sha1hex (before.map Prod.snd)) c.jobId .gone ∧
    At (run sha1hex (before.map Prod.snd ++ [(.enqueue a, t)])) c.jobId
      (.waiting (.enqueued a t.now)) ∧
    ((s.queue sha1hex c.queueId).InFlow c.jobId ∨
      ∃ e ∈ history c.jobId (Machine.trace (exec sha1hex)
        (run sha1hex (before.map Prod.snd ++ [(.enqueue a, t)])) (after.map Prod.snd)), e.EndsJob)

/-- The queue executed the script of the enqueue call `i`, and nothing changed. -/
def Producing.Unchanged (sha1hex : String → String) (s : Producing) (i : ℕ) (c : EnqueueCall) :
    Prop :=
  ∃ before a t after, s.log c.queueId = before ++ (some i, (.enqueue a, t)) :: after ∧
    run sha1hex (before.map Prod.snd ++ [(.enqueue a, t)]) = run sha1hex (before.map Prod.snd)

/-- What the outcome of the enqueue call `i` tells of the queues. -/
def Producing.Tells (sha1hex : String → String) (s : Producing) (i : ℕ) (c : EnqueueCall) :
    EnqueueOutcome → Prop
  | .resolved jobId => jobId = c.jobId ∧ s.Stored sha1hex i c
  | .serializationError _ => ∀ queueId, s.executions i queueId = 0
  | .clientClosedError => ∀ queueId, s.executions i queueId = 0
  | .enqueueError queueId => queueId = c.queueId ∧
    ((∀ queueId, s.executions i queueId = 0) ∨ s.Unchanged sha1hex i c)
  | .clientConnectionError => True
  | .panqueueError _ => False

theorem recorded_run (h : Relation.ReflTransGen (ProducerStep sha1hex) {} s) :
    s.Recorded sha1hex := by
  induction h with
  | refl => exact .empty
  | tail _ hstep ih => exact ih.step hstep

theorem EnqueueCall.Sends.jobId {a : EnqueueArgs} (h : c.Sends a) : a.jobId = c.jobId := by
  obtain ⟨text, ht⟩ := h
  exact (QueueClient.enqueue_ok ht).1

theorem LeasesAreNumbers.before {ops before after : List (Call × RedisTime)} {op : Call × RedisTime}
    (h : LeasesAreNumbers ops) (hops : ops = before ++ op :: after) : LeasesAreNumbers before := by
  intro x hx
  apply h
  rw [hops]
  exact List.mem_append_left _ hx

/-- The reply that names the job comes from a queue that did not have it. -/
theorem stored_of_reply (h : s.Recorded sha1hex) {a : EnqueueArgs} {t : RedisTime} {k : String}
    {before after : List (Option ℕ × (Call × RedisTime))} (hsends : c.Sends a)
    (hlog : s.log c.queueId = before ++ (some i, (.enqueue a, t)) :: after)
    (hr : (exec sha1hex (.enqueue a, t) (run sha1hex (before.map Prod.snd))).1 =
      .enqueue (.enqueued k)) : s.Stored sha1hex i c := by
  have hops : s.ops c.queueId = before.map Prod.snd ++ (.enqueue a, t) :: after.map Prod.snd := by
    unfold Producing.ops
    rw [hlog, List.map_append, List.map_cons]
  have hbefore : LeasesAreNumbers (before.map Prod.snd) := (h.leases c.queueId).before hops
  obtain ⟨p, hp⟩ := sound_run sha1hex hbefore a.jobId
  have hgone : p = .gone := by
    by_contra hne
    simp only [exec, Lua.exec, runScript, enqueue_collision hp hne] at hr
    cases hr
  subst hgone
  obtain ⟨q', hrun, hat, -⟩ := enqueue_waits (t := t) hp
  have hq' : run sha1hex (before.map Prod.snd ++ [(.enqueue a, t)]) = q' := by
    rw [run_snoc]
    simp only [exec, Lua.exec, runScript, hrun]
  rw [hsends.jobId] at hp hat
  rw [← hq'] at hat
  refine ⟨before, a, t, after, hlog, hsends, hp, hat, ?_⟩
  have hsplit : s.ops c.queueId =
      (before.map Prod.snd ++ [(.enqueue a, t)]) ++ after.map Prod.snd := by
    rw [hops, List.append_assoc, List.singleton_append]
  have hleft : LeasesAreNumbers (before.map Prod.snd ++ [(.enqueue a, t)]) := by
    have hall := h.leases c.queueId
    rw [hsplit] at hall
    exact hall.left
  have hafter : LeasesAreNumbers (after.map Prod.snd) := by
    intro x hx
    apply h.leases c.queueId
    rw [hsplit]
    exact List.mem_append_right _ hx
  obtain ⟨p', ⟨-, hp'⟩, hs⟩ := finish_refines sha1hex (sound_run sha1hex hleft) hafter hat
  rw [← run_append, ← hsplit] at hp'
  by_cases hends : ∃ e ∈ history c.jobId (Machine.trace (exec sha1hex)
      (run sha1hex (before.map Prod.snd ++ [(.enqueue a, t)])) (after.map Prod.snd)), e.EndsJob
  · exact Or.inr hends
  · refine Or.inl (hp'.inFlow.mpr ?_)
    refine Place.Pending.stays (p := .waiting (.enqueued a t.now)) trivial hs fun e he hend => ?_
    exact hends ⟨e, he, hend⟩

/-- An error reply of the script comes from a queue that has the job, and nothing changed. -/
theorem unchanged_of_reply (h : s.Recorded sha1hex) {a : EnqueueArgs} {t : RedisTime}
    {before after : List (Option ℕ × (Call × RedisTime))}
    (hlog : s.log c.queueId = before ++ (some i, (.enqueue a, t)) :: after)
    (hr : ∀ k, (exec sha1hex (.enqueue a, t) (run sha1hex (before.map Prod.snd))).1 ≠
      .enqueue (.enqueued k)) : s.Unchanged sha1hex i c := by
  have hops : s.ops c.queueId = before.map Prod.snd ++ (.enqueue a, t) :: after.map Prod.snd := by
    unfold Producing.ops
    rw [hlog, List.map_append, List.map_cons]
  have hbefore : LeasesAreNumbers (before.map Prod.snd) := (h.leases c.queueId).before hops
  obtain ⟨p, hp⟩ := sound_run sha1hex hbefore a.jobId
  refine ⟨before, a, t, after, hlog, ?_⟩
  rw [run_snoc]
  by_cases hgone : p = .gone
  · subst hgone
    obtain ⟨q', hrun, -⟩ := enqueue_waits (t := t) hp
    refine absurd ?_ (hr a.jobId)
    simp only [exec, Lua.exec, runScript, hrun]
  · simp only [exec, Lua.exec, runScript, enqueue_collision hp hgone]

theorem Producing.Recorded.tells (h : s.Recorded sha1hex) (hc : s.calls[i]? = some c)
    {o : EnqueueOutcome} (hphase : c.phase = .settled o) : s.Tells sha1hex i c o := by
  have hf := h.fits i c hc
  have hs := h.shows i c hc
  unfold EnqueueCall.Fits at hf
  unfold Producing.Shows at hs
  rw [hphase] at hf
  cases o with
  | resolved jobId =>
    obtain ⟨hid, a, k, hscript⟩ := hf
    rw [hscript] at hs
    obtain ⟨hsends, -, before, t, after, hlog, hr⟩ := hs
    exact ⟨hid, stored_of_reply h hsends hlog hr.symm⟩
  | serializationError message =>
    rw [show c.script = .unsent from hf] at hs
    exact hs
  | clientConnectionError => trivial
  | clientClosedError =>
    rw [show c.script = .unsent from hf] at hs
    exact hs
  | enqueueError queueId =>
    obtain ⟨hq, hscript | ⟨a, r, hscript, hne⟩⟩ := hf
    · rw [hscript] at hs
      exact ⟨hq, Or.inl hs⟩
    · rw [hscript] at hs
      obtain ⟨-, -, before, t, after, hlog, hr⟩ := hs
      exact ⟨hq, Or.inr (unchanged_of_reply h hlog (hr ▸ hne))⟩
  | panqueueError message => exact hf

theorem Producing.Tells.congr {o : EnqueueOutcome} (h : s.Tells sha1hex i c' o)
    (hsame : c'.jobId = c.jobId ∧ c'.queueId = c.queueId ∧ c'.options = c.options) :
    s.Tells sha1hex i c o := by
  obtain ⟨jobId, queueId, options, phase, script⟩ := c
  obtain ⟨jobId', queueId', options', phase', script'⟩ := c'
  obtain ⟨rfl, rfl, rfl⟩ := hsame
  exact h

/-- The call `i` is the same, and it has ended this way. -/
def Producing.Ended (s : Producing) (i : ℕ) (c : EnqueueCall) (o : EnqueueOutcome) : Prop :=
  ∃ c', s.calls[i]? = some c' ∧ c'.phase = .settled o ∧ c'.jobId = c.jobId ∧
    c'.queueId = c.queueId ∧ c'.options = c.options

/-- A call that has ended stays what it is, when the calls that go on have not ended. -/
theorem Producing.Ended.setCall {o : EnqueueOutcome} {j : ℕ} {d e : EnqueueCall}
    (h : s.Ended i c o) (hj : s.calls[j]? = some d)
    (he : d.phase = .settled o → e.phase = .settled o ∧ e.jobId = d.jobId ∧
      e.queueId = d.queueId ∧ e.options = d.options) : (s.setCall j e).Ended i c o := by
  obtain ⟨c', hc', hphase, hid, hqueue, hoptions⟩ := h
  by_cases hji : j = i
  · subst hji
    cases hj.symm.trans hc'
    obtain ⟨hp, hid', hqueue', hoptions'⟩ := he hphase
    refine ⟨e, ?_, hp, hid'.trans hid, hqueue'.trans hqueue, hoptions'.trans hoptions⟩
    exact List.getElem?_set_self (List.getElem?_eq_some_iff.mp hj).1
  · refine ⟨c', ?_, hphase, hid, hqueue, hoptions⟩
    unfold Producing.setCall
    rw [List.getElem?_set_ne hji]
    exact hc'

theorem ProducerStep.ended {o : EnqueueOutcome} (hstep : ProducerStep sha1hex s s')
    (h : s.Ended i c o) : s'.Ended i c o := by
  cases hstep with
  | enqueue check jobId queueId options =>
    obtain ⟨d, hd, hrest⟩ := h
    have hlt : i < s.calls.length := (List.getElem?_eq_some_iff.mp hd).1
    refine ⟨d, ?_, hrest⟩
    unfold Producing.enqueue
    split
    · rw [List.getElem?_append_left hlt]
      exact hd
    · rw [List.getElem?_append_left hlt]
      exact hd
  | connection redis hr => exact h
  | connected j k d _ r text hd hphase hcall =>
    apply h.setCall hd
    intro hp
    cases hphase.symm.trans hp
  | executes j d a t hd hscript =>
    have hrec : (s.record d.queueId (some j, (.enqueue a, t))).Ended i c o := h
    exact hrec.setCall hd fun hp => ⟨hp, rfl, rfl, rfl⟩
  | replies j d a r hd hphase hscript =>
    apply h.setCall hd
    intro hp
    cases hphase.symm.trans hp
  | refuses j d a hd hphase hscript =>
    apply h.setCall hd
    intro hp
    cases hphase.symm.trans hp
  | fails j d hd hphase =>
    apply h.setCall hd
    intro hp
    cases hphase.symm.trans hp
  | other queueId op hop => exact h

/-- What the outcome of an enqueue tells. Whatever happens to the connection, to
the replies and to the queues: Redis executes the script of an enqueue call at
most once, and only on its queue. A resolved call stored its job, which has since
waited or been active, or has ended. A call that rejects with a serialization
error or because the client is closed executed nothing, then and ever after, and
one that rejects with an enqueue error changed nothing. No call rejects because
its client is not connected. -/
theorem an_outcome_tells_what_became_of_the_job
    (h : Relation.ReflTransGen (ProducerStep sha1hex) {} s) (hc : s.calls[i]? = some c) :
    (∀ queueId, s.executions i queueId ≤ if queueId = c.queueId then 1 else 0) ∧
    ∀ o, c.phase = .settled o → ∀ s', Relation.ReflTransGen (ProducerStep sha1hex) s s' →
      s'.Tells sha1hex i c o := by
  refine ⟨?_, ?_⟩
  · intro queueId
    have hs := (recorded_run h).shows i c hc
    unfold Producing.Shows at hs
    split at hs
    · rw [hs]
      exact Nat.zero_le _
    · rw [hs]
      exact Nat.zero_le _
    · rw [hs.2]
      exact Nat.zero_le _
    · rw [hs.2.1]
  · intro o hphase s' hrun
    have hended : s'.Ended i c o := by
      induction hrun with
      | refl => exact ⟨c, hc, hphase, rfl, rfl, rfl⟩
      | tail _ hstep ih => exact hstep.ended ih
    obtain ⟨c', hc', hphase', hsame⟩ := hended
    exact ((recorded_run (h.trans hrun)).tells hc' hphase').congr hsame

def sampleArgs : EnqueueArgs := ⟨"j", "{}", "mail", .ofNat 0, .ofNat 5⟩

def sampleCall (phase : EnqueuePhase) (script : ScriptCall) : EnqueueCall :=
  { jobId := "j", queueId := "mail", options := none, phase, script }

/-- The raw client of the first enqueue connects. -/
def sampleConnects : RedisConnection :=
  (RedisConnection.connect {}).setAttempt 0 { raw := .connected }

def sampleOpened : RedisConnection := (sampleConnects.afterConnect 0).afterOwned 0 0 .resolved

/-- A client whose one call stands at this phase. -/
def sampleClient (redis : RedisConnection) (phase : EnqueuePhase) (script : ScriptCall)
    (log : List (Option ℕ × (Call × RedisTime))) : Producing where
  redis := redis
  calls := [sampleCall phase script]
  log := Function.update (fun _ => []) "mail" log

/-- The script of that enqueue ran, and its reply came. -/
def sampleProduced : Producing :=
  sampleClient sampleOpened (.settled (.resolved "j"))
    (.executed sampleArgs (.enqueue (.enqueued "j")))
    [(some 0, (.enqueue sampleArgs, ⟨1, 0⟩))]

/-- The queue "mail" of the one call. -/
theorem update_nil (queueId : String) :
    Function.update (fun _ => []) queueId [] =
      fun _ : String => ([] : List (Option ℕ × (Call × RedisTime))) :=
  Function.update_eq_self queueId fun _ => []

theorem sample_run_produces : Relation.ReflTransGen (ProducerStep id) {} sampleProduced := by
  have hnew : ProducerStep id {}
      (sampleClient (RedisConnection.connect {}) (.connects 0) .unsent []) := by
    have hstep := @ProducerStep.enqueue id {} (.ok ()) "j" "mail" none
    unfold sampleClient
    rw [update_nil]
    exact hstep
  have hraw : ProducerStep id (sampleClient (RedisConnection.connect {}) (.connects 0) .unsent [])
      (sampleClient sampleConnects (.connects 0) .unsent []) :=
    .connection _ (.rawConnects 0 (by decide) rfl)
  have hattempt : ProducerStep id (sampleClient sampleConnects (.connects 0) .unsent [])
      (sampleClient (sampleConnects.afterConnect 0) (.connects 0) .unsent []) :=
    .connection _ (.connectEnds 0 (by decide) rfl (by decide))
  have hopened : ProducerStep id
      (sampleClient (sampleConnects.afterConnect 0) (.connects 0) .unsent [])
      (sampleClient sampleOpened (.connects 0) .unsent []) :=
    .connection _ (.ownerSettles 0 0 .resolved (by decide) rfl rfl)
  have hsent : ProducerStep id (sampleClient sampleOpened (.connects 0) .unsent [])
      (sampleClient sampleOpened .sends (.sent sampleArgs) []) :=
    @ProducerStep.connected id (sampleClient sampleOpened (.connects 0) .unsent []) 0 0
      (sampleCall (.connects 0) .unsent) (some 0) .resolved (some "{}") rfl rfl rfl
  have hexecuted : ProducerStep id (sampleClient sampleOpened .sends (.sent sampleArgs) [])
      (sampleClient sampleOpened .sends (.executed sampleArgs (.enqueue (.enqueued "j")))
        [(some 0, (.enqueue sampleArgs, ⟨1, 0⟩))]) := by
    have hreply : (exec id (.enqueue sampleArgs, ⟨1, 0⟩) (run id [])).1 =
        .enqueue (.enqueued "j") := by decide +kernel
    have hops : (sampleClient sampleOpened .sends (.sent sampleArgs) []).ops "mail" = [] := rfl
    have hstep := @ProducerStep.executes id (sampleClient sampleOpened .sends (.sent sampleArgs) [])
      0 (sampleCall .sends (.sent sampleArgs)) sampleArgs ⟨1, 0⟩ rfl rfl
    rw [show (sampleCall .sends (.sent sampleArgs)).queueId = "mail" from rfl, hops,
      hreply] at hstep
    unfold Producing.record at hstep
    unfold sampleClient at hstep ⊢
    rw [Function.update_idem] at hstep
    exact hstep
  have hreplies : ProducerStep id
      (sampleClient sampleOpened .sends (.executed sampleArgs (.enqueue (.enqueued "j")))
        [(some 0, (.enqueue sampleArgs, ⟨1, 0⟩))]) sampleProduced :=
    @ProducerStep.replies id
      (sampleClient sampleOpened .sends (.executed sampleArgs (.enqueue (.enqueued "j")))
        [(some 0, (.enqueue sampleArgs, ⟨1, 0⟩))])
      0 (sampleCall .sends (.executed sampleArgs (.enqueue (.enqueued "j")))) sampleArgs
      (.enqueue (.enqueued "j")) rfl rfl rfl
  exact .head hnew (.head hraw (.head hattempt (.head hopened (.head hsent (.head hexecuted
    (.single hreplies))))))

/-- The resolved call of that run stored its job. -/
theorem sample_job_is_stored :
    sampleProduced.Stored id 0 (sampleCall (.settled (.resolved "j"))
      (.executed sampleArgs (.enqueue (.enqueued "j")))) :=
  ((an_outcome_tells_what_became_of_the_job sample_run_produces rfl).2 (.resolved "j") rfl
    sampleProduced .refl).2

end Panqueue
