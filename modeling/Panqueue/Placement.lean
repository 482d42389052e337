-- The laws of the places: no job is lost, doubled, or left in two places,
-- in every run with any callers.
import Panqueue.Runs

namespace Panqueue

variable (sha1hex : String → String) {q : Queue} {i : String}

/-! ## Collections -/

/-- The id stands in the collection of this status. There is none for `delayed`. -/
def Queue.Lists (q : Queue) (i : String) : JobStatus → Prop
  | .waiting => i ∈ q.waiting
  | .active => i ∈ q.active.members
  | .completed => i ∈ q.completed.members
  | .failed => i ∈ q.failed.members
  | .delayed => False

theorem At.lists {p : Place} (h : At q i p) (s : JobStatus) :
    q.Lists i s ↔ (p.hash i).isSome ∧ p.status = s := by
  have hw : i ∈ q.waiting ↔ 0 < (p.sight i).waits := by rw [← h.waits, List.count_pos_iff]
  have ha : i ∈ q.active.members ↔ (p.sight i).lease.isSome := by
    rw [← h.lease, SortedSet.score_isSome]
  have hc : i ∈ q.completed.members ↔ ((p.sight i).finishedAt .completed).isSome := by
    rw [← h.index, SortedSet.score_isSome]
    rfl
  have hf : i ∈ q.failed.members ↔ ((p.sight i).finishedAt .failed).isSome := by
    rw [← h.index, SortedSet.score_isSome]
    rfl
  cases s <;> rcases p with _ | j | ⟨j, token, d⟩ | ⟨_ | _, j, n⟩ <;>
    simp [Queue.Lists, hw, ha, hc, hf, Place.sight, Place.hash, Place.status, FinalStatus.status]

/-- Each job key is a hash that stands in one collection, the one that its
status names, and at most once; each listed id has its hash; and the lease
fields are there for the active jobs only, with the deadline that is the score. -/
structure Placed (q : Queue) : Prop where
  one : ∀ i v, q.jobs i = some v → ∃ h s, v = .hash h ∧ h.status = some s ∧
    ∀ s', q.Lists i s' ↔ s' = s
  once : ∀ i, q.waiting.count i ≤ 1
  hash : ∀ i s, q.Lists i s → ∃ h, q.jobs i = some (.hash h)
  token : ∀ i h, q.jobs i = some (.hash h) → (h.lockToken.isSome ↔ i ∈ q.active.members)
  deadline : ∀ i h, q.jobs i = some (.hash h) → (h.leaseDeadline.isSome ↔ i ∈ q.active.members)
  score : ∀ i h d, q.jobs i = some (.hash h) → q.active.score i = some d →
    ∃ v, h.leaseDeadline = some v ∧ v.tonumber = some (.val d)

theorem At.hash_of_key {p : Place} (h : At q i p) {v : JobKey} (hv : q.jobs i = some v) :
    ∃ x, v = .hash x ∧ p.hash i = some x := by
  rw [h.key, Option.map_eq_some_iff] at hv
  obtain ⟨x, hx, rfl⟩ := hv
  exact ⟨x, rfl, hx⟩

theorem At.active_iff {p : Place} (h : At q i p) {x : JobHash} (hx : p.hash i = some x) :
    i ∈ q.active.members ↔ p.status = .active := by
  have := h.lists .active
  simpa [Queue.Lists, hx] using this

theorem Sound.placed (hq : Sound q) : Placed q where
  one i v hv := by
    obtain ⟨p, hp⟩ := hq i
    obtain ⟨x, rfl, hx⟩ := hp.hash_of_key hv
    refine ⟨x, p.status, rfl, ?_, fun s' => ?_⟩
    · cases p <;> cases hx <;> rfl
    · rw [hp.lists, hx]
      simp [eq_comm]
  once i := by
    obtain ⟨p, hp⟩ := hq i
    rw [hp.waits]
    cases p <;> simp [Place.sight]
  hash i s h := by
    obtain ⟨p, hp⟩ := hq i
    obtain ⟨x, hx⟩ := Option.isSome_iff_exists.mp ((hp.lists s).mp h).1
    exact ⟨x, by rw [hp.key, hx]; rfl⟩
  token i h hk := by
    obtain ⟨p, hp⟩ := hq i
    obtain ⟨x, hxe, hx⟩ := hp.hash_of_key hk
    cases hxe
    rw [hp.active_iff hx]
    rcases p with _ | j | ⟨j, token, d⟩ | ⟨_ | _, j, n⟩ <;> cases hx <;>
      simp [Place.status, Job.hash, FinalStatus.status]
  deadline i h hk := by
    obtain ⟨p, hp⟩ := hq i
    obtain ⟨x, hxe, hx⟩ := hp.hash_of_key hk
    cases hxe
    rw [hp.active_iff hx]
    rcases p with _ | j | ⟨j, token, d⟩ | ⟨_ | _, j, n⟩ <;> cases hx <;>
      simp [Place.status, Job.hash, FinalStatus.status]
  score i h d hk hd := by
    obtain ⟨p, hp⟩ := hq i
    obtain ⟨x, hxe, hx⟩ := hp.hash_of_key hk
    cases hxe
    rw [hp.lease] at hd
    cases p with
    | active j token d' =>
      cases hx
      cases hd
      exact ⟨_, rfl, Numeral.tonumber_ofLua _⟩
    | _ => cases hd

/-! ## The end of a job -/

/-- The job stands in the waiting list or in the active set. -/
def Queue.InFlow (q : Queue) (i : String) : Prop := q.Lists i .waiting ∨ q.Lists i .active

theorem At.inFlow {p : Place} (h : At q i p) : q.InFlow i ↔ p.Pending := by
  rw [Queue.InFlow, h.lists, h.lists]
  rcases p with _ | j | ⟨j, token, d⟩ | ⟨_ | _, j, n⟩ <;>
    simp [Place.hash, Place.status, Place.Pending, FinalStatus.status]

/-- One more of `used` is over the budget. -/
def OverBudget (used budget : Option Numeral) : Prop :=
  ∃ n m, used = some (.int n) ∧ budget.bind Numeral.tonumber = some m ∧ ¬ Double.ofInt (n + 1) ≤ m

/-- A call with its reply ends job `i` of the queue `q`: a complete with the
current token, a fail with it that is over the retry budget, or a recover that
is over the stall budget. -/
inductive Ended (q : Queue) (i : String) : Call × RedisTime → Reply → Prop
  | complete (a : CompleteArgs) (t : RedisTime) (h : JobHash) (ha : a.jobId = i)
      (hk : q.jobs i = some (.hash h)) (ht : h.lockToken = some a.lockToken) :
      Ended q i (.complete a, t) (.complete .completed)
  | fail (a : FailArgs) (t : RedisTime) (h : JobHash) (ha : a.jobId = i)
      (hk : q.jobs i = some (.hash h)) (ht : h.lockToken = some a.lockToken)
      (hb : OverBudget h.failures h.maxRetries) :
      Ended q i (.fail a, t) (.fail .failed)
  | recover (a : RecoverArgs) (t : RedisTime) (es : List RecoverEntry) (h h' : JobHash)
      (hmem : .job .failed h' ∈ es) (hi : h'.id = some i) (hk : q.jobs i = some (.hash h))
      (hb : OverBudget h.stalls h.maxStalls) :
      Ended q i (.recover a, t) (.recover es)

theorem overBudget_of {used : ℕ} {budget : Double} (h : ¬ Double.ofNat (used + 1) ≤ budget) :
    OverBudget (some (.int used)) (some (.ofDouble budget)) := by
  refine ⟨used, budget, rfl, by simp, ?_⟩
  have he : Double.ofInt (used + 1) = Double.ofNat (used + 1) := by
    simp [Double.ofInt, Double.ofNat]
  rwa [he]

/-- The act that ends a job comes from a call that ends it. -/
theorem JobStep.ended {issue : ℕ → ℕ → String} {p p' : Place} {e : Act}
    (hs : JobStep issue p [e] p') (he : e.EndsJob) (hp : At q i p) {op : Call × RedisTime}
    {r : Reply} (ho : e.Of i op r) : Ended q i op r := by
  cases hs with
  | complete j token d now =>
    obtain ⟨a, hop, hr, ha, ht, -⟩ := ho
    rw [hop, hr]
    exact .complete a _ _ ha hp.key (by rw [← ht])
  | fail j token d error now h =>
    obtain ⟨a, hop, hr, ha, ht, -⟩ := ho
    rw [hop, hr]
    exact .fail a _ _ ha hp.key (by rw [← ht]) (overBudget_of h)
  | stallOut j token d reason now hd h =>
    obtain ⟨a, es, x, hop, hr, hmem, hi, -⟩ := ho
    rw [hop, hr]
    exact .recover a _ es _ x hmem hi hp.key (overBudget_of h)
  | _ => cases he

/-- The calls that can end a job. -/
theorem Act.EndsJob.call {op : Call × RedisTime} {r : Reply} {e : Act} (he : e.EndsJob)
    (ho : e.Of i op r) :
    (∃ a, op.1 = .complete a) ∨ (∃ a, op.1 = .fail a) ∨ ∃ a, op.1 = .recover a := by
  cases e with
  | complete _ _ =>
    obtain ⟨a, h, -⟩ := ho
    exact Or.inl ⟨a, by rw [h]⟩
  | fail _ _ _ =>
    obtain ⟨a, h, -⟩ := ho
    exact Or.inr (Or.inl ⟨a, by rw [h]⟩)
  | stallOut _ _ =>
    obtain ⟨a, _, _, h, -⟩ := ho
    exact Or.inr (Or.inr ⟨a, by rw [h]⟩)
  | _ => cases he

/-- A call that can end a job neither claims nor renews it. -/
theorem Act.EndsJob.alone {op : Call × RedisTime} {r : Reply} {e e' : Act} (he : e.EndsJob)
    (ho : e.Of i op r) (ho' : e'.Of i op r) :
    (∀ token now d, e' ≠ .claim token now d) ∧ ∀ token d, e' ≠ .extend token d := by
  have hop := he.call ho
  constructor
  · rintro token now d rfl
    obtain ⟨a, _, _, h, -⟩ := ho'
    rcases hop with ⟨_, h1⟩ | ⟨_, h1⟩ | ⟨_, h1⟩ <;> rw [h] at h1 <;> cases h1
  · rintro token d rfl
    obtain ⟨a, h, -⟩ := ho'
    rcases hop with ⟨_, h1⟩ | ⟨_, h1⟩ | ⟨_, h1⟩ <;> rw [h] at h1 <;> cases h1

/-- A call that takes a job out of the flow does so by the first thing it does to the job. -/
theorem first_act_ends {issue : ℕ → ℕ → String} {p p' : Place} {op : Call × RedisTime} {r : Reply}
    (hp : p.Pending) (hp' : ¬ p'.Pending) (h : Reaches (JobStep issue) p (actsOf i (op, r)) p') :
    ∃ e b, JobStep issue p [e] b ∧ e.EndsJob ∧ e.Of i op r := by
  obtain ⟨e, hmem, hends⟩ : ∃ e ∈ actsOf i (op, r), e.EndsJob := by
    by_contra hno
    exact hp' (hp.stays h fun e hm he => hno ⟨e, hm, he⟩)
  have hof := fun e' (hm : e' ∈ actsOf i (op, r)) => of_mem_actsOf hm
  have halone := fun e' (hm : e' ∈ actsOf i (op, r)) => hends.alone (hof e hmem) (hof e' hm)
  generalize actsOf i (op, r) = es at h hmem hof halone
  cases es with
  | nil => cases hmem
  | cons e1 rest =>
    obtain ⟨b, hs, hrest⟩ := hp.uncons h
    by_cases he1 : e1.EndsJob
    · exact ⟨e1, b, hs, he1, hof e1 (by simp)⟩
    · -- the first act gives the job back, and then only a claim could follow
      have hb : ∃ j, b = .waiting j := by
        have h1 := halone e1 (by simp)
        cases hs with
        | enqueue => cases hp
        | claim => exact absurd rfl (h1.1 _ _ _)
        | extend => exact absurd rfl (h1.2 _ _)
        | retry j _ _ error now _ => exact ⟨_, rfl⟩
        | stall j _ _ reason now _ _ => exact ⟨_, rfl⟩
        | requeue j _ _ reason now => exact ⟨_, rfl⟩
        | _ => exact absurd trivial he1
      obtain ⟨j, rfl⟩ := hb
      cases rest with
      | nil =>
        rw [List.mem_singleton] at hmem
        exact absurd (hmem ▸ hends) he1
      | cons e2 rest =>
        obtain ⟨c, hs2, -⟩ := Place.Pending.uncons (p := .waiting j) trivial hrest
        cases hs2
        exact absurd rfl ((halone _ (List.mem_cons_of_mem _ List.mem_cons_self)).1 _ _ _)

/-! ## The laws -/

/-- A reply that names no pointer without a hash. -/
def Reply.NoCorrupt : Reply → Prop
  | .claimGlobalBatch es => ∀ k, .corrupt k ∉ es
  | .recover es => ∀ k, .corrupt k ∉ es
  | _ => True

theorem exec_noCorrupt (op : Call × RedisTime) (hop : op.1.LeaseIsNumber) (hq : Sound q) :
    (exec sha1hex op q).1.NoCorrupt := by
  have ho := (exec_moves sha1hex op hop hq).2
  obtain ⟨call, t⟩ := op
  cases call with
  | claimGlobalBatch a =>
    obtain ⟨es, d, hr, -, -, hes⟩ := ho
    rw [hr]
    intro k hk
    obtain ⟨_, _, _, _, he, -⟩ := hes _ hk
    cases he
  | recover a =>
    obtain ⟨es, hr, hes⟩ := ho
    rw [hr]
    intro k hk
    obtain ⟨_, _, _, ⟨he, -⟩ | ⟨he, -⟩⟩ := hes _ hk <;> cases he
  | _ =>
    simp only [exec, Lua.exec, runScript]
    split <;> trivial

/-- In every run, each job stands in one place that its status names, no id
lacks its hash, claims and recoveries meet no corrupt pointer, and a job leaves
the flow by its end only. -/
theorem each_job_stands_in_one_place (ops : List (Call × RedisTime)) (hl : LeasesAreNumbers ops) :
    Placed (run sha1hex ops) ∧
      ∀ op : Call × RedisTime, op.1.LeaseIsNumber →
        (exec sha1hex op (run sha1hex ops)).1.NoCorrupt ∧
        ∀ i, (run sha1hex ops).InFlow i → ¬ (exec sha1hex op (run sha1hex ops)).2.InFlow i →
          Ended (run sha1hex ops) i op (exec sha1hex op (run sha1hex ops)).1 := by
  have hq := sound_run sha1hex hl
  refine ⟨hq.placed, fun op hop => ⟨exec_noCorrupt sha1hex op hop hq, fun i hi hi' => ?_⟩⟩
  obtain ⟨p, hp⟩ := hq i
  obtain ⟨p', hp', hs⟩ := exec_refines sha1hex hl hop hp
  rw [hp.inFlow] at hi
  rw [hp'.inFlow] at hi'
  obtain ⟨e, b, hstep, hends, hof⟩ := first_act_ends hi hi' hs
  exact hstep.ended hends hp hof

theorem sample_job_ends_by_complete :
    Ended (run id sampleOps) "j" (.complete ⟨"j", "j:2000:1", ⟨.delete, -1, -1⟩⟩, ⟨3, 0⟩)
      (.complete .completed) := by
  have h := ((each_job_stands_in_one_place id sampleOps (by decide)).2
    (.complete ⟨"j", "j:2000:1", ⟨.delete, -1, -1⟩⟩, ⟨3, 0⟩) trivial).2 "j"
    (by unfold Queue.InFlow Queue.Lists; decide +kernel)
    (by unfold Queue.InFlow Queue.Lists; decide +kernel)
  have hr : (exec id (.complete ⟨"j", "j:2000:1", ⟨.delete, -1, -1⟩⟩, ⟨3, 0⟩)
      (run id sampleOps)).1 = .complete .completed := by decide +kernel
  rwa [hr] at h

end Panqueue
