-- The laws of the stored record of a job: while TIME never goes backwards, its
-- counters, timestamps and reasons tell one life, at every moment of every run.
import Panqueue.Leases
import Panqueue.Placement

namespace Panqueue

/-! ## One record -/

namespace Job

/-- When attempts of the job ended, as far as the record has it. -/
def ends (j : Job) : List ℕ :=
  j.lastFailedAt.toList ++ j.lastStalledAt.toList ++ j.lastRequeuedAt.toList

/-- The record of a job at `now` is of one piece. -/
structure Told (now : ℕ) (j : Job) : Prop where
  created : j.createdAt ≤ now
  started : ∀ t ∈ j.lastStartedAt, j.createdAt ≤ t ∧ t ≤ now
  ended : ∀ t ∈ j.ends, j.createdAt ≤ t ∧ t ≤ now
  runs : j.runs = 0 ↔ j.lastStartedAt = none
  failures : j.failures = 0 ↔ j.lastFailedAt = none
  stalls : j.stalls = 0 ↔ j.lastStalledAt = none
  requeues : j.lastRequeueReason = none ↔ j.lastRequeuedAt = none
  error : j.lastError = none ↔ j.failures = 0
  reason : j.failedReason = none ↔ j.failureKind = none
  kind : j.failureKind = none ↔ j.failures = 0 ∧ j.stalls = 0
  handler : j.failureKind = some .handler → j.failedReason = j.lastError ∧
    ∃ t, j.lastFailedAt = some t ∧ ∀ t' ∈ j.lastStalledAt, t' ≤ t
  stalled : j.failureKind = some .stalled →
    ∃ t, j.lastStalledAt = some t ∧ ∀ t' ∈ j.lastFailedAt, t' ≤ t

/-- The last attempt began at `t`, after all ends of earlier ones. -/
def Attempts (j : Job) (t : ℕ) : Prop := j.lastStartedAt = some t ∧ ∀ t' ∈ j.ends, t' ≤ t

/-- The last failure of the job came at `t`. -/
def FailedAt (j : Job) (t : ℕ) : Prop :=
  (j.failureKind = some .handler ∧ j.lastFailedAt = some t ∧ ¬ j.MayRetry) ∨
    (j.failureKind = some .stalled ∧ j.lastStalledAt = some t ∧ ¬ j.MayStall)

variable {j : Job} {now now' : ℕ}

theorem mem_ends {t : ℕ} : t ∈ j.ends ↔
    j.lastFailedAt = some t ∨ j.lastStalledAt = some t ∨ j.lastRequeuedAt = some t := by
  unfold ends
  simp only [List.mem_append, Option.mem_toList, or_assoc]

theorem Told.mono (h : j.Told now) (hle : now ≤ now') : j.Told now' :=
  { h with
    created := Nat.le_trans h.created hle
    started := fun t ht => ⟨(h.started t ht).1, Nat.le_trans (h.started t ht).2 hle⟩
    ended := fun t ht => ⟨(h.ended t ht).1, Nat.le_trans (h.ended t ht).2 hle⟩ }

theorem told_enqueued (a : EnqueueArgs) (now : ℕ) : (enqueued a now).Told now where
  created := Nat.le_refl now
  started t ht := by cases ht
  ended t ht := by cases ht
  runs := by simp [enqueued]
  failures := by simp [enqueued]
  stalls := by simp [enqueued]
  requeues := by simp [enqueued]
  error := by simp [enqueued]
  reason := by simp [enqueued]
  kind := by simp [enqueued]
  handler h := by cases h
  stalled h := by cases h

theorem Told.claimed (h : j.Told now) : (j.claimed now).Told now :=
  { h with
    started := fun t ht => by
      cases ht
      exact ⟨h.created, Nat.le_refl _⟩
    runs := by simp [Job.claimed] }

theorem Told.failed (h : j.Told now) (error : String) : (j.failed error now).Told now :=
  { h with
    ended := fun t ht => by
      rcases mem_ends.mp ht with ht | ht
      · cases ht
        exact ⟨h.created, Nat.le_refl _⟩
      · exact h.ended t (mem_ends.mpr (Or.inr ht))
    failures := by simp [Job.failed]
    error := by simp [Job.failed]
    reason := by simp [Job.failed]
    kind := by simp [Job.failed]
    handler := fun _ => ⟨rfl, now, rfl, fun t ht =>
      (h.ended t (mem_ends.mpr (Or.inr (Or.inl ht)))).2⟩
    stalled := fun hk => by cases hk }

theorem Told.stall (h : j.Told now) (reason : String) : (j.stalled reason now).Told now :=
  { h with
    ended := fun t ht => by
      rcases mem_ends.mp ht with ht | ht | ht
      · exact h.ended t (mem_ends.mpr (Or.inl ht))
      · cases ht
        exact ⟨h.created, Nat.le_refl _⟩
      · exact h.ended t (mem_ends.mpr (Or.inr (Or.inr ht)))
    stalls := by simp [Job.stalled]
    reason := by simp [Job.stalled]
    kind := by simp [Job.stalled]
    handler := fun hk => by cases hk
    stalled := fun _ => ⟨now, rfl, fun t ht => (h.ended t (mem_ends.mpr (Or.inl ht))).2⟩ }

theorem Told.requeued (h : j.Told now) (reason : String) : (j.requeued reason now).Told now :=
  { h with
    ended := fun t ht => by
      rcases mem_ends.mp ht with ht | ht | ht
      · exact h.ended t (mem_ends.mpr (Or.inl ht))
      · exact h.ended t (mem_ends.mpr (Or.inr (Or.inl ht)))
      · cases ht
        exact ⟨h.created, Nat.le_refl _⟩
    requeues := by simp [Job.requeued] }

/-- A claim comes after all ends of earlier attempts. -/
theorem Told.attempts (h : j.Told now) : (j.claimed now).Attempts now :=
  ⟨rfl, fun t ht => (h.ended t ht).2⟩

end Job

/-! ## The record at its place -/

/-- What the record of a job at its place tells at `now`. A job that waits again has
an end after its last start. One that is active has begun after all ends, and a
finished one ended after that, in a failure that its record names unless it completed. -/
def Place.Told (now : ℕ) : Place → Prop
  | gone => True
  | waiting j => j.Told now ∧ ∀ t ∈ j.lastStartedAt, ∃ t' ∈ j.ends, t ≤ t'
  | active j _ _ => j.Told now ∧ ∃ t, j.Attempts t
  | finished .completed j endedAt => j.Told now ∧ endedAt ≤ now ∧ ∃ t, j.Attempts t ∧ t ≤ endedAt
  | finished .failed j endedAt => j.Told now ∧ endedAt ≤ now ∧ j.FailedAt endedAt ∧
      (∃ t, j.lastStartedAt = some t ∧ t ≤ endedAt) ∧ ∀ t ∈ j.ends, t ≤ endedAt

/-- The act happened at `now`, if it writes a time to the record. -/
def Act.At (now : ℕ) : Act → Prop
  | enqueue _ t | claim _ t _ | complete _ t | retry _ _ t | fail _ _ t | stall _ t | stallOut _ t
  | requeue _ _ t => t = now
  | extend _ _ => True

theorem Place.Told.mono {p : Place} {now now' : ℕ} (h : p.Told now) (hle : now ≤ now') :
    p.Told now' := by
  cases p with
  | gone => trivial
  | waiting j => exact ⟨h.1.mono hle, h.2⟩
  | active j token d => exact ⟨h.1.mono hle, h.2⟩
  | finished s j endedAt =>
    cases s with
    | completed => exact ⟨h.1.mono hle, Nat.le_trans h.2.1 hle, h.2.2⟩
    | failed => exact ⟨h.1.mono hle, Nat.le_trans h.2.1 hle, h.2.2⟩

/-- The step lemma. -/
theorem JobStep.told {issue : ℕ → ℕ → String} {p p' : Place} {es : List Act} {now : ℕ}
    (h : JobStep issue p es p') (hp : p.Told now) (hes : ∀ e ∈ es, e.At now) : p'.Told now := by
  cases h with
  | enqueue a t =>
    obtain rfl := hes _ (List.mem_singleton_self _)
    exact ⟨Job.told_enqueued a t, fun _ ht => by cases ht⟩
  | claim j t d =>
    obtain rfl := hes _ (List.mem_singleton_self _)
    exact ⟨hp.1.claimed, t, hp.1.attempts⟩
  | extend j token d d' => exact hp
  | complete j token d t =>
    obtain rfl := hes _ (List.mem_singleton_self _)
    obtain ⟨hj, t', hattempts⟩ := hp
    exact ⟨hj, Nat.le_refl _, t', hattempts, (hj.started t' hattempts.1).2⟩
  | retry j token d error t hm =>
    obtain rfl := hes _ (List.mem_singleton_self _)
    obtain ⟨hj, t', hattempts⟩ := hp
    refine ⟨hj.failed error, fun x hx => ⟨t, Job.mem_ends.mpr (Or.inl rfl), (hj.started x hx).2⟩⟩
  | fail j token d error t hm =>
    obtain rfl := hes _ (List.mem_singleton_self _)
    obtain ⟨hj, t', hattempts⟩ := hp
    refine ⟨hj.failed error, Nat.le_refl _, Or.inl ⟨rfl, rfl, hm⟩,
      ⟨t', hattempts.1, (hj.started t' hattempts.1).2⟩, fun x hx => ?_⟩
    exact ((hj.failed error).ended x hx).2
  | stall j token d reason t hd hm =>
    obtain rfl := hes _ (List.mem_singleton_self _)
    obtain ⟨hj, t', hattempts⟩ := hp
    refine ⟨hj.stall reason, fun x hx => ⟨t, Job.mem_ends.mpr (Or.inr (Or.inl rfl)), ?_⟩⟩
    exact (hj.started x hx).2
  | stallOut j token d reason t hd hm =>
    obtain rfl := hes _ (List.mem_singleton_self _)
    obtain ⟨hj, t', hattempts⟩ := hp
    refine ⟨hj.stall reason, Nat.le_refl _, Or.inr ⟨rfl, rfl, hm⟩,
      ⟨t', hattempts.1, (hj.started t' hattempts.1).2⟩, fun x hx => ?_⟩
    exact ((hj.stall reason).ended x hx).2
  | requeue j token d reason t =>
    obtain rfl := hes _ (List.mem_singleton_self _)
    obtain ⟨hj, t', hattempts⟩ := hp
    refine ⟨hj.requeued reason, fun x hx => ⟨t, Job.mem_ends.mpr (Or.inr (Or.inr rfl)), ?_⟩⟩
    exact (hj.started x hx).2
  | evict s j t => trivial

/-- All acts of one call happen at its time. -/
theorem Act.Of.at_time {i : String} {op : Call × RedisTime} {r : Reply} {e : Act}
    (h : e.Of i op r) : e.At op.2.now := by
  cases e with
  | enqueue a now => exact h.2.2.1
  | claim token now d =>
    obtain ⟨a, es, x, -, -, -, -, -, hnow, -⟩ := h
    exact hnow
  | extend token d => trivial
  | complete token now =>
    obtain ⟨a, -, -, -, -, hnow⟩ := h
    exact hnow
  | retry token error now =>
    obtain ⟨a, -, -, -, -, -, hnow⟩ := h
    exact hnow
  | fail token error now =>
    obtain ⟨a, -, -, -, -, -, hnow⟩ := h
    exact hnow
  | stall reason now =>
    obtain ⟨a, es, x, -, -, -, -, -, hnow⟩ := h
    exact hnow
  | stallOut reason now =>
    obtain ⟨a, es, x, -, -, -, -, -, hnow⟩ := h
    exact hnow
  | requeue token reason now =>
    obtain ⟨a, -, -, -, -, -, hnow⟩ := h
    exact hnow

/-! ## Two records of one life -/

/-- A time is not before another. What has no time yet is before all that has one. -/
def NotBefore (a b : Option ℕ) : Prop := ∀ t ∈ a, ∃ t' ∈ b, t ≤ t'

theorem NotBefore.refl (a : Option ℕ) : NotBefore a a := fun t ht => ⟨t, ht, Nat.le_refl t⟩

theorem NotBefore.trans {a b c : Option ℕ} (h : NotBefore a b) (h' : NotBefore b c) :
    NotBefore a c := by
  intro t ht
  obtain ⟨t', ht', hle⟩ := h t ht
  obtain ⟨t'', ht'', hle'⟩ := h' t' ht'
  exact ⟨t'', ht'', Nat.le_trans hle hle'⟩

/-- The second record is a later one of the same life. -/
structure Job.Grows (j j' : Job) : Prop where
  createdAt : j'.createdAt = j.createdAt
  runs : j.runs ≤ j'.runs
  failures : j.failures ≤ j'.failures
  stalls : j.stalls ≤ j'.stalls
  started : NotBefore j.lastStartedAt j'.lastStartedAt
  failed : NotBefore j.lastFailedAt j'.lastFailedAt
  stalled : NotBefore j.lastStalledAt j'.lastStalledAt
  requeued : NotBefore j.lastRequeuedAt j'.lastRequeuedAt

namespace Job

variable {j j' j'' : Job} {now : ℕ}

theorem Grows.refl (j : Job) : j.Grows j :=
  ⟨rfl, Nat.le_refl _, Nat.le_refl _, Nat.le_refl _, .refl _, .refl _, .refl _, .refl _⟩

theorem Grows.trans (h : j.Grows j') (h' : j'.Grows j'') : j.Grows j'' :=
  ⟨h'.createdAt.trans h.createdAt, Nat.le_trans h.runs h'.runs, Nat.le_trans h.failures h'.failures,
    Nat.le_trans h.stalls h'.stalls, h.started.trans h'.started, h.failed.trans h'.failed,
    h.stalled.trans h'.stalled, h.requeued.trans h'.requeued⟩

theorem Told.grows_claimed (h : j.Told now) : j.Grows (j.claimed now) :=
  { Grows.refl j with
    runs := Nat.le_succ _
    started := fun t ht => ⟨now, rfl, (h.started t ht).2⟩ }

theorem Told.grows_failed (h : j.Told now) (error : String) : j.Grows (j.failed error now) :=
  { Grows.refl j with
    failures := Nat.le_succ _
    failed := fun t ht => ⟨now, rfl, (h.ended t (mem_ends.mpr (Or.inl ht))).2⟩ }

theorem Told.grows_stalled (h : j.Told now) (reason : String) : j.Grows (j.stalled reason now) :=
  { Grows.refl j with
    stalls := Nat.le_succ _
    stalled := fun t ht => ⟨now, rfl, (h.ended t (mem_ends.mpr (Or.inr (Or.inl ht)))).2⟩ }

theorem Told.grows_requeued (h : j.Told now) (reason : String) :
    j.Grows (j.requeued reason now) :=
  { Grows.refl j with
    requeued := fun t ht => ⟨now, rfl, (h.ended t (mem_ends.mpr (Or.inr (Or.inr ht)))).2⟩ }

end Job

/-- A job at the place has a later record than `j`. -/
def Place.Grows (j : Job) (p : Place) : Prop := ∀ j', p.job = some j' → j.Grows j'

theorem JobStep.grows {issue : ℕ → ℕ → String} {p p' : Place} {es : List Act} {now : ℕ} {j : Job}
    (h : JobStep issue p es p') (hp : p.Told now) (hes : ∀ e ∈ es, e.At now)
    (hno : ∀ a t, Act.enqueue a t ∉ es) (hg : p.Grows j) : p'.Grows j := by
  cases h with
  | enqueue a t => exact absurd (List.mem_singleton_self _) (hno a t)
  | claim k t d =>
    obtain rfl := hes _ (List.mem_singleton_self _)
    intro j' hj'
    cases hj'
    exact (hg k rfl).trans hp.1.grows_claimed
  | extend k token d d' => exact hg
  | complete k token d t => exact hg
  | retry k token d error t hm =>
    obtain rfl := hes _ (List.mem_singleton_self _)
    intro j' hj'
    cases hj'
    exact (hg k rfl).trans (hp.1.grows_failed error)
  | fail k token d error t hm =>
    obtain rfl := hes _ (List.mem_singleton_self _)
    intro j' hj'
    cases hj'
    exact (hg k rfl).trans (hp.1.grows_failed error)
  | stall k token d reason t hd hm =>
    obtain rfl := hes _ (List.mem_singleton_self _)
    intro j' hj'
    cases hj'
    exact (hg k rfl).trans (hp.1.grows_stalled reason)
  | stallOut k token d reason t hd hm =>
    obtain rfl := hes _ (List.mem_singleton_self _)
    intro j' hj'
    cases hj'
    exact (hg k rfl).trans (hp.1.grows_stalled reason)
  | requeue k token d reason t =>
    obtain rfl := hes _ (List.mem_singleton_self _)
    intro j' hj'
    cases hj'
    exact (hg k rfl).trans (hp.1.grows_requeued reason)
  | evict s k t =>
    intro j' hj'
    cases hj'

/-! ## The whole run -/

theorem Place.Told.run {issue : ℕ → ℕ → String} {p p' : Place} {es : List Act} {now : ℕ}
    (hp : p.Told now) (h : Reaches (JobStep issue) p es p') (hes : ∀ e ∈ es, e.At now) :
    p'.Told now := by
  induction h with
  | start => exact hp
  | next _ hst ih =>
    exact hst.told (ih fun e he => hes e (List.mem_append_left _ he)) fun e he =>
      hes e (List.mem_append_right _ he)

theorem Place.Grows.run {issue : ℕ → ℕ → String} {p p' : Place} {es : List Act} {now : ℕ}
    {j : Job} (hg : p.Grows j) (h : Reaches (JobStep issue) p es p') (hp : p.Told now)
    (hes : ∀ e ∈ es, e.At now) (hno : ∀ a t, Act.enqueue a t ∉ es) : p'.Grows j := by
  induction h with
  | start => exact hg
  | next hrun hst ih =>
    have hleft := fun e he => hes e (List.mem_append_left _ he)
    refine hst.grows (hp.run hrun hleft) (fun e he => hes e (List.mem_append_right _ he)) ?_ ?_
    · exact fun a t he => hno a t (List.mem_append_right _ he)
    · exact ih hleft fun a t he => hno a t (List.mem_append_left _ he)

variable (sha1hex : String → String) {ops mid : List (Call × RedisTime)} {i : String} {j : Job}
  {p p' : Place} {now : ℕ}

/-- In each state of a run, the record is of one piece. -/
theorem told_run (hl : LeasesAreNumbers ops) (ht : TimeForward ops)
    (hnow : ∀ op ∈ ops, op.2.now ≤ now) (hp : At (run sha1hex ops) i p) : p.Told now := by
  induction ops using List.reverseRecOn generalizing now p with
  | nil =>
    obtain rfl := hp.unique (at_empty i)
    trivial
  | append_singleton ops op ih =>
    obtain ⟨hforward, -, hlast⟩ := List.pairwise_append.mp ht
    obtain ⟨p₀, hp₀⟩ := sound_run sha1hex hl.left i
    have htold := ih hl.left hforward
      (fun op' hop' => hlast op' hop' op (List.mem_singleton_self _)) hp₀
    obtain ⟨p₁, hp₁, hsteps⟩ :=
      exec_refines sha1hex hl.left (hl op (List.mem_append_right _ (List.mem_singleton_self _))) hp₀
    rw [run_snoc] at hp
    obtain rfl := hp.unique hp₁
    refine (htold.run hsteps fun e he => (of_mem_actsOf he).at_time).mono ?_
    exact hnow op (List.mem_append_right _ (List.mem_singleton_self _))

/-- Later records of one life are later in each counter and each time. -/
theorem grows_run (hl : LeasesAreNumbers (ops ++ mid)) (ht : TimeForward (ops ++ mid))
    (hp : At (run sha1hex ops) i p) (hg : p.Grows j)
    (hno : ∀ a t, Act.enqueue a t ∉ historyFrom sha1hex ops mid i)
    (hp' : At (run sha1hex (ops ++ mid)) i p') : p'.Grows j := by
  induction mid using List.reverseRecOn generalizing p' with
  | nil =>
    rw [List.append_nil] at hp'
    obtain rfl := hp.unique hp'
    exact hg
  | append_singleton mid op ih =>
    rw [← List.append_assoc] at hl ht hp'
    obtain ⟨hforward, -, hlast⟩ := List.pairwise_append.mp ht
    obtain ⟨p₀, hp₀⟩ := sound_run sha1hex hl.left i
    have htold := told_run sha1hex hl.left hforward
      (fun op' hop' => hlast op' hop' op (List.mem_singleton_self _)) hp₀
    obtain ⟨p₁, hp₁, hsteps⟩ :=
      exec_refines sha1hex hl.left (hl op (List.mem_append_right _ (List.mem_singleton_self _))) hp₀
    rw [run_snoc] at hp'
    obtain rfl := hp'.unique hp₁
    unfold historyFrom at hno ih
    rw [Machine.trace_snoc, history_append] at hno
    have hg₀ := ih hl.left hforward (fun a t he => hno a t (List.mem_append_left _ he)) hp₀
    refine hg₀.run hsteps htold (fun e he => (of_mem_actsOf he).at_time) fun a t he => ?_
    refine hno a t (List.mem_append_right _ ?_)
    rw [← run_append]
    exact List.mem_flatMap.mpr ⟨_, List.mem_singleton_self _, he⟩

/-- While TIME never goes backwards, the stored record of a job tells its life: its
times lie between its creation and now, a counter is zero as long as its time is
missing, an active job began after all earlier attempts ended, a job that waits
again has an end after its last start, and a failed one names the failure that
finished it. From one moment of a life to a later one, each counter and each time
stays or grows. -/
theorem the_record_tells_the_life {h : JobHash} (hl : LeasesAreNumbers (ops ++ mid))
    (ht : TimeForward (ops ++ mid)) (hnow : ∀ op ∈ ops ++ mid, op.2.now ≤ now)
    (hh : (run sha1hex (ops ++ mid)).jobs i = some (.hash h)) :
    ∃ p' j', p'.job = some j' ∧ p'.hash i = some h ∧ At (run sha1hex (ops ++ mid)) i p' ∧
      p'.Told now ∧ ∀ p j, At (run sha1hex ops) i p → p.job = some j →
        (∀ a t, Act.enqueue a t ∉ historyFrom sha1hex ops mid i) → j.Grows j' := by
  obtain ⟨p', hp'⟩ := sound_run sha1hex hl i
  obtain ⟨x, hx, hhash⟩ := hp'.hash_of_key hh
  cases hx
  obtain ⟨j', hj'⟩ : ∃ j', p'.job = some j' := by
    cases p' with
    | gone => cases hhash
    | waiting j | active j _ _ | finished _ j _ => exact ⟨j, rfl⟩
  refine ⟨p', j', hj', hhash, hp', told_run sha1hex hl ht hnow hp', ?_⟩
  intro p j hp hj hno
  refine grows_run sha1hex hl ht hp (fun k hk => ?_) hno hp' j' hj'
  rw [hj] at hk
  cases hk
  exact Job.Grows.refl j

/-- A sweep past the deadline of the sample claim. -/
def sampleStall : List (Call × RedisTime) :=
  [(.recover ⟨1, "stalled: lease expired", ⟨.keep, -1, -1⟩⟩, ⟨40, 0⟩)]

/-- The sample job after its lease has run out. -/
theorem sample_record_tells_a_stall : ∃ p j, p.job = some j ∧ p.Told 40000 ∧
    At (run id (sampleOps ++ sampleStall)) "j" p ∧
    ∀ p₀ j₀, At (run id sampleOps) "j" p₀ → p₀.job = some j₀ → j₀.Grows j := by
  have hl : LeasesAreNumbers (sampleOps ++ sampleStall) := by
    unfold LeasesAreNumbers
    decide
  have ht : TimeForward (sampleOps ++ sampleStall) := by
    unfold TimeForward
    decide
  have hsome : ((run id (sampleOps ++ sampleStall)).jobs "j").isSome := by decide +kernel
  obtain ⟨v, hv⟩ := Option.isSome_iff_exists.mp hsome
  obtain ⟨p₁, hp₁⟩ := sound_run id hl "j"
  obtain ⟨h, rfl, -⟩ := hp₁.hash_of_key hv
  have hnow : ∀ op ∈ sampleOps ++ sampleStall, op.2.now ≤ 40000 := by decide
  obtain ⟨p, j, hj, -, hp, htold, hgrows⟩ := the_record_tells_the_life id hl ht hnow hv
  have hno : historyFrom id sampleOps sampleStall "j" =
      [.stall "stalled: lease expired" 40000] := by
    decide +kernel
  refine ⟨p, j, hj, htold, hp, fun p₀ j₀ hp₀ hj₀ => hgrows p₀ j₀ hp₀ hj₀ fun a t ha => ?_⟩
  rw [hno] at ha
  cases List.mem_singleton.mp ha

end Panqueue
