-- What a script about one job leaves alone, on any queue at all: also where
-- job keys hold anything, and where a command fails halfway.
import Panqueue.Permits

namespace Panqueue

variable {q q' q'' : Queue} {t : RedisTime} {i x : String} {α β : Type}

/-! ## Scripts about one job -/

/-- A script about job `i` ran, perhaps up to an error: it pushed nothing but
`i`, changed no lease but that of `i`, and wrote no hash but that of `i`.
Retention may have deleted others. -/
structure Touches (i : String) (q q' : Queue) : Prop where
  concurrency : q'.concurrency = q.concurrency
  waiting : ∃ n, q'.waiting = List.replicate n i ++ q.waiting
  active : ∀ k ≠ i, q'.active.score k = q.active.score k
  jobs : ∀ k ≠ i, q'.jobs k = q.jobs k ∨ q'.jobs k = none

theorem Touches.refl (i : String) (q : Queue) : Touches i q q :=
  ⟨rfl, ⟨0, rfl⟩, fun _ _ => rfl, fun _ _ => Or.inl rfl⟩

theorem Touches.trans (h : Touches i q q') (h' : Touches i q' q'') : Touches i q q'' := by
  refine ⟨h'.concurrency.trans h.concurrency, ?_, ?_, ?_⟩
  · obtain ⟨m, hm⟩ := h.waiting
    obtain ⟨n, hn⟩ := h'.waiting
    exact ⟨n + m, by rw [hn, hm, ← List.append_assoc, List.replicate_append_replicate]⟩
  · intro k hk
    rw [h'.active k hk, h.active k hk]
  · intro k hk
    rcases h'.jobs k hk with h1 | h1
    · rw [h1]
      exact h.jobs k hk
    · exact Or.inr h1

/-- The script is about job `i` only. -/
abbrev About (i : String) (x : QueueScript α) : Prop := Script.Keeps (fun _ => True) (Touches i) x

namespace About

theorem of_after {x : QueueScript α} (h : ∀ q, Touches i q (Script.after x q)) : About i x :=
  fun q _ => ⟨trivial, h q⟩

theorem touches {x : QueueScript α} (h : About i x) (q : Queue) : Touches i q (Script.after x q) :=
  (h q trivial).2

theorem bind {x : QueueScript α} {f : α → QueueScript β} (hx : About i x)
    (hf : ∀ a, About i (f a)) : About i (x >>= f) :=
  Script.Keeps.seq hx hf (fun _ _ _ => Touches.trans) fun _ _ => id

/-- A command that only reads. -/
theorem read {x : QueueScript α} (h : ∀ q, Script.after x q = q) : About i x :=
  of_after fun q => by
    rw [h]
    exact Touches.refl i q

theorem pure (a : α) : About i (Pure.pure a) := read fun _ => rfl

theorem setHash (q : Queue) (h : JobHash) : Touches i q (q.setHash i h) :=
  ⟨rfl, ⟨0, rfl⟩, fun _ _ => rfl, fun k hk => Or.inl (by simp [hk])⟩

theorem setJob (q : Queue) (v : Option JobKey) : Touches i q (q.setJob i v) :=
  ⟨rfl, ⟨0, rfl⟩, fun _ _ => rfl, fun k hk => Or.inl (by simp [hk])⟩

theorem setIndex (q : Queue) (z : SortedSet Score String) (s : FinalStatus) :
    Touches i q (q.setIndex z s) := by
  constructor
  · simp
  · exact ⟨0, by simp⟩
  · simp
  · simp

/-! ### Commands on a job key -/

theorem keyExists (k : String) : About i (Redis.keyExists k) := read fun _ => rfl

theorem hget (k : String) (get : JobHash → Option β) : About i (Redis.commands.hget k get) :=
  read fun q => by
    simp only [Script.after, Redis.hget]
    rcases q.jobs k with _ | (_ | _) <;> rfl

theorem hgetall (k : String) : About i (Redis.hgetall k) :=
  read fun q => by
    unfold Script.after Redis.hgetall
    rcases q.jobs k with _ | (_ | _) <;> rfl

theorem hset (i : String) (put : JobHash → JobHash) : About i (Redis.commands.hset i put) := by
  apply of_after
  intro q
  simp only [Script.after, Redis.hset]
  rcases q.jobs i with _ | (h | _)
  · exact setHash q (put {})
  · exact setHash q (put h)
  · exact Touches.refl i q

theorem hsetnxId (i : String) : About i (Redis.hsetnxId i) := by
  apply of_after
  intro q
  unfold Script.after Redis.hsetnxId
  rcases q.jobs i with _ | (h | _)
  · exact setHash q _
  · by_cases hid : h.id.isSome
    · simp only [if_pos hid]
      exact Touches.refl i q
    · simp only [if_neg hid]
      exact setHash q _
  · exact Touches.refl i q

theorem hdelLease (i : String) : About i (Redis.hdelLease i) := by
  apply of_after
  intro q
  unfold Script.after Redis.hdelLease
  rcases q.jobs i with _ | (h | _)
  · exact Touches.refl i q
  · simp only
    split
    · exact setJob q none
    · exact setHash q _
  · exact Touches.refl i q

theorem hincrby (i : String) (get : JobHash → Option Numeral)
    (put : Numeral → JobHash → JobHash) : About i (Redis.commands.hincrby i get put) := by
  apply of_after
  intro q
  simp only [Script.after, Redis.hincrbyOf, Counters.next]
  rcases q.jobs i with _ | (h | _)
  · exact setHash q _
  · simp only
    rcases get h with _ | (_ | _ | _)
    · exact setHash q _
    · exact setHash q _
    · exact Touches.refl i q
    · exact Touches.refl i q
  · exact Touches.refl i q

theorem del (i : String) : About i (Redis.del i) := of_after fun q => setJob q none

/-! ### Commands on the collections -/

theorem lpush (i : String) : About i (Redis.lpush i) :=
  of_after fun _ => ⟨rfl, ⟨1, rfl⟩, fun _ _ => rfl, fun _ _ => Or.inl rfl⟩

theorem llen : About i Redis.llen := read fun _ => rfl

theorem publish (k : String) : About i (Redis.publish k) :=
  of_after fun _ => ⟨rfl, ⟨0, rfl⟩, fun _ _ => rfl, fun _ _ => Or.inl rfl⟩

theorem hgetLimit : About i Redis.hgetLimit := read fun _ => rfl

theorem setActive (q : Queue) {z : SortedSet Score String}
    (h : ∀ k ≠ i, z.score k = q.active.score k) : Touches i q (q.setActive z) :=
  ⟨rfl, ⟨0, rfl⟩, h, fun _ _ => Or.inl rfl⟩

theorem zaddActive (d : Double) (i : String) : About i (Redis.zaddActive d i) := by
  apply of_after
  intro q
  cases d with
  | nan => exact Touches.refl i q
  | val s => exact setActive q fun k hk => SortedSet.score_add_ne _ _ hk

theorem zaddActiveXX (d : Double) (i : String) : About i (Redis.zaddActiveXX d i) := by
  apply of_after
  intro q
  cases d with
  | nan => exact Touches.refl i q
  | val s =>
    unfold Script.after Redis.zaddActiveXX
    by_cases h : (q.active.score i).isSome
    · simp only [if_pos h]
      exact setActive q fun k hk => SortedSet.score_add_ne _ _ hk
    · simp only [if_neg h]
      exact Touches.refl i q

theorem zscoreActive (k : String) : About i (Redis.zscoreActive k) := read fun _ => rfl

theorem zremActive (i : String) : About i (Redis.zremActive i) :=
  of_after fun q => setActive q fun _ hk => SortedSet.score_remove_ne _ hk

/-! ### Retention -/

theorem forget (q : Queue) (ids : List String) (z : SortedSet Score String) (s : FinalStatus) :
    Touches i q ((q.forget ids).setIndex z s) := by
  refine Touches.trans ?_ (setIndex _ z s)
  rw [Queue.forget_eq]
  refine ⟨rfl, ⟨0, rfl⟩, fun _ _ => rfl, fun k _ => ?_⟩
  by_cases hk : k ∈ ids
  · exact Or.inr (by simp [hk])
  · exact Or.inl (by simp [hk])

theorem trimByTtl (s : FinalStatus) (ttl : ℤ) (now : ℕ) : About i (trimByTtl s ttl now) := by
  unfold Panqueue.trimByTtl
  refine Script.Keeps.ite (fun _ => of_after fun q => ?_) fun _ => pure ()
  unfold Script.after
  simp only [Script.run_bind, Redis.zrangebyscoreIndex, forEach_del, Redis.zremrangebyscoreIndex]
  exact forget q _ _ s

theorem trimByCount (s : FinalStatus) (count : ℤ) : About i (trimByCount s count) := by
  unfold Panqueue.trimByCount
  refine Script.Keeps.ite (fun _ => ?_) fun _ => pure ()
  refine bind (read fun _ => rfl) fun card => ?_
  refine Script.Keeps.ite (fun _ => of_after fun q => ?_) fun _ => pure ()
  unfold Script.after
  simp only [Script.run_bind, Redis.zrangeIndex, forEach_del, Redis.zremrangebyrankIndex]
  exact forget q _ _ s

theorem retentionLua (s : FinalStatus) (r : ResolvedRetention) (now : ℕ) (i : String) :
    About i (retentionLua s r now i) := by
  unfold Panqueue.retentionLua
  refine Script.Keeps.ite (fun _ => del i) fun _ => ?_
  apply bind (hset i _)
  intro _
  refine bind (of_after fun q => setIndex q _ s) fun _ => ?_
  exact Script.Keeps.ite (fun _ => bind (trimByTtl s r.ttl now) fun _ => trimByCount s r.count)
    fun _ => pure ()

theorem publishFreed (limited : Bool) (k : String) : About i (publishFreed limited k) := by
  unfold Panqueue.publishFreed
  apply bind llen
  intro waiting
  exact Script.Keeps.ite (fun _ => publish k) fun _ => pure ()

end About

/-! ## The scripts -/

/-- The token check of the lease scripts. -/
theorem about_guard (i token : String) (missing stale : α) {rest : QueueScript α}
    (hrest : About i rest) :
    About i (do
      let found ← Redis.keyExists i
      if found = false then pure missing
      else do
        let stored ← Redis.hget i JobHash.lockToken
        if stored ≠ some token then pure stale else rest) := by
  apply About.bind (.keyExists i)
  intro found
  refine Script.Keeps.ite (fun _ => About.pure missing) fun _ => ?_
  apply About.bind (.hget i _)
  intro stored
  exact Script.Keeps.ite (fun _ => About.pure stale) fun _ => hrest

/-- A job that goes back to the waiting list. -/
theorem about_push {i : String} {rest : QueueScript α} (hrest : About i rest) :
    About i (do
      Redis.lpush i
      Redis.publish i
      rest) :=
  About.bind (.lpush i) fun _ => About.bind (.publish i) fun _ => hrest

/-- A job that freed its permit for good. -/
theorem about_freed (s : FinalStatus) (r : ResolvedRetention) (now : ℕ) (i : String) (a : α) :
    About i (do
      retentionLua s r now i
      let limit ← Redis.hgetLimit
      publishFreed limit.isSome i
      pure a) :=
  About.bind (.retentionLua s r now i) fun _ => About.bind .hgetLimit fun limit =>
    About.bind (.publishFreed limit.isSome i) fun _ => About.pure a

theorem enqueue_about (a : EnqueueArgs) : About a.jobId (enqueue t a) := by
  apply About.bind (.hsetnxId a.jobId)
  intro fresh
  refine Script.Keeps.ite (fun _ => About.pure _) fun _ => ?_
  apply About.bind (.hset a.jobId _)
  intro _
  exact about_push (About.pure _)

theorem complete_about (a : CompleteArgs) : About a.jobId (complete t a) := by
  apply about_guard
  apply About.bind (.zremActive a.jobId)
  intro _
  apply About.bind (.hdelLease a.jobId)
  intro _
  exact about_freed .completed a.retention t.now a.jobId _

theorem fail_about (a : FailArgs) : About a.jobId (fail t a) := by
  apply about_guard
  apply About.bind (.zremActive a.jobId)
  intro _
  apply About.bind (.hincrby a.jobId _ _)
  intro failures
  apply About.bind (.hset a.jobId _)
  intro _
  apply About.bind (.hdelLease a.jobId)
  intro _
  apply About.bind (.hget a.jobId _)
  intro stored
  refine Script.Keeps.ite (fun _ => ?_) fun _ => ?_
  · apply About.bind (.hset a.jobId _)
    intro _
    exact about_push (About.pure _)
  · exact about_freed .failed a.retention t.now a.jobId _

theorem requeueActive_about (a : RequeueActiveArgs) : About a.jobId (requeueActive t a) := by
  apply about_guard
  apply About.bind (.zremActive a.jobId)
  intro _
  apply About.bind (.hset a.jobId _)
  intro _
  apply About.bind (.hdelLease a.jobId)
  intro _
  exact about_push (About.pure _)

theorem extendLock_about (a : ExtendLockArgs) : About a.jobId (extendLock t a) := by
  apply about_guard
  apply About.bind (.zaddActiveXX _ a.jobId)
  intro _
  apply About.bind (.zscoreActive a.jobId)
  intro score
  refine Script.Keeps.ite (fun _ => About.pure _) fun _ => ?_
  apply About.bind (.hset a.jobId _)
  intro _
  exact About.pure _

theorem recoverRemoved_about (a : RecoverArgs) (limited : Bool) (i : String) :
    About i (recoverRemoved t a limited i) := by
  apply About.bind (.keyExists i)
  intro found
  refine Script.Keeps.ite (fun _ => ?_) fun _ => ?_
  · apply About.bind (.publishFreed limited i)
    intro _
    exact About.pure _
  · apply About.bind (.hincrby i _ _)
    intro stalls
    apply About.bind (.hset i _)
    intro _
    apply About.bind (.hdelLease i)
    intro _
    apply About.bind (.hget i _)
    intro stored
    refine Script.Keeps.ite (fun _ => ?_) fun _ => ?_
    · apply About.bind (.hset i _)
      intro _
      exact about_push (About.bind (.hgetall i) fun h => About.pure _)
    · apply About.bind (.hset i _)
      intro _
      apply About.bind (.hgetall i)
      intro h
      apply About.bind (.retentionLua .failed a.retention t.now i)
      intro _
      exact About.bind (.publishFreed limited i) fun _ => About.pure _

theorem recoverOne_about (a : RecoverArgs) (limited : Bool) (i : String) :
    About i (recoverOne t a limited i) := by
  apply About.bind (.zscoreActive i)
  intro score
  refine Script.Keeps.ite (fun _ => ?_) fun _ => About.pure _
  apply About.bind (.zremActive i)
  intro removed
  refine Script.Keeps.ite (fun _ => ?_) fun _ => About.pure _
  exact About.bind (recoverRemoved_about a limited i) fun entry => About.pure _

theorem claimOne_about (sha1hex : String → String) (now : ℕ) (d : Double) (i : String) :
    About i (claimOne sha1hex now d i) := by
  apply About.bind (.keyExists i)
  intro found
  refine Script.Keeps.ite (fun _ => About.pure _) fun _ => ?_
  apply About.bind (.hincrby i _ _)
  intro runs
  apply About.bind (.hset i _)
  intro _
  apply About.bind (.zaddActive d i)
  intro _
  exact About.bind (.hgetall i) fun h => About.pure _

/-! ## Jobs that are nowhere -/

/-- The id does not wait, has no lease and no key. -/
structure Queue.Absent (q : Queue) (x : String) : Prop where
  waiting : x ∉ q.waiting
  active : q.active.score x = none
  key : q.jobs x = none

theorem Touches.absent (h : Touches i q q') (hx : q.Absent x) (hne : x ≠ i) : q'.Absent x := by
  refine ⟨?_, ?_, ?_⟩
  · obtain ⟨n, hn⟩ := h.waiting
    rw [hn, List.mem_append, List.mem_replicate]
    rintro (⟨_, hxi⟩ | hw)
    · exact hne hxi
    · exact hx.waiting hw
  · rw [h.active x hne, hx.active]
  · rcases h.jobs x hne with hj | hj
    · rw [hj, hx.key]
    · exact hj

/-- Between the two states, no declaration was made and no id was enqueued. -/
structure Calm (q q' : Queue) : Prop where
  concurrency : q'.concurrency = q.concurrency
  absent : ∀ x, q.Absent x → q'.Absent x

theorem Calm.refl (q : Queue) : Calm q q := ⟨rfl, fun _ => id⟩

theorem Calm.trans (h : Calm q q') (h' : Calm q' q'') : Calm q q'' :=
  ⟨h'.concurrency.trans h.concurrency, fun x hx => h'.absent x (h.absent x hx)⟩

/-- A script about a job that is there. -/
theorem Touches.calm (h : Touches i q q') (hi : ¬ q.Absent i) : Calm q q' := by
  refine ⟨h.concurrency, fun x hx => h.absent hx ?_⟩
  rintro rfl
  exact hi hx

/-- The token check stops a lease script on a job that is nowhere. -/
theorem absent_refused {missing stale : α} {token : String} {rest : QueueScript α}
    (hi : q.Absent i) :
    Script.after (do
      let found ← Redis.keyExists i
      if found = false then pure missing
      else do
        let stored ← Redis.hget i JobHash.lockToken
        if stored ≠ some token then pure stale else rest) q = q := by
  simp [Script.after, Redis.keyExists, hi.key]

/-- A script about one job is calm when it does nothing to a job that is nowhere. -/
theorem About.calm {x : QueueScript α} (h : About i x)
    (habs : ∀ q : Queue, q.Absent i → Script.after x q = q) :
    Script.Keeps (fun _ => True) Calm x := by
  intro q _
  refine ⟨trivial, ?_⟩
  by_cases hi : q.Absent i
  · rw [habs q hi]
    exact Calm.refl q
  · exact (h.touches q).calm hi

theorem recoverOne_calm (a : RecoverArgs) (limited : Bool) (i : String) :
    Script.Keeps (fun _ => True) Calm (recoverOne t a limited i) := by
  apply (recoverOne_about a limited i).calm
  intro q hi
  simp [Script.after, recoverOne, Lua.recoverOne, Lua.recoverTaken, Redis.zscoreActive, hi.active]

theorem recoverLoop_calm (a : RecoverArgs) (limited : Bool) (ids : List String) :
    Script.Keeps (fun _ => True) Calm (recoverLoop t a limited ids) := by
  induction ids with
  | nil => exact fun q _ => ⟨trivial, Calm.refl q⟩
  | cons i ids ih =>
    refine Script.Keeps.seq (recoverOne_calm a limited i) (fun entry => ?_)
      (fun _ _ _ => Calm.trans) fun _ _ => id
    exact Script.Keeps.seq ih (fun recovered q _ => ⟨trivial, Calm.refl q⟩)
      (fun _ _ _ => Calm.trans) fun _ _ => id

/-- One turn of the claim loop: the popped id waited, so it is not an absent one. -/
theorem claimOne_calm (sha1hex : String → String) (now : ℕ) (d : Double)
    (h : q.waiting.getLast? = some i) :
    Calm q (Script.after (claimOne sha1hex now d i) (q.setWaiting q.waiting.dropLast)) := by
  have hone := (claimOne_about sha1hex now d i).touches (q.setWaiting q.waiting.dropLast)
  refine ⟨hone.concurrency, fun x hx => hone.absent ⟨?_, hx.active, hx.key⟩ ?_⟩
  · intro hw
    exact hx.waiting (List.dropLast_subset _ hw)
  · rintro rfl
    exact hx.waiting (List.mem_of_getLast? h)

theorem claimLoop_calm (sha1hex : String → String) (now : ℕ) (d : Double) (n : ℕ) :
    Script.Keeps (fun _ => True) Calm (claimLoop sha1hex now d n) := by
  induction n with
  | zero => exact fun q _ => ⟨trivial, Calm.refl q⟩
  | succ n ih =>
    intro q _
    refine ⟨trivial, ?_⟩
    rcases hlast : q.waiting.getLast? with _ | i
    · rw [Script.after_ok (claimLoop_empty hlast)]
      exact Calm.refl q
    · have h1 := claimOne_calm sha1hex now d hlast
      rw [Script.after, claimLoop_pop hlast, ← Script.after]
      rcases hrun : claimOne sha1hex now d i (q.setWaiting q.waiting.dropLast) with
        ⟨entry, q2⟩ | ⟨e, q2⟩
      · rw [Script.after_ok hrun] at h1
        have hrest : Script.Keeps (fun _ => True) Calm (do
            let claimed ← claimLoop sha1hex now d n
            pure (entry :: claimed)) :=
          Script.Keeps.seq ih (fun claimed q _ => ⟨trivial, Calm.refl q⟩)
            (fun _ _ _ => Calm.trans) fun _ _ => id
        rw [Script.after, Script.bind_ok hrun, ← Script.after]
        exact h1.trans (hrest q2 trivial).2
      · rw [Script.after_error hrun] at h1
        rw [Script.after, Script.bind_error hrun]
        exact h1

theorem claimGlobalBatch_calm (sha1hex : String → String) (a : ClaimGlobalBatchArgs) :
    Script.Keeps (fun _ => True) Calm (claimGlobalBatch sha1hex t a) := by
  intro q _
  have h := (claimLoop_calm sha1hex t.now (a.leaseMs.plus t.now)
    (claimCount q.limit q.active.card a.count) q trivial).2
  simp only [Script.after, claimGlobalBatch, Lua.claimGlobalBatch, Lua.claimBatch, Script.run_bind,
    Redis.hgetLimit, Redis.zcardActive] at h ⊢
  exact ⟨trivial, h⟩

theorem recover_calm (a : RecoverArgs) : Script.Keeps (fun _ => True) Calm (recover t a) := by
  intro q _
  have h := fun ids => (recoverLoop_calm (t := t) a q.limit.isSome ids q trivial).2
  simp only [Script.after, recover, Lua.recover, Lua.recoverBatch, Script.run_bind, Redis.hgetLimit,
    Redis.zrangebyscoreActive] at h ⊢
  exact ⟨trivial, h _⟩

/-! ## Every call -/

variable (sha1hex : String → String)

/-- No call but a declaration changes the concurrency hash, and no call but its
enqueue brings back an id that is nowhere. -/
theorem exec_calm (op : Call × RedisTime) (q : Queue) :
    ((∀ a, op.1 ≠ .declareConcurrencyLimit a) →
      (exec sha1hex op q).2.concurrency = q.concurrency) ∧
    ∀ x, op.1.enqueues ≠ some x → q.Absent x → (exec sha1hex op q).2.Absent x := by
  have hcalm : ∀ q', Calm q q' → ((∀ a, op.1 ≠ .declareConcurrencyLimit a) →
      q'.concurrency = q.concurrency) ∧ ∀ x, op.1.enqueues ≠ some x → q.Absent x → q'.Absent x :=
    fun _ h => ⟨fun _ => h.concurrency, fun x _ => h.absent x⟩
  obtain ⟨call, t⟩ := op
  cases call with
  | enqueue a =>
    simp only [exec, Lua.exec, runScript_after]
    have h := (enqueue_about (t := t) a).touches q
    refine ⟨fun _ => h.concurrency, fun x hx habs => h.absent habs ?_⟩
    rintro rfl
    exact hx rfl
  | claimGlobalBatch a =>
    simp only [exec, Lua.exec, runScript_after]
    exact hcalm _ (claimGlobalBatch_calm sha1hex a q trivial).2
  | complete a =>
    simp only [exec, Lua.exec, runScript_after]
    exact hcalm _ ((complete_about a).calm (fun _ => absent_refused) q trivial).2
  | fail a =>
    simp only [exec, Lua.exec, runScript_after]
    exact hcalm _ ((fail_about a).calm (fun _ => absent_refused) q trivial).2
  | recover a =>
    simp only [exec, Lua.exec, runScript_after]
    exact hcalm _ (recover_calm a q trivial).2
  | extendLock a =>
    simp only [exec, Lua.exec, runScript_after]
    exact hcalm _ ((extendLock_about a).calm (fun _ => absent_refused) q trivial).2
  | requeueActive a =>
    simp only [exec, Lua.exec, runScript_after]
    exact hcalm _ ((requeueActive_about a).calm (fun _ => absent_refused) q trivial).2
  | declareConcurrencyLimit a =>
    simp only [exec, Lua.exec, runScript_after]
    refine ⟨fun h => absurd rfl (h a), fun x _ hx => ?_⟩
    rcases declare_after a q with ⟨_, he⟩ | ⟨_, he⟩
    · rw [he]
      exact ⟨hx.waiting, hx.active, hx.key⟩
    · rw [he]
      exact hx

end Panqueue
