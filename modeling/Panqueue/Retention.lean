-- Retention: the jobs that the shared Lua fragment deletes were finished.
import Panqueue.Moves

namespace Panqueue

/-! ## Retention -/

/-- What a trim of a finished index shows of a job. -/
theorem Queue.sight_trim (q : Queue) (ids : List String) (z : SortedSet Score String)
    (s : FinalStatus) (i : String) :
    ((q.forget ids).setIndex z s).sight i =
      ((q.sight i).setKey (if i ∈ ids then none else q.jobs i)).setFinished s (z.score i) := by
  rw [Queue.sight_setIndex, Queue.forget_eq]
  rfl

/-- A trim leaves a job alone that it does not take. -/
theorem Queue.sight_trim_of_notMem {q : Queue} {ids : List String} {z : SortedSet Score String}
    {s : FinalStatus} {i : String} (hi : i ∉ ids) (hz : z.score i = (q.index s).score i) :
    ((q.forget ids).setIndex z s).sight i = q.sight i := by
  have hfin : z.score i = (q.sight i).finishedAt s := hz
  rw [Queue.sight_trim, if_neg hi, hfin]
  simp only [Sight.setKey, Sight.setFinished, Function.update_eq_self]
  rfl

/-- A trim took some jobs of the index of `s`, hash and index entry. -/
def Trims (s : FinalStatus) (q q' : Queue) : Prop :=
  ∃ ids z, q' = (q.forget ids).setIndex z s ∧
    (∀ i, z.score i = if i ∈ ids then none else (q.index s).score i) ∧
    ∀ i ∈ ids, ((q.index s).score i).isSome

namespace Trims

variable {s : FinalStatus} {q q' : Queue}

theorem refl (s : FinalStatus) (q : Queue) : Trims s q q :=
  ⟨[], q.index s, by cases s <;> rfl, by simp, by simp⟩

/-- A job that is not in the index is left alone. -/
theorem sight {i : String} (h : Trims s q q') (hi : (q.sight i).finishedAt s = none) :
    q'.sight i = q.sight i := by
  obtain ⟨ids, z, rfl, hz, hids⟩ := h
  have hnot : i ∉ ids := fun hmem => by
    have hsome := hids i hmem
    rw [show (q.index s).score i = none from hi] at hsome
    cases hsome
  exact Queue.sight_trim_of_notMem hnot (by rw [hz, if_neg hnot])

/-- The jobs that a trim takes have finished, and are gone. -/
theorem moves {sha1hex : String → String} (h : Trims s q q') :
    Moves sha1hex (fun _ => []) q q' := by
  obtain ⟨ids, z, rfl, hz, hids⟩ := h
  intro i p hp
  by_cases hi : i ∈ ids
  · have hzi : z.score i = none := by rw [hz, if_pos hi]
    have hsome := hids i hi
    rw [hp.index] at hsome
    cases p with
    | finished s' j t =>
      have hs : s' = s := by
        by_contra hne
        simp [Place.sight, Ne.symm hne] at hsome
      subst hs
      refine ⟨.gone, ?_, Reaches.single (.evict s' j t)⟩
      rw [At, Queue.sight_trim, hp, hzi, if_pos hi]
      simp [Place.sight, Sight.setKey, Sight.setFinished, Place.hash]
    | _ => simp [Place.sight] at hsome
  · exact ⟨p, hp.of_sight (Queue.sight_trim_of_notMem hi (by rw [hz, if_neg hi])), .start⟩

end Trims

theorem forEach_del (ids : List String) (q : Queue) :
    Script.forEach ids Redis.del q = .ok () (q.forget ids) :=
  Script.forEach_ok (fun _ _ => rfl) ids q

theorem forget_index (q : Queue) (ids : List String) (s : FinalStatus) :
    (q.forget ids).index s = q.index s := by
  rw [Queue.forget_eq]
  cases s <;> rfl

theorem trimByTtl_run (s : FinalStatus) {ttl : ℤ} (h : 0 ≤ ttl) (now : ℕ) (q : Queue) :
    trimByTtl s ttl now q = .ok ()
      ((q.forget ((q.index s).rangeByScore (Score.ofNat 0) (Score.ofRat (now - ttl : ℤ)))).setIndex
        ((q.index s).removeByScore (Score.ofNat 0) (Score.ofRat (now - ttl : ℤ))) s) := by
  simp only [trimByTtl, Lua.trimByTtl, if_pos h, Script.run_bind, Redis.zrangebyscoreIndex,
    forEach_del, Redis.zremrangebyscoreIndex, forget_index]

theorem trimByTtl_off (s : FinalStatus) {ttl : ℤ} (h : ¬ 0 ≤ ttl) (now : ℕ) (q : Queue) :
    trimByTtl s ttl now q = .ok () q := by
  simp only [trimByTtl, Lua.trimByTtl, if_neg h, Script.run_pure]

theorem trimByTtl_spec (s : FinalStatus) (ttl : ℤ) (now : ℕ) (q : Queue) :
    ∃ q', trimByTtl s ttl now q = .ok () q' ∧ Trims s q q' := by
  by_cases h : 0 ≤ ttl
  · refine ⟨_, trimByTtl_run s h now q, _, _, rfl, ?_, ?_⟩
    · intro i
      rw [SortedSet.score_removeByScore]
      split
      · rename_i hi
        obtain ⟨d, hd, hr⟩ := SortedSet.mem_rangeByScore.mp hi
        simp only [hd, Option.filter_some, hr, and_self, decide_true, Bool.not_true,
          Bool.false_eq_true, if_false]
      · rename_i hi
        rcases hd : (q.index s).score i with _ | d
        · rfl
        · have hr : ¬ (Score.ofNat 0 ≤ d ∧ d ≤ Score.ofRat (now - ttl : ℤ)) := fun hr =>
            hi (SortedSet.mem_rangeByScore.mpr ⟨d, hd, hr⟩)
          simp only [Option.filter_some, hr, decide_false, Bool.not_false, if_true]
    · intro i hi
      obtain ⟨d, hd, _⟩ := SortedSet.mem_rangeByScore.mp hi
      simp [hd]
  · exact ⟨q, trimByTtl_off s h now q, .refl s q⟩

/-- The count bound takes as many jobs as are over it, and none when it is off. -/
theorem trimByCount_run (s : FinalStatus) {count : ℤ} (h : 0 ≤ count) (q : Queue) :
    ((q.index s).card ≤ count.toNat ∧ trimByCount s count q = .ok () q) ∨
      trimByCount s count q = .ok ()
        ((q.forget ((q.index s).firstMembers ((q.index s).card - count.toNat))).setIndex
          ((q.index s).dropFirst ((q.index s).card - count.toNat)) s) := by
  have hover : ((q.index s).card - count : ℤ).toNat = (q.index s).card - count.toNat := by omega
  by_cases ho : (0 : ℤ) < (q.index s).card - count
  · right
    simp only [trimByCount, Lua.trimByCount, if_pos h, Script.run_bind, Redis.zcardIndex]
    rw [if_pos ho, hover]
    simp only [Script.run_bind, Redis.zrangeIndex, forEach_del, Redis.zremrangebyrankIndex,
      forget_index]
  · left
    refine ⟨by omega, ?_⟩
    simp only [trimByCount, Lua.trimByCount, if_pos h, Script.run_bind, Redis.zcardIndex]
    rw [if_neg ho]
    rfl

theorem trimByCount_off (s : FinalStatus) {count : ℤ} (h : ¬ 0 ≤ count) (q : Queue) :
    trimByCount s count q = .ok () q := by
  simp only [trimByCount, Lua.trimByCount, if_neg h, Script.run_pure]

theorem trimByCount_spec (s : FinalStatus) (count : ℤ) (q : Queue) :
    ∃ q', trimByCount s count q = .ok () q' ∧ Trims s q q' := by
  by_cases h : 0 ≤ count
  · rcases trimByCount_run s h q with ⟨-, hrun⟩ | hrun
    · exact ⟨q, hrun, .refl s q⟩
    · refine ⟨_, hrun, _, _, rfl, fun i => SortedSet.score_dropFirst _ _ _, fun i hi => ?_⟩
      exact SortedSet.score_isSome.mpr (SortedSet.mem_of_mem_firstMembers hi)
  · exact ⟨q, trimByCount_off s h q, .refl s q⟩

/-- A rule that keeps a job files it, and then trims. -/
theorem retentionLua_run (s : FinalStatus) {r : ResolvedRetention} (now : ℕ) {i : String}
    {h : JobHash} {q : Queue} (hk : q.jobs i = some (.hash h)) (hd : r.mode ≠ .delete) :
    retentionLua s r now i q =
      (if r.mode = .trim then do
        trimByTtl s r.ttl now
        trimByCount s r.count
      else pure () : QueueScript Unit)
        ((q.setHash i { h with status := some s.status, finishedAt := some (.int now) }).setIndex
          ((q.index s).add (Score.ofNat now) i) s) := by
  simp only [retentionLua, Lua.retentionLua, if_neg hd, Script.run_bind, Redis.hset, hk,
    Redis.zaddIndex, Queue.setHash_index]

/-- Job `i` is in the index of `s`, with its final hash. -/
def Queue.file (q : Queue) (s : FinalStatus) (now : ℕ) (i : String) (h : JobHash) : Queue :=
  (q.setHash i { h with status := some s.status, finishedAt := some (.int now) }).setIndex
    ((q.index s).add (Score.ofNat now) i) s

/-- Retention deletes the job, or it files it and trims the index. -/
theorem retentionLua_steps (s : FinalStatus) (r : ResolvedRetention) (now : ℕ) {i : String}
    {h : JobHash} {q : Queue} (hk : q.jobs i = some (.hash h)) :
    retentionLua s r now i q = .ok () (q.setJob i none) ∨
      ∃ q1 q2, retentionLua s r now i q = .ok () q2 ∧ Trims s (q.file s now i h) q1 ∧
        Trims s q1 q2 := by
  by_cases hd : r.mode = .delete
  · left
    simp only [retentionLua, Lua.retentionLua, if_pos hd, Redis.del]
  · right
    rw [retentionLua_run s now hk hd]
    by_cases ht : r.mode = .trim
    · obtain ⟨q1, hrun1, h1⟩ := trimByTtl_spec s r.ttl now (q.file s now i h)
      obtain ⟨q2, hrun2, h2⟩ := trimByCount_spec s r.count q1
      refine ⟨q1, q2, ?_, h1, h2⟩
      rw [if_pos ht]
      exact (Script.bind_ok hrun1).trans hrun2
    · rw [if_neg ht]
      exact ⟨_, _, rfl, .refl s _, .refl s _⟩

theorem Queue.sight_file_ne (q : Queue) (s : FinalStatus) (now : ℕ) {i k : String} (h : JobHash)
    (hk : k ≠ i) : (q.file s now i h).sight k = q.sight k := by
  rw [file, Queue.sight_setIndex, Queue.sight_setHash_ne _ _ hk, SortedSet.score_add_ne _ _ hk]
  simp [Sight.setFinished, Queue.sight]

/-- Retention of job `i` leaves each other job alone that has not finished. -/
theorem retentionLua_sight {s : FinalStatus} {r : ResolvedRetention} {now : ℕ} {i k : String}
    {h : JobHash} {q q' : Queue} (hi : q.jobs i = some (.hash h))
    (hrun : retentionLua s r now i q = .ok () q') (hk : k ≠ i)
    (hfin : (q.sight k).finishedAt s = none) : q'.sight k = q.sight k := by
  rcases retentionLua_steps s r now hi with hrun' | ⟨q1, q2, hrun', h1, h2⟩
  · rw [hrun] at hrun'
    cases hrun'
    exact Queue.sight_setJob_ne q none hk
  · rw [hrun] at hrun'
    cases hrun'
    have hfile := q.sight_file_ne s now h hk
    have hs1 := (h1.sight (by rw [hfile, hfin])).trans hfile
    exact (h2.sight (by rw [hs1, hfin])).trans hs1

/-- What a queue shows of a job inside a script: a hash, and no place. -/
def Sight.loose (h : JobHash) : Sight := ⟨some (.hash h), 0, none, fun _ => none⟩

/-- Job `i` finished at `now` and stands in its index, or is gone by now. The
other jobs stay, or finished before and are gone by now. -/
structure Retired (sha1hex : String → String) (i : String) (p : Place) (q q' : Queue) : Prop where
  here : ∃ p', At q' i p' ∧ Reaches (JobStep (issued sha1hex i)) p [] p'
  others : ∀ k ≠ i, ∀ r, At q k r →
    ∃ r', At q' k r' ∧ Reaches (JobStep (issued sha1hex k)) r [] r'

theorem Retired.then {sha1hex : String → String} {i : String} {p : Place} {q q' q'' : Queue}
    (h : Retired sha1hex i p q q') (hm : Moves sha1hex (fun _ => []) q' q'') :
    Retired sha1hex i p q q'' := by
  refine ⟨?_, ?_⟩
  · obtain ⟨p', hp', hs⟩ := h.here
    obtain ⟨p'', hp'', hs'⟩ := hm i p' hp'
    exact ⟨p'', hp'', hs.trans hs'⟩
  · intro k hk r hr
    obtain ⟨r', hr', hs⟩ := h.others k hk r hr
    obtain ⟨r'', hr'', hs'⟩ := hm k r' hr'
    exact ⟨r'', hr'', hs.trans hs'⟩

theorem retentionLua_spec (sha1hex : String → String) {s : FinalStatus} {r : ResolvedRetention}
    {now : ℕ} {i : String} {j : Job} {h : JobHash} {q : Queue} (hq : q.sight i = Sight.loose h)
    (hj : (Place.finished s j now).hash i =
      some { h with status := some s.status, finishedAt := some (.int now) }) :
    ∃ q', retentionLua s r now i q = .ok () q' ∧
      Retired sha1hex i (.finished s j now) q q' := by
  have hk : q.jobs i = some (.hash h) := congrArg Sight.key hq
  rcases retentionLua_steps s r now hk with hrun | ⟨q1, q2, hrun, h1, h2⟩
  · refine ⟨q.setJob i none, hrun, ⟨.gone, ?_, .single (.evict s j now)⟩, ?_⟩
    · rw [At, Queue.sight_setJob_self, hq]
      rfl
    · intro k hki p hp
      exact ⟨p, hp.of_sight (Queue.sight_setJob_ne q none hki), .start⟩
  · have hfiled : Retired sha1hex i (.finished s j now) q (q.file s now i h) := by
      refine ⟨⟨.finished s j now, ?_, .start⟩, ?_⟩
      · rw [At, Queue.file, Queue.sight_setIndex, Queue.sight_setHash_self, hq,
          SortedSet.score_add_self]
        simp only [Place.sight, hj]
        rfl
      · intro k hki p hp
        exact ⟨p, hp.of_sight (q.sight_file_ne s now h hki), .start⟩
    exact ⟨q2, hrun, (hfiled.then h1.moves).then h2.moves⟩

end Panqueue
