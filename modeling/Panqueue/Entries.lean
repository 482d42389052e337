-- The entries of a claim reply and of a sweep reply: each shows the job that
-- its pointer had before the call, and stands for the place it has after it.
import Panqueue.Corrupt
import Panqueue.Delivery
import Panqueue.Sweep

namespace Panqueue

variable {q q' q'' : Queue} {t : RedisTime} {i k : String} {issue : ℕ → ℕ → String}
  {sha1hex : String → String}

/-! ## Jobs that a call leaves alone -/

/-- A job that is pending after a silence was pending before it, at the same place. -/
theorem Place.Pending.silent_back {p p' : Place} (hp' : p'.Pending)
    (h : Reaches (JobStep issue) p [] p') : p = p' := by
  generalize hes : ([] : List Act) = es at h
  induction h with
  | start => rfl
  | next _ hst ih =>
    obtain ⟨h1, h2⟩ := List.append_eq_nil_iff.mp hes.symm
    cases hst with
    | evict s j now => cases hp'
    | _ => cases h2

/-- A pending job without an act stays where it is. -/
theorem Moves.stays {acts : String → List Act} {p : Place} (hm : Moves sha1hex acts q q')
    (hk : acts k = []) (hp : p.Pending) (h : At q k p) : At q' k p := by
  obtain ⟨p', hp', hs⟩ := hm k p h
  rw [hk] at hs
  rwa [hp.silent hs] at hp'

/-- A pending job without an act stood there before. -/
theorem Moves.stood {acts : String → List Act} {p : Place} (hm : Moves sha1hex acts q q')
    (hq : Sound q) (hk : acts k = []) (hp : p.Pending) (h : At q' k p) : At q k p := by
  obtain ⟨r, hr⟩ := hq k
  obtain ⟨p', hp', hs⟩ := hm k r hr
  rw [hk, hp'.unique h] at hs
  rwa [hp.silent_back hs] at hr

/-! ## Claims -/

variable (sha1hex) in
/-- The entry `e` shows the claim of job `i`, which waited as `j`. -/
structure ClaimOf (now : ℕ) (d : Score) (q q' : Queue) (i : String) (e : ClaimEntry) (j : Job) :
    Prop where
  waited : At q i (.waiting j)
  active : At q' i (.active (j.claimed now) (issued sha1hex i now (j.runs + 1)) d)
  entry : ∃ x, e = .job x ∧
    (Place.active (j.claimed now) (issued sha1hex i now (j.runs + 1)) d).hash i = some x

theorem ClaimOf.acts {d : Score} {e : ClaimEntry} {j : Job} {leaseMs : Double}
    (h : ClaimOf sha1hex t.now d q q' i e j) (hd : leaseMs.plus t.now = .val d) :
    e.acts k t leaseMs =
      if i = k then [.claim (issued sha1hex i t.now (j.runs + 1)) t.now (.val d)] else [] := by
  obtain ⟨x, rfl, hx⟩ := h.entry
  cases hx
  simp [ClaimEntry.acts, Job.hash, hd]

/-- The claim loop claims each job that it pops. -/
theorem claimPointers_claims {leaseMs : Double} {d : Score} (hd : leaseMs.plus t.now = .val d)
    (n : ℕ) (hq : Sound q) :
    ∃ ps q', claimPointers .unbounded sha1hex t.now (.val d) n q = .ok ps q' ∧
      (∀ x ∈ ps, ∃ j, ClaimOf sha1hex t.now d q q' x.1 x.2 j) ∧
      Moves sha1hex (fun k => ps.flatMap (·.2.acts k t leaseMs)) q q' := by
  induction n generalizing q with
  | zero => exact ⟨[], q, rfl, by simp, Moves.refl q⟩
  | succ n ih =>
    rcases hlast : q.waiting.getLast? with _ | i
    · exact ⟨[], q, claimPointers_empty .unbounded sha1hex hlast, by simp, Moves.refl q⟩
    · obtain ⟨j, hj⟩ := hq.waiting_last hlast
      obtain ⟨q1, q2, x, r1, r2, hx, m⟩ := claimOne_waiting sha1hex t.now d hj hlast
      obtain ⟨ps, q3, r3, hps, m3⟩ := ih (m.sound hq)
      have hat := m.claimed sha1hex hj
      have hne : ∀ y ∈ ps, y.1 ≠ i := by
        -- the rest of the loop pops waiting jobs only
        intro y hy he
        obtain ⟨j', hj'⟩ := hps y hy
        rw [he] at hj'
        cases hat.unique hj'.waited
      have hrest : ∀ k, (∀ y ∈ ps, y.1 ≠ k) → ps.flatMap (·.2.acts k t leaseMs) = [] := by
        intro k hk
        rw [List.flatMap_eq_nil_iff]
        intro y hy
        obtain ⟨j', hj'⟩ := hps y hy
        rw [hj'.acts hd, if_neg (hk y hy)]
      refine ⟨(i, .job x) :: ps, q3, ?_, ?_, (m.trans m3).congr fun k => ?_⟩
      · have hpop : q1 = q.setWaiting q.waiting.dropLast := by
          rw [Redis.rpop, hlast] at r1
          cases r1
          rfl
        rw [claimPointers_pop .unbounded sha1hex hlast, ← hpop, Script.bind_ok r2,
          Script.bind_ok r3]
        rfl
      · intro y hy
        rcases List.mem_cons.mp hy with rfl | hy
        · exact ⟨j, hj, m3.stays (hrest i hne) trivial hat, x, rfl, hx⟩
        · obtain ⟨j', hj'⟩ := hps y hy
          exact ⟨j', m.stood hq (if_neg fun he => hne y hy he.symm) trivial hj'.waited,
            hj'.active, hj'.entry⟩
      · cases hx
        simp [ClaimEntry.acts, Job.hash, hd]

variable (sha1hex) in
/-- A claim call of a sound queue, with the pointers of its entries. -/
theorem exec_claim_sound {a : ClaimGlobalBatchArgs} (ha : a.leaseMs ≠ .nan) (hq : Sound q) :
    ∃ (ps : List (String × ClaimEntry)) (d : Score), a.leaseMs.plus t.now = .val d ∧
      (exec sha1hex (.claimGlobalBatch a, t) q).1 = .claimGlobalBatch (ps.map Prod.snd) ∧
      ClaimedBatch sha1hex t.now (claimCount q.limit q.active.card a.count) ps q
        (exec sha1hex (.claimGlobalBatch a, t) q).2 ∧
      ∀ x ∈ ps, ∃ j, ClaimOf sha1hex t.now d q (exec sha1hex (.claimGlobalBatch a, t) q).2
        x.1 x.2 j := by
  obtain ⟨d, hd⟩ := Call.deadline ha t.now
  obtain ⟨ps, q', hrun, hps, -⟩ :=
    claimPointers_claims hd (claimCount q.limit q.active.card a.count) hq
  refine ⟨ps, d, hd, ?_⟩
  rw [exec_claim, claimGlobalBatchPointers_run, hd, hrun]
  exact ⟨rfl, claimPointers_ok .unbounded sha1hex hrun, hps⟩

/-! ## Sweeps -/

/-- The entry `e` shows the recovery of job `i`, which was active as `j`. -/
structure SweepOf (t : RedisTime) (reason : String) (q q' : Queue) (i : String) (e : RecoverEntry)
    (j : Job) : Prop where
  active : ∃ token d, At q i (.active j token d) ∧ d ≤ Score.ofNat t.now
  after : ∃ p', At q' i p' ∧ (p' = j.sweptTo reason t.now ∨
    p' = .gone ∧ ¬ (j.stalled reason t.now).MayStall)
  entry : e = j.sweepEntry i reason t.now

theorem Job.sweepEntry_acts (i k : String) (j : Job) (reason : String) (hk : i ≠ k) :
    (j.sweepEntry i reason t.now).acts k t reason = [] := by
  unfold sweepEntry
  split
  · simp [RecoverEntry.acts, Job.hash, hk]
  · simp [RecoverEntry.acts, Job.hash, hk]

/-- The job that an entry shows back on the waiting list. -/
def RecoverEntry.requeued : RecoverEntry → Option String
  | .job .waiting h => h.id
  | _ => none

/-- A script about one job pushed it as often as its place tells. -/
theorem Touches.pushed {p p' : Place} (h : Touches i q q') (hp : At q i p) (hp' : At q' i p') :
    ∃ n, q'.waiting = List.replicate n i ++ q.waiting ∧
      (p'.sight i).waits = n + (p.sight i).waits := by
  obtain ⟨n, hn⟩ := h.waiting
  refine ⟨n, hn, ?_⟩
  rw [← hp'.waits, ← hp.waits, hn, List.count_append, List.count_replicate_self]

/-- A job that finished stands there, or retention took it. -/
theorem silent_cases {p p' : Place} (h : Reaches (JobStep issue) p [] p') :
    p' = p ∨ p' = .gone ∧ ¬ p.Pending := by
  by_cases hp : p.Pending
  · exact Or.inl (hp.silent h)
  · generalize hes : ([] : List Act) = es at h
    induction h with
    | start => exact Or.inl rfl
    | next _ hst ih =>
      obtain ⟨h1, h2⟩ := List.append_eq_nil_iff.mp hes.symm
      cases hst with
      | evict s j now => exact Or.inr ⟨rfl, hp⟩
      | _ => cases h2

/-- The act of a sweep takes the job to its place. -/
theorem swept_to {j : Job} {token : String} {d : Score} {reason : String} {p' : Place}
    (h : Reaches (JobStep issue) (.active j token d)
      ((j.sweepEntry i reason t.now).acts i t reason) p') :
    p' = j.sweptTo reason t.now ∨ p' = .gone ∧ ¬ (j.stalled reason t.now).MayStall := by
  unfold Job.sweepEntry at h
  unfold Job.sweptTo
  by_cases hm : (j.stalled reason t.now).MayStall
  · rw [if_pos hm] at h ⊢
    simp only [RecoverEntry.acts, Job.hash, if_true] at h
    obtain ⟨b, hb, hrest⟩ := Place.Pending.uncons (p := .active j token d) trivial h
    cases hb
    exact Or.inl (Place.Pending.silent (p := .waiting _) trivial hrest)
  · rw [if_neg hm] at h ⊢
    simp only [RecoverEntry.acts, Job.hash, if_true] at h
    obtain ⟨b, hb, hrest⟩ := Place.Pending.uncons (p := .active j token d) trivial h
    cases hb
    rcases silent_cases hrest with rfl | ⟨rfl, -⟩
    · exact Or.inl rfl
    · exact Or.inr ⟨rfl, hm⟩

variable (sha1hex) in
/-- The turn of the recover loop for a job whose lease ran out. -/
theorem recoverOne_expired (a : RecoverArgs) (limited : Bool) {j : Job} {token : String} {d : Score}
    (h : At q i (.active j token d)) (hd : d ≤ Score.ofNat t.now) :
    ∃ q', recoverOne t a limited i q = .ok [j.sweepEntry i a.reason t.now] q' ∧
      SweepOf t a.reason q q' i (j.sweepEntry i a.reason t.now) j ∧
      q'.waiting = (j.sweepEntry i a.reason t.now).requeued.toList ++ q.waiting ∧
      Moves sha1hex (fun k => (j.sweepEntry i a.reason t.now).acts k t a.reason) q q' := by
  obtain ⟨x, q1, hx, r1, o1⟩ := zremActive_held h
  obtain ⟨q2, r2, m⟩ := recoverRemoved_held sha1hex a limited h hd hx o1
  have hrun := recoverOne_taken h hd r1 r2
  obtain ⟨p', hp', hr⟩ := m i _ h
  refine ⟨q2, hrun, ⟨⟨token, d, h, hd⟩, ⟨p', hp', swept_to hr⟩, rfl⟩, ?_, m⟩
  have htouch := (recoverOne_about (t := t) a limited i).touches q
  rw [Script.after_ok hrun] at htouch
  obtain ⟨n, hn, hwaits⟩ := htouch.pushed h hp'
  rw [hn]
  congr 1
  unfold Job.sweepEntry
  by_cases hm : (j.stalled a.reason t.now).MayStall
  · rcases swept_to hr with rfl | ⟨-, hnot⟩
    · rw [Job.sweptTo, if_pos hm] at hwaits
      cases hwaits
      rw [if_pos hm]
      rfl
    · exact absurd hm hnot
  · have h0 : n = 0 := by
      rcases swept_to hr with rfl | ⟨rfl, -⟩
      · rw [Job.sweptTo, if_neg hm] at hwaits
        exact hwaits.symm
      · exact hwaits.symm
    rw [h0, if_neg hm]
    rfl

/-- The candidate is active, and its lease ran out. -/
def Queue.Expired (q : Queue) (now : ℕ) (i : String) : Prop :=
  ∃ j token d, At q i (.active j token d) ∧ d ≤ Score.ofNat now

/-- A silent job keeps what a sweep made of it. -/
theorem Moves.swept {acts : String → List Act} {j : Job} {reason : String} {now : ℕ}
    (hm : Moves sha1hex acts q q') (hk : acts k = [])
    (h : ∃ p', At q k p' ∧ (p' = j.sweptTo reason now ∨
      p' = .gone ∧ ¬ (j.stalled reason now).MayStall)) :
    ∃ p', At q' k p' ∧ (p' = j.sweptTo reason now ∨
      p' = .gone ∧ ¬ (j.stalled reason now).MayStall) := by
  obtain ⟨p, hp, hcase⟩ := h
  obtain ⟨p', hp', hs⟩ := hm k p hp
  rw [hk] at hs
  refine ⟨p', hp', ?_⟩
  rcases silent_cases hs with rfl | ⟨rfl, hnot⟩
  · exact hcase
  · rcases hcase with rfl | ⟨-, hstall⟩
    · refine Or.inr ⟨rfl, fun hstall => hnot ?_⟩
      rw [Job.sweptTo, if_pos hstall]
      trivial
    · exact Or.inr ⟨rfl, hstall⟩

variable (sha1hex) in
/-- The recover loop recovers each of its candidates, in order. -/
theorem recoverPointers_sweeps (a : RecoverArgs) (limited : Bool) {ids : List String}
    (hq : Sound q) (hnodup : ids.Nodup) (hids : ∀ i ∈ ids, q.Expired t.now i) :
    ∃ ps q', recoverPointers t a limited ids q = .ok ps q' ∧ ps.map Prod.fst = ids ∧
      (∀ x ∈ ps, ∃ j, SweepOf t a.reason q q' x.1 x.2 j) ∧
      q'.waiting = (ps.filterMap (·.2.requeued)).reverse ++ q.waiting ∧
      Moves sha1hex (fun k => ps.flatMap (·.2.acts k t a.reason)) q q' := by
  induction ids generalizing q with
  | nil => exact ⟨[], q, rfl, rfl, by simp, rfl, Moves.refl q⟩
  | cons i ids ih =>
    obtain ⟨hi, hnodup⟩ := List.nodup_cons.mp hnodup
    obtain ⟨j, token, d, hat, hd⟩ := hids i List.mem_cons_self
    obtain ⟨q1, r1, hone, hw1, m1⟩ := recoverOne_expired sha1hex (t := t) a limited hat hd
    have hne : ∀ k ∈ ids, i ≠ k := fun k hk he => hi (he ▸ hk)
    obtain ⟨ps, q2, r2, hfst, hps, hw2, m2⟩ := ih (m1.sound hq) hnodup fun k hk => by
      obtain ⟨j', token', d', hat', hd'⟩ := hids k (List.mem_cons_of_mem _ hk)
      exact ⟨j', token', d',
        m1.stays (Job.sweepEntry_acts i k j a.reason (hne k hk)) trivial hat', hd'⟩
    have hmem : ∀ x ∈ ps, x.1 ∈ ids := fun x hx => hfst ▸ List.mem_map_of_mem hx
    have hrest : ps.flatMap (·.2.acts i t a.reason) = [] := by
      rw [List.flatMap_eq_nil_iff]
      intro x hx
      obtain ⟨j', hj'⟩ := hps x hx
      rw [hj'.entry]
      exact Job.sweepEntry_acts x.1 i j' a.reason (Ne.symm (hne x.1 (hmem x hx)))
    refine ⟨(i, j.sweepEntry i a.reason t.now) :: ps, q2, ?_, ?_, ?_, ?_,
      (m1.trans m2).congr fun k => rfl⟩
    · rw [recoverPointers_cons, Script.bind_ok r1, Script.bind_ok r2]
      rfl
    · rw [List.map_cons, hfst]
    · intro x hx
      rcases List.mem_cons.mp hx with rfl | hx
      · exact ⟨j, hone.active, m2.swept hrest hone.after, rfl⟩
      · obtain ⟨j', ⟨token', d', hat', hd'⟩, hafter, he⟩ := hps x hx
        refine ⟨j', ⟨token', d', ?_, hd'⟩, hafter, he⟩
        exact m1.stood hq (Job.sweepEntry_acts i x.1 j a.reason (hne x.1 (hmem x hx))) trivial hat'
    · rw [hw2, hw1, List.filterMap_cons]
      rcases (j.sweepEntry i a.reason t.now).requeued with _ | k
      · rfl
      · simp

/-- The candidates of a sweep are different jobs whose leases ran out. -/
theorem candidates_expired (a : RecoverArgs) (hq : Sound q) :
    (q.candidates t a).Nodup ∧ ∀ i ∈ q.candidates t a, q.Expired t.now i := by
  have hall : (q.active.rangeByScore (Score.ofNat 0) (Score.ofNat t.now)).Nodup ∧
      ∀ i ∈ q.active.rangeByScore (Score.ofNat 0) (Score.ofNat t.now), q.Expired t.now i := by
    refine ⟨SortedSet.rangeByScore_nodup _ _ _, fun i hi => ?_⟩
    obtain ⟨d, hd, -, hle⟩ := SortedSet.mem_rangeByScore.mp hi
    obtain ⟨p, hp⟩ := hq i
    rw [hp.lease] at hd
    cases p with
    | active j token d' =>
      cases hd
      exact ⟨j, token, d, hp, hle⟩
    | _ => cases hd
  unfold Queue.candidates
  split
  · exact hall
  · exact ⟨hall.1.sublist (List.take_sublist _ _), fun i hi => hall.2 i (List.mem_of_mem_take hi)⟩

variable (sha1hex) in
/-- A sweep of a sound queue, with the pointers of its entries. -/
theorem exec_recover_sound (a : RecoverArgs) (hq : Sound q) :
    ∃ ps : List (String × RecoverEntry),
      (exec sha1hex (.recover a, t) q).1 = .recover (ps.map Prod.snd) ∧
      ps.map Prod.fst = q.candidates t a ∧
      (∀ x ∈ ps, ∃ j, SweepOf t a.reason q (exec sha1hex (.recover a, t) q).2 x.1 x.2 j) ∧
      (exec sha1hex (.recover a, t) q).2.waiting =
        (ps.filterMap (·.2.requeued)).reverse ++ q.waiting := by
  obtain ⟨hnodup, hexpired⟩ := candidates_expired (t := t) a hq
  obtain ⟨ps, q', hrun, hfst, hps, hw, -⟩ :=
    recoverPointers_sweeps sha1hex a q.limit.isSome hq hnodup hexpired
  have hloop : recoverLoop t a q.limit.isSome (q.candidates t a) q = .ok (ps.map Prod.snd) q' := by
    rw [recoverLoop_eq_pointers, map_eq_pure_bind, Script.bind_ok hrun]
    rfl
  refine ⟨ps, ?_⟩
  rw [exec_recover, hloop]
  exact ⟨rfl, hfst, hps, hw⟩

end Panqueue
