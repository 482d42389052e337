-- The batch of a sweep: the active jobs whose deadline passed first. A sweep
-- takes these and no other job, and sweeps in a row take all that is overdue.
import Mathlib.Algebra.Order.Floor.Div
import Panqueue.Retained

namespace Panqueue

variable {q q' q'' : Queue} {t : RedisTime} {i k : String} {reason : String} {now : ℕ}
  {js : List (String × Job)}

/-! ## The batch -/

/-- The active jobs with a deadline from 0 to `now`, in the order of their
deadlines, and of their ids where two deadlines are the same. -/
def Queue.overdue (q : Queue) (now : ℕ) : List String :=
  (q.active.toFinset.filter fun e =>
    Score.ofNat 0 ≤ (ofLex e).1 ∧ (ofLex e).1 ≤ Score.ofNat now).sort.map fun e => (ofLex e).2

theorem Queue.overdue_eq (q : Queue) (now : ℕ) :
    q.overdue now = q.active.rangeByScore (Score.ofNat 0) (Score.ofNat now) := by
  unfold overdue SortedSet.rangeByScore
  rw [SortedSet.sort_toFinset]

theorem Queue.mem_overdue : i ∈ q.overdue now ↔
    ∃ d, q.active.score i = some d ∧ Score.ofNat 0 ≤ d ∧ d ≤ Score.ofNat now := by
  rw [overdue_eq]
  exact SortedSet.mem_rangeByScore

theorem Queue.overdue_nodup (q : Queue) (now : ℕ) : (q.overdue now).Nodup := by
  rw [overdue_eq]
  exact SortedSet.rangeByScore_nodup _ _ _

/-- The script asks for its candidates with LIMIT: it gets the first of the batch. -/
theorem Queue.candidates_eq {a : RecoverArgs} (hb : 0 ≤ a.batchSize) :
    q.candidates t a = (q.overdue t.now).take a.batchSize.toNat := by
  unfold candidates
  rw [overdue_eq, if_neg (by omega)]

/-! ## What a sweep does -/

/-- A sweep took the jobs `js`, in this order. Those with stalls left go to the
back of the waiting list, the others finish. It changed no other job, but for
those that retention evicts. -/
structure Swept (reason : String) (now : ℕ) (js : List (String × Job)) (q q' : Queue) : Prop where
  active : ∀ k, q'.active.score k = if k ∈ js.map Prod.fst then none else q.active.score k
  waiting : q'.waiting = ((js.filter fun x => decide (x.2.stalled reason now).MayStall).map
    Prod.fst).reverse ++ q.waiting
  jobs : ∀ x ∈ js, At q' x.1 (x.2.sweptTo reason now) ∨
    At q' x.1 .gone ∧ ¬ (x.2.stalled reason now).MayStall
  others : ∀ k ∉ js.map Prod.fst,
    q'.sight k = q.sight k ∨ k ∈ q.failed.members ∧ At q' k .gone
  concurrency : q'.concurrency = q.concurrency

theorem Swept.refl (q : Queue) : Swept reason now [] q q :=
  ⟨by simp, rfl, by simp, fun _ _ => Or.inl rfl, rfl⟩

/-- One more job, and then the others. -/
theorem Swept.cons {j : Job} (h : Swept reason now [(i, j)] q q') (h' : Swept reason now js q' q'')
    (hi : i ∉ js.map Prod.fst) : Swept reason now ((i, j) :: js) q q'' := by
  refine ⟨fun k => ?_, ?_, ?_, fun k hk => ?_, h'.concurrency.trans h.concurrency⟩
  · rw [h'.active, h.active]
    by_cases hk : k = i
    · simp [hk]
    · simp only [List.map_cons, List.map_nil, List.mem_cons, List.not_mem_nil, hk, false_or,
        or_false, if_false]
  · rw [h'.waiting, h.waiting, List.filter_cons, List.filter_cons]
    split
    · simp
    · simp
  · intro x hx
    rcases List.mem_cons.mp hx with rfl | hx
    · -- the rest of the sweep may evict the job again
      have hat := h.jobs (i, j) (List.mem_singleton_self _)
      rcases h'.others i hi with hs | ⟨hin, hgone⟩
      · exact hat.imp (fun h1 => h1.of_sight hs) fun h1 => ⟨h1.1.of_sight hs, h1.2⟩
      · refine Or.inr ⟨hgone, fun hm => ?_⟩
        rcases hat with h1 | h1
        · rw [Job.sweptTo, if_pos hm] at h1
          obtain ⟨j1, n1, he⟩ := (h1.mem_index (s := .failed)).mp hin
          cases he
        · exact h1.2 hm
    · exact h'.jobs x hx
  · rw [List.map_cons, List.mem_cons, not_or] at hk
    rcases h.others k (by simpa using hk.1) with h1 | ⟨hin, hgone⟩
    · rcases h'.others k hk.2 with h2 | ⟨hin, hgone⟩
      · exact Or.inl (h2.trans h1)
      · refine Or.inr ⟨?_, hgone⟩
        have hsame : (q'.index .failed).score k = (q.index .failed).score k :=
          congrFun (congrArg Sight.finishedAt h1) .failed
        exact SortedSet.score_isSome.mp (hsame ▸ SortedSet.score_isSome.mpr hin)
    · refine Or.inr ⟨hin, ?_⟩
      rcases h'.others k hk.2 with h2 | ⟨-, hgone'⟩
      · exact hgone.of_sight h2
      · exact hgone'

/-- A sweep leaves a job alone that it does not take and that has not failed. -/
theorem Swept.stays (h : Swept reason now js q q') (hk : k ∉ js.map Prod.fst)
    (hfin : (q.sight k).finishedAt .failed = none) : q'.sight k = q.sight k := by
  refine (h.others k hk).resolve_right fun hin => ?_
  exact SortedSet.score_eq_none.mp hfin hin.1

/-- The turn of an expired job. -/
theorem recoverOne_swept (a : RecoverArgs) (limited : Bool) {j : Job} {token : String} {d : Score}
    (hq : Tidy q) (h : At q i (.active j token d)) (hd : d ≤ Score.ofNat t.now) :
    ∃ q', recoverOne t a limited i q = .ok [j.sweepEntry i a.reason t.now] q' ∧ Tidy q' ∧
      Swept a.reason t.now [(i, j)] q q' := by
  obtain ⟨q', hrun, hof, hw, hm⟩ := recoverOne_expired id (t := t) a limited h hd
  have htidy := recoverOne_tidy (t := t) a limited i hq
  have htouch := (recoverOne_about (t := t) a limited i).touches q
  rw [Script.after_ok hrun] at htidy htouch
  refine ⟨q', hrun, htidy, fun k => ?_, ?_, ?_, fun k hk => ?_, htouch.concurrency⟩
  · by_cases hk : k = i
    · subst hk
      obtain ⟨p', hp', rfl | ⟨rfl, -⟩⟩ := hof.after
      · rw [hp'.lease, if_pos (by simp)]
        unfold Job.sweptTo
        split <;> rfl
      · rw [hp'.lease, if_pos (by simp)]
        rfl
    · rw [htouch.active k hk, if_neg (by simpa using hk)]
  · rw [hw, List.filter_cons]
    unfold Job.sweepEntry RecoverEntry.requeued
    by_cases hstall : (j.stalled a.reason t.now).MayStall
    · simp [hstall, Job.hash]
    · simp [hstall]
  · intro x hx
    cases List.mem_singleton.mp hx
    obtain ⟨p', hp', rfl | ⟨rfl, hnot⟩⟩ := hof.after
    · exact Or.inl hp'
    · exact Or.inr ⟨hp', hnot⟩
  · obtain ⟨x, q1, hx, r1, o1⟩ := zremActive_held h
    obtain ⟨q2, r2, hcase⟩ := recoverRemoved_retires (t := t) a limited hx o1
    rw [recoverOne_taken h hd r1 r2] at hrun
    cases hrun
    have hki : k ≠ i := by simpa using hk
    rcases hcase with ⟨-, -, hne⟩ | ⟨-, hret⟩
    · exact Or.inl (hne k hki)
    · rcases hf : (q.sight k).finishedAt .failed with _ | n
      · exact Or.inl (hret.stays hki hf)
      · obtain ⟨j1, n1, hat, -⟩ := hq.at_index (s := .failed) hf
        rcases hret.places.2 k hki _ hat with hsame | ⟨hgone, -⟩
        · exact Or.inl (Eq.trans hsame hat.symm)
        · exact Or.inr ⟨SortedSet.mem_members_of_score hf, hgone⟩

/-- The turns of different expired jobs. -/
theorem recoverLoop_swept_jobs (a : RecoverArgs) (limited : Bool) (hq : Tidy q)
    (hnodup : (js.map Prod.fst).Nodup)
    (hjs : ∀ x ∈ js, ∃ token d, At q x.1 (.active x.2 token d) ∧ d ≤ Score.ofNat t.now) :
    ∃ q', recoverLoop t a limited (js.map Prod.fst) q =
        .ok (js.map fun x => x.2.sweepEntry x.1 a.reason t.now) q' ∧
      Swept a.reason t.now js q q' := by
  induction js generalizing q with
  | nil => exact ⟨q, rfl, .refl q⟩
  | cons x js ih =>
    obtain ⟨i, j⟩ := x
    obtain ⟨hi, hnodup⟩ := List.nodup_cons.mp hnodup
    obtain ⟨token, d, hat, hd⟩ := hjs (i, j) List.mem_cons_self
    obtain ⟨q1, r1, htidy, hone⟩ := recoverOne_swept a limited hq hat hd
    -- the jobs that are left are still active
    obtain ⟨q2, r2, hrest⟩ := ih htidy hnodup fun y hy => by
      obtain ⟨token', d', hat', hd'⟩ := hjs y (List.mem_cons_of_mem _ hy)
      have hne : y.1 ∉ [(i, j)].map Prod.fst := by
        rw [List.map_singleton, List.mem_singleton]
        exact fun he => hi (he ▸ List.mem_map_of_mem hy)
      exact ⟨token', d', hat'.of_sight (hone.stays hne (by rw [hat']; rfl)), hd'⟩
    refine ⟨q2, ?_, hone.cons hrest hi⟩
    simp only [List.map_cons, recoverLoop, Lua.recoverEach]
    rw [Script.bind_ok r1, Script.bind_ok r2]
    rfl

variable (sha1hex : String → String)

/-- A sweep of a tidy queue takes its batch. -/
theorem exec_recover_swept (t : RedisTime) {a : RecoverArgs} (hb : 0 ≤ a.batchSize)
    (hq : Tidy q) :
    ∃ js : List (String × Job), js.map Prod.fst = (q.overdue t.now).take a.batchSize.toNat ∧
      (∀ x ∈ js, ∃ token d, At q x.1 (.active x.2 token d) ∧ d ≤ Score.ofNat t.now) ∧
      (exec sha1hex (.recover a, t) q).1 =
        .recover (js.map fun x => x.2.sweepEntry x.1 a.reason t.now) ∧
      Swept a.reason t.now js q (exec sha1hex (.recover a, t) q).2 := by
  have hids : ∀ i ∈ (q.overdue t.now).take a.batchSize.toNat,
      ∃ j token d, At q i (.active j token d) ∧ d ≤ Score.ofNat t.now := by
    intro i hi
    obtain ⟨d, hd, -, hle⟩ := Queue.mem_overdue.mp (List.mem_of_mem_take hi)
    obtain ⟨j, token, hat⟩ := hq.at_active hd
    exact ⟨j, token, d, hat, hle⟩
  choose f hf using hids
  let js := ((q.overdue t.now).take a.batchSize.toNat).attach.map fun i => (i.1, f i.1 i.2)
  have hfst : js.map Prod.fst = (q.overdue t.now).take a.batchSize.toNat := by
    rw [List.map_map]
    exact List.attach_map_subtype_val _
  have hjs : ∀ x ∈ js, ∃ token d, At q x.1 (.active x.2 token d) ∧ d ≤ Score.ofNat t.now := by
    intro x hx
    obtain ⟨i, -, rfl⟩ := List.mem_map.mp hx
    exact hf i.1 i.2
  have hnodup : (js.map Prod.fst).Nodup := by
    rw [hfst]
    exact (q.overdue_nodup t.now).sublist (List.take_sublist _ _)
  obtain ⟨q', hrun, hswept⟩ := recoverLoop_swept_jobs a q.limit.isSome hq hnodup hjs
  refine ⟨js, hfst, hjs, ?_⟩
  rw [exec_recover, Queue.candidates_eq hb, ← hfst, hrun]
  exact ⟨rfl, hswept⟩

/-! ## Sweeps in a row -/

/-- What is left of a list without the first `b` of a longer one. -/
theorem filter_notMem_take {l rest : List String} (h : (l ++ rest).Nodup) (b : ℕ) :
    l.filter (fun x => decide (x ∉ (l ++ rest).take b)) = l.drop b := by
  obtain ⟨hl, -, hdisj⟩ := List.nodup_append.mp h
  have hmem : ∀ x ∈ l, x ∈ (l ++ rest).take b ↔ x ∈ l.take b := by
    intro x hx
    rw [List.take_append, List.mem_append]
    exact or_iff_left fun hr => hdisj x hx x (List.mem_of_mem_take hr) rfl
  have hsplit : ((l.take b) ++ (l.drop b)).Nodup := by rwa [List.take_append_drop]
  obtain ⟨-, -, hcut⟩ := List.nodup_append.mp hsplit
  calc l.filter (fun x => decide (x ∉ (l ++ rest).take b))
    _ = l.filter (fun x => decide (x ∉ l.take b)) :=
      List.filter_congr fun x hx => decide_eq_decide.mpr (not_congr (hmem x hx))
    _ = (l.take b ++ l.drop b).filter (fun x => decide (x ∉ l.take b)) := by
      rw [List.take_append_drop]
    _ = [] ++ l.drop b := by
      rw [List.filter_append]
      congr 1
      · exact List.filter_eq_nil_iff.mpr fun x hx => by simpa using hx
      · exact List.filter_eq_self.mpr fun x hx =>
          decide_eq_true fun hx' => hcut x hx' x hx rfl

/-- After a sweep, what was overdue earlier is less by the batch. -/
theorem Swept.overdue {b n : ℕ} (h : Swept reason now js q q')
    (hjs : js.map Prod.fst = (q.overdue n).take b) {m : ℕ} (hm : m ≤ n) :
    q'.overdue m = (q.overdue m).drop b := by
  have hactive : q'.active =
      q.active.keep fun _ k => decide (k ∉ (q.overdue n).take b) := by
    refine SortedSet.ext_score fun k => ?_
    rw [SortedSet.score_keep, h.active, hjs]
    split
    · rename_i hk
      simp [hk]
    · rename_i hk
      simp only [hk, not_false_eq_true, decide_true]
      cases q.active.score k <;> rfl
  have hle : Score.ofNat m ≤ Score.ofNat n := Score.ofNat_le.mpr hm
  obtain ⟨rest, hrest⟩ := q.active.rangeByScore_prefix (Score.ofNat 0) hle
  have hnodup := q.overdue_nodup n
  rw [Queue.overdue_eq] at hactive hnodup
  rw [Queue.overdue_eq, Queue.overdue_eq, hactive, SortedSet.rangeByScore_keep, ← hrest]
  rw [← hrest] at hnodup
  exact filter_notMem_take hnodup b

/-- Some sweep of the trace recovered the job and reported it. -/
def RecoveredIn (i : String) (tr : List ((Call × RedisTime) × Reply)) : Prop :=
  ∃ a t es j, ((.recover a, t), .recover es) ∈ tr ∧ Job.sweepEntry i j a.reason t.now ∈ es

/-- Sweeps in a row, and nothing else in between. -/
def sweepOps (sweeps : List (RecoverArgs × RedisTime)) : List (Call × RedisTime) :=
  sweeps.map fun x => (.recover x.1, x.2)

/-- Sweeps that are enough for all that was overdue leave none of it. -/
theorem sweeps_drain {b : ℕ} {sweeps : List (RecoverArgs × RedisTime)}
    (hs : ∀ x ∈ sweeps, x.1.batchSize = b ∧ now ≤ x.2.now) (hq : Tidy q)
    (hlen : (q.overdue now).length ≤ b * sweeps.length) :
    (∀ k ∉ q.active.members,
      k ∉ (Machine.finish (exec sha1hex) q (sweepOps sweeps)).active.members) ∧
    ∀ i ∈ q.overdue now,
      i ∉ (Machine.finish (exec sha1hex) q (sweepOps sweeps)).active.members ∧
        RecoveredIn i (Machine.trace (exec sha1hex) q (sweepOps sweeps)) := by
  induction sweeps generalizing q with
  | nil =>
    have hnil : q.overdue now = [] := List.length_eq_zero_iff.mp (by simpa using hlen)
    refine ⟨fun k hk => hk, ?_⟩
    rw [hnil]
    simp
  | cons x sweeps ih =>
    obtain ⟨a, t⟩ := x
    obtain ⟨hb, hnow⟩ := hs (a, t) List.mem_cons_self
    obtain ⟨js, hfst, -, hreply, hswept⟩ :=
      exec_recover_swept sha1hex t (a := a) (by rw [show a.batchSize = _ from hb]; omega) hq
    have hbn : a.batchSize.toNat = b := by rw [show a.batchSize = _ from hb, Int.toNat_natCast]
    rw [hbn] at hfst
    have hover := hswept.overdue hfst hnow
    obtain ⟨hgone, hrest⟩ := ih (fun y hy => hs y (List.mem_cons_of_mem _ hy))
      (exec_tidy sha1hex (.recover a, t) hq) (by
        rw [hover, List.length_drop]
        rw [List.length_cons, Nat.mul_succ] at hlen
        omega)
    have hout : ∀ k, (k ∉ q.active.members ∨ k ∈ js.map Prod.fst) →
        k ∉ (Machine.finish (exec sha1hex) q (sweepOps ((a, t) :: sweeps))).active.members := by
      intro k hk
      apply hgone
      rw [← SortedSet.score_eq_none, hswept.active]
      rcases hk with hk | hk
      · rw [SortedSet.score_eq_none.mpr hk, ite_self]
      · rw [if_pos hk]
    refine ⟨fun k hk => hout k (Or.inl hk), fun i hi => ?_⟩
    rw [← List.take_append_drop b (q.overdue now), List.mem_append] at hi
    rcases hi with hi | hi
    · -- the job is in the batch of this sweep
      have hmem : i ∈ js.map Prod.fst := by
        have hpre := q.active.rangeByScore_prefix (Score.ofNat 0) (Score.ofNat_le.mpr hnow)
        rw [← Queue.overdue_eq, ← Queue.overdue_eq] at hpre
        rw [hfst]
        exact (hpre.take b).subset hi
      refine ⟨hout i (Or.inr hmem), ?_⟩
      obtain ⟨x, hx, rfl⟩ := List.mem_map.mp hmem
      refine ⟨a, t, _, x.2, ?_, List.mem_map_of_mem (f := fun x : String × Job =>
        x.2.sweepEntry x.1 a.reason t.now) hx⟩
      rw [← hreply]
      exact List.mem_cons_self
    · rw [← hover] at hi
      obtain ⟨h1, a', t', es, j, hmem, he⟩ := hrest i hi
      exact ⟨h1, a', t', es, j, List.mem_cons_of_mem _ hmem, he⟩

/-! ## The law -/

/-- In every reachable state, a sweep takes the first overdue jobs up to its
batch size, in order, and reports each with the hash that it wrote. Retention
files those that have no stalls left, and never takes a job that still waits
for its turn. Sweeps in a row, as many as the overdue jobs fill batches, take
all that was overdue when they began. -/
theorem a_sweep_takes_its_batch (ops : List (Call × RedisTime)) :
    (∀ (t : RedisTime) (a : RecoverArgs) (rule : Option RetentionRule) (fallback : RetentionRule),
      0 ≤ a.batchSize → a.retention = resolveRetention rule fallback →
      ∃ js : List (String × Job),
        js.map Prod.fst = ((run sha1hex ops).overdue t.now).take a.batchSize.toNat ∧
        (∀ x ∈ js, ∃ token d, At (run sha1hex ops) x.1 (.active x.2 token d)) ∧
        (exec sha1hex (.recover a, t) (run sha1hex ops)).1 =
          .recover (js.map fun x => x.2.sweepEntry x.1 a.reason t.now) ∧
        Swept a.reason t.now js (run sha1hex ops)
          (exec sha1hex (.recover a, t) (run sha1hex ops)).2 ∧
        Files .failed (fun old => (js.map fun x => (x.1, x.2.sweepEntry x.1 a.reason t.now)).foldl
          ((rule.getD fallback).swept t.now) old)
          (run sha1hex ops) (exec sha1hex (.recover a, t) (run sha1hex ops)).2 ∧
        (∀ k ∈ (run sha1hex ops).active.members, k ∉ js.map Prod.fst →
          (exec sha1hex (.recover a, t) (run sha1hex ops)).2.sight k = (run sha1hex ops).sight k) ∧
        ∀ done todo, js = done ++ todo → ∃ q,
          recoverLoop t a (run sha1hex ops).limit.isSome (done.map Prod.fst) (run sha1hex ops) =
            .ok (done.map fun x => x.2.sweepEntry x.1 a.reason t.now) q ∧
          ∀ x ∈ todo, q.sight x.1 = (run sha1hex ops).sight x.1) ∧
    ∀ (now b : ℕ) (sweeps : List (RecoverArgs × RedisTime)), 0 < b →
      (∀ x ∈ sweeps, x.1.batchSize = b ∧ now ≤ x.2.now) →
      ((run sha1hex ops).overdue now).length ⌈/⌉ b ≤ sweeps.length →
      ∀ i ∈ (run sha1hex ops).overdue now,
        i ∉ (Machine.finish (exec sha1hex) (run sha1hex ops) (sweepOps sweeps)).active.members ∧
          RecoveredIn i (Machine.trace (exec sha1hex) (run sha1hex ops) (sweepOps sweeps)) := by
  have hq := tidy_run sha1hex ops
  generalize run sha1hex ops = q at hq
  refine ⟨fun t a rule fallback hb ha => ?_, fun now b sweeps hb hs hlen => ?_⟩
  · obtain ⟨js, hfst, hjs, hreply, hswept⟩ := exec_recover_swept sha1hex t hb hq
    have hnodup : (js.map Prod.fst).Nodup := by
      rw [hfst]
      exact (q.overdue_nodup t.now).sublist (List.take_sublist _ _)
    -- an active job is in no index
    have hactive : ∀ k ∈ q.active.members, (q.sight k).finishedAt .failed = none := by
      intro k hk
      obtain ⟨d, hd⟩ := Option.isSome_iff_exists.mp (SortedSet.score_isSome.mpr hk)
      obtain ⟨j, token, hat⟩ := hq.at_active hd
      rw [hat]
      rfl
    have hmem : ∀ x ∈ js, x.1 ∈ q.active.members := by
      intro x hx
      obtain ⟨token, d, hat, -⟩ := hjs x hx
      exact SortedSet.mem_members_of_score hat.lease
    refine ⟨js, hfst, fun x hx => ?_, hreply, hswept, ?_, fun k hk hnot =>
      hswept.stays hnot (hactive k hk), fun done todo hsplit => ?_⟩
    · obtain ⟨token, d, hat, -⟩ := hjs x hx
      exact ⟨token, d, hat⟩
    · obtain ⟨ps, q', hrun, hids, hturns⟩ := recoverLoop_turns q.limit.isSome ha hq hnodup
        fun i hi => by
          obtain ⟨x, hx, rfl⟩ := List.mem_map.mp hi
          obtain ⟨token, d, hat, hd⟩ := hjs x hx
          exact ⟨x.2, token, d, hat, hd⟩
      rw [exec_recover, Queue.candidates_eq hb, ← hfst, hrun] at hreply ⊢
      have hsnd := Reply.recover.inj hreply
      have hps : ps = js.map fun x => (x.1, x.2.sweepEntry x.1 a.reason t.now) :=
        (List.zip_of_prod hids hsnd).trans List.zip_map'
      rw [← hps]
      exact SweepTurn.files hturns
    · rw [hsplit, List.map_append] at hnodup
      obtain ⟨hdone, -, hdisj⟩ := List.nodup_append.mp hnodup
      obtain ⟨q', hrun, hsw⟩ := recoverLoop_swept_jobs a q.limit.isSome hq hdone fun x hx =>
        hjs x (hsplit ▸ List.mem_append_left _ hx)
      refine ⟨q', hrun, fun x hx => ?_⟩
      exact hsw.stays (fun hin => hdisj _ hin _ (List.mem_map_of_mem hx) rfl)
        (hactive _ (hmem x (hsplit ▸ List.mem_append_right _ hx)))
  · refine (sweeps_drain sha1hex hs hq ?_).2
    exact (ceilDiv_le_iff_le_mul hb).mp hlen

/-- Three jobs, each with a lease of its own. The one enqueued first is due last. -/
def sampleLate : List (Call × RedisTime) :=
  [(.enqueue sampleJob, ⟨1, 0⟩), (.enqueue { sampleJob with jobId := "k" }, ⟨1, 0⟩),
    (.enqueue { sampleJob with jobId := "l" }, ⟨1, 0⟩),
    (.claimGlobalBatch ⟨.ofNat 30000, 1⟩, ⟨2, 0⟩), (.claimGlobalBatch ⟨.ofNat 10000, 1⟩, ⟨3, 0⟩),
    (.claimGlobalBatch ⟨.ofNat 20000, 1⟩, ⟨4, 0⟩)]

/-- A sweep in batches of two. -/
def sampleOverdue : RecoverArgs where
  batchSize := 2
  reason := "stalled"
  retention := resolveRetention none (.all false)

/-- The first sweep takes the two that are due first, and the second the rest. -/
theorem sample_job_is_swept :
    (run id sampleLate).overdue 40000 = ["k", "l", "j"] ∧
    (∃ js : List (String × Job), js.map Prod.fst = ["k", "l"] ∧
      (exec id (.recover sampleOverdue, ⟨40, 0⟩) (run id sampleLate)).1 =
        .recover (js.map fun x => x.2.sweepEntry x.1 "stalled" 40000)) ∧
    ∀ i ∈ ["k", "l", "j"], i ∉ (Machine.finish (exec id) (run id sampleLate)
      (sweepOps [(sampleOverdue, ⟨40, 0⟩), (sampleOverdue, ⟨41, 0⟩)])).active.members := by
  have hover : (run id sampleLate).overdue 40000 = ["k", "l", "j"] := by
    rw [Queue.overdue_eq]
    decide +kernel
  obtain ⟨hfirst, hrow⟩ := a_sweep_takes_its_batch id sampleLate
  refine ⟨hover, ?_, fun i hi => ?_⟩
  · obtain ⟨js, hjs, -, hreply, -⟩ := hfirst ⟨40, 0⟩ sampleOverdue none (.all false) (by decide) rfl
    have htake : js.map Prod.fst = ((run id sampleLate).overdue 40000).take 2 := hjs
    exact ⟨js, by rw [htake, hover]; rfl, hreply⟩
  · have h := hrow 40000 2 [(sampleOverdue, ⟨40, 0⟩), (sampleOverdue, ⟨41, 0⟩)] (by decide)
      (by decide) (by rw [hover]; decide) i (by rw [hover]; exact hi)
    exact h.1

end Panqueue
