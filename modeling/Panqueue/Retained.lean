-- What retention keeps: after each job that finishes, the finished index is
-- what the rule asks for. With bounded rules the job hashes do not pile up.
import Mathlib.Data.Set.Card
import Panqueue.Entries
import Panqueue.Placement
import Panqueue.Tidy

namespace Panqueue

variable {q q' q'' : Queue} {t : RedisTime} {i k : String} {s : FinalStatus}

/-! ## What a rule asks for -/

/-- An entry of a finished index: when a job finished, and its id. -/
abbrev FinishedEntry := Score ×ₗ String

/-- The finished index of a terminal state, without its order. -/
def Queue.finished (q : Queue) (s : FinalStatus) : Finset FinishedEntry := (q.index s).toFinset

/-- A bound of a rule. A bound that is absent or negative is none. -/
def RetentionRule.bound : Option ℤ → Option ℕ
  | some (.ofNat n) => some n
  | _ => none

/-- The entries of the jobs that finished less than `ttl` before `now`. -/
def younger (now : ℕ) (old : Finset FinishedEntry) : Option ℕ → Finset FinishedEntry
  | none => old
  | some ttl => old.filter fun e => Score.ofRat (now - ttl) < (ofLex e).1

/-- The `count` last entries: those of the jobs that finished last, and of two
that finished together the one with the greater id. -/
def newest (old : Finset FinishedEntry) : Option ℕ → Finset FinishedEntry
  | none => old
  | some count => SortedSet.greatest count old

/-- What a rule keeps of the finished jobs, old ones and job `i`, which finishes at `now`. -/
def RetentionRule.retained (rule : RetentionRule) (now : ℕ) (i : String)
    (old : Finset FinishedEntry) : Finset FinishedEntry :=
  match rule with
  | .all false => old
  | .all true => insert (toLex (Score.ofNat now, i)) old
  | .bounds ttl count =>
    newest (younger now (insert (toLex (Score.ofNat now, i)) old) (bound ttl)) (bound count)

/-! ## What the script keeps -/

theorem mem_finished {d : Score} : toLex (d, i) ∈ q.finished s ↔ (q.index s).score i = some d :=
  SortedSet.mem_toFinset

theorem finished_congr (h : ∀ k, (q'.sight k).finishedAt s = (q.sight k).finishedAt s) :
    q'.finished s = q.finished s := SortedSet.toFinset_congr h

theorem finished_setIndex (z : SortedSet Score String) (s s' : FinalStatus) :
    (q.setIndex z s).finished s' = if s' = s then z.toFinset else q.finished s' := by
  unfold Queue.finished
  rw [Queue.setIndex_index]
  split <;> rfl

theorem finished_forget (ids : List String) : (q.forget ids).finished s = q.finished s := by
  unfold Queue.finished
  rw [forget_index]

/-- The index holds what `f` makes of the old one, and the other index is as before. -/
def Files (s : FinalStatus) (f : Finset FinishedEntry → Finset FinishedEntry) (q q' : Queue) :
    Prop :=
  q'.finished s = f (q.finished s) ∧ ∀ s' ≠ s, q'.finished s' = q.finished s'

theorem Files.trans {f g : Finset FinishedEntry → Finset FinishedEntry} (h : Files s f q q')
    (h' : Files s g q' q'') : Files s (fun old => g (f old)) q q'' :=
  ⟨by rw [h'.1, h.1], fun s' hs' => (h'.2 s' hs').trans (h.2 s' hs')⟩

theorem Files.refl (s : FinalStatus) (q : Queue) : Files s (fun old => old) q q :=
  ⟨rfl, fun _ _ => rfl⟩

/-- An index that a trim wrote. -/
theorem files_setIndex {f : Finset FinishedEntry → Finset FinishedEntry}
    {z : SortedSet Score String} (ids : List String) (hz : z.toFinset = f (q.finished s)) :
    Files s f q ((q.forget ids).setIndex z s) := by
  refine ⟨?_, fun s' hs' => ?_⟩
  · rw [finished_setIndex, if_pos rfl, hz]
  · rw [finished_setIndex, if_neg hs', finished_forget]

theorem bound_of_nonneg {n : ℤ} (h : 0 ≤ n) : RetentionRule.bound (some n) = some n.toNat := by
  cases n with
  | ofNat n => rfl
  | negSucc n => exact absurd h (by omega)

theorem bound_of_neg {n : ℤ} (h : ¬ 0 ≤ n) : RetentionRule.bound (some n) = none := by
  cases n with
  | ofNat n => exact absurd (Int.natCast_nonneg n) h
  | negSucc n => rfl

/-- An absent bound goes to the script as -1. -/
theorem bound_getD (x : Option ℤ) :
    RetentionRule.bound (some (x.getD (-1))) = RetentionRule.bound x := by
  cases x <;> rfl

theorem trimByTtl_files {ttl : ℤ} {now : ℕ} (h0 : ∀ e ∈ q.finished s, Score.ofNat 0 ≤ (ofLex e).1)
    (h : trimByTtl s ttl now q = .ok () q') :
    Files s (fun old => younger now old (RetentionRule.bound (some ttl))) q q' := by
  by_cases ht : 0 ≤ ttl
  · rw [trimByTtl_run s ht now q] at h
    cases h
    rw [bound_of_nonneg ht]
    apply files_setIndex
    have hcutoff : Score.ofRat ((now : ℤ) - ttl : ℤ) = Score.ofRat (now - ttl.toNat) := by
      have hn : ((ttl.toNat : ℤ) : ℚ) = (ttl : ℚ) := by rw [Int.toNat_of_nonneg ht]
      rw [Int.cast_sub, ← hn]
      rfl
    rw [hcutoff, SortedSet.removeByScore, SortedSet.toFinset_keep]
    refine Finset.filter_congr fun e he => ?_
    have h1 := h0 e he
    simp only [h1, true_and, Bool.not_eq_true', decide_eq_false_iff_not, not_le]
  · rw [trimByTtl_off s ht now q] at h
    cases h
    rw [bound_of_neg ht]
    exact Files.refl s q

theorem trimByCount_files {count : ℤ} (h : trimByCount s count q = .ok () q') :
    Files s (fun old => newest old (RetentionRule.bound (some count))) q q' := by
  by_cases hc : 0 ≤ count
  · rw [bound_of_nonneg hc]
    rcases trimByCount_run s hc q with ⟨hle, hrun⟩ | hrun
    · rw [hrun] at h
      cases h
      refine ⟨?_, fun _ _ => rfl⟩
      have h0 : (q.index s).card - count.toNat = 0 := by omega
      have hdrop := SortedSet.toFinset_dropFirst (q.index s) count.toNat
      rw [h0] at hdrop
      exact hdrop
    · rw [hrun] at h
      cases h
      exact files_setIndex _ (SortedSet.toFinset_dropFirst _ _)
  · rw [trimByCount_off s hc q] at h
    cases h
    rw [bound_of_neg hc]
    exact Files.refl s q

/-- Retention of a job that is in no index files what the rule keeps. -/
theorem retentionLua_files {rule : Option RetentionRule} {fallback : RetentionRule} {now : ℕ}
    {h : JobHash} (hk : q.jobs i = some (.hash h)) (hi : (q.index s).score i = none)
    (h0 : ∀ e ∈ q.finished s, Score.ofNat 0 ≤ (ofLex e).1)
    (hrun : retentionLua s (resolveRetention rule fallback) now i q = .ok () q') :
    Files s ((rule.getD fallback).retained now i) q q' := by
  let x := { h with status := some s.status, finishedAt := some (.int now) }
  let q1 := (q.setHash i x).setIndex ((q.index s).add (Score.ofNat now) i) s
  have hfile : Files s (fun old => insert (toLex (Score.ofNat now, i)) old) q q1 := by
    have hz := SortedSet.toFinset_add (Score.ofNat now) hi
    refine ⟨?_, fun s' hs' => ?_⟩
    · rw [finished_setIndex, if_pos rfl, hz]
      rfl
    · rw [finished_setIndex, if_neg hs']
      exact congrArg SortedSet.toFinset (Queue.setHash_index q i x s')
  have hnonneg : ∀ e ∈ q1.finished s, Score.ofNat 0 ≤ (ofLex e).1 := by
    intro e he
    rw [hfile.1, Finset.mem_insert] at he
    rcases he with rfl | he
    · exact Score.ofNat_le.mpr (Nat.zero_le now)
    · exact h0 e he
  unfold resolveRetention at hrun
  rcases hrule : rule.getD fallback with (_ | _) | ⟨ttl, count⟩
  · rw [hrule] at hrun
    simp only [retentionLua, Lua.retentionLua, if_true, Redis.del] at hrun
    cases hrun
    exact ⟨rfl, fun _ _ => rfl⟩
  · rw [hrule] at hrun
    rw [retentionLua_run s now hk (by simp), if_neg (by simp)] at hrun
    cases hrun
    exact hfile
  · rw [hrule] at hrun
    by_cases hoff : ttl.getD (-1) < 0 ∧ count.getD (-1) < 0
    · simp only [if_pos hoff] at hrun
      rw [retentionLua_run s now hk (by simp), if_neg (by simp)] at hrun
      cases hrun
      have hkeep : (RetentionRule.bounds ttl count).retained now i =
          fun old => insert (toLex (Score.ofNat now, i)) old := by
        funext old
        change newest (younger now _ (RetentionRule.bound ttl)) (RetentionRule.bound count) = _
        rw [← bound_getD ttl, ← bound_getD count, bound_of_neg (by omega), bound_of_neg (by omega)]
        rfl
      rw [hkeep]
      exact hfile
    · simp only [if_neg hoff] at hrun
      rw [retentionLua_run s now hk (by simp), if_pos rfl] at hrun
      obtain ⟨_, q2, httl, hcount⟩ := Script.bind_eq_ok.mp hrun
      have htrim := (hfile.trans (trimByTtl_files hnonneg httl)).trans (trimByCount_files hcount)
      rw [bound_getD, bound_getD] at htrim
      exact htrim

/-! ## Transitions -/

theorem At.mem_index {p : Place} (h : At q i p) :
    i ∈ (q.index s).members ↔ ∃ j n, p = .finished s j n := by
  rw [← SortedSet.score_isSome, h.index]
  constructor
  · intro hs
    cases p with
    | finished s' j n =>
      by_cases he : s = s'
      · exact ⟨j, n, he ▸ rfl⟩
      · simp [Place.sight, he] at hs
    | _ => cases hs
  · rintro ⟨j, n, rfl⟩
    simp [Place.sight]

theorem members_of_finished (h : q'.finished s = q.finished s) :
    i ∈ (q'.index s).members ↔ i ∈ (q.index s).members := by
  rw [← SortedSet.score_isSome, ← SortedSet.score_isSome, Option.isSome_iff_exists,
    Option.isSome_iff_exists]
  simp only [← mem_finished, h]

theorem Tidy.finished_nonneg (hq : Tidy q) :
    ∀ e ∈ q.finished s, Score.ofNat 0 ≤ (ofLex e).1 := by
  intro e he
  obtain ⟨⟨d, i⟩, rfl⟩ := toLex.surjective e
  obtain ⟨j, n, -, rfl⟩ := hq.at_index (mem_finished.mp he)
  exact Score.ofNat_le.mpr (Nat.zero_le n)

/-- Job `i` finishes at `now`. The index holds what the rule asks for, the other
index is as before, and of the job hashes those of the entries that went are
gone. -/
structure Retains (rule : RetentionRule) (s : FinalStatus) (now : ℕ) (i : String) (q q' : Queue) :
    Prop where
  files : Files s (rule.retained now i) q q'
  deleted : ∀ k, k = i ∨ k ∈ (q.index s).members → k ∉ (q'.index s).members → q'.jobs k = none
  kept : i ∈ (q'.index s).members → ∃ h, q'.jobs i = some (.hash h) ∧
    h.status = some s.status ∧ h.finishedAt = some (.int now)
  others : ∀ k ≠ i, k ∉ (q.index s).members ∨ k ∈ (q'.index s).members → q'.jobs k = q.jobs k

/-- Where the jobs are after a script that retired job `i`. -/
theorem Retires.places {r : ResolvedRetention} {now : ℕ} {j : Job} (h : Retires s r now i j q q') :
    (∃ p, At q' i p ∧ (p = .finished s j now ∨ p = .gone)) ∧
      ∀ k ≠ i, ∀ p, At q k p → At q' k p ∨ At q' k .gone ∧ ¬ p.Pending := by
  have hret := h.retired id
  constructor
  · obtain ⟨p, hp, hs⟩ := hret.here
    refine ⟨p, hp, ?_⟩
    rcases silent_cases hs with rfl | ⟨rfl, -⟩
    · exact Or.inl rfl
    · exact Or.inr rfl
  · intro k hk p hp
    obtain ⟨p', hat, hs⟩ := hret.others k hk p hp
    rcases silent_cases hs with rfl | ⟨rfl, hnot⟩
    · exact Or.inl hat
    · exact Or.inr ⟨hat, hnot⟩

/-- What a script that retired an active job filed. -/
theorem Retires.files {rule : Option RetentionRule} {fallback : RetentionRule} {now : ℕ}
    {j j' : Job} {token : String} {d : Score} (hq : Tidy q) (hp : At q i (.active j' token d))
    (h : Retires s (resolveRetention rule fallback) now i j q q') :
    Files s ((rule.getD fallback).retained now i) q q' := by
  obtain ⟨x, q1, q2, hheld, -, hrun, hsame⟩ := h
  -- in the hands of the script, the job is in no index, as before
  have hbefore : ∀ s, q1.finished s = q.finished s := by
    intro s
    apply finished_congr
    intro k
    by_cases hk : k = i
    · rw [hk, hheld.here, hp]
      rfl
    · rw [hheld.others k hk]
  have hi : (q1.index s).score i = none := congrFun (congrArg Sight.finishedAt hheld.here) s
  have hfiles := retentionLua_files hheld.key hi
    (by rw [hbefore]; exact hq.finished_nonneg) hrun
  have hafter : ∀ s, q'.finished s = q2.finished s := fun s =>
    finished_congr fun k => by rw [hsame k]
  refine ⟨?_, fun s' hs' => ?_⟩
  · rw [hafter, hfiles.1, hbefore]
  · rw [hafter, hfiles.2 s' hs', hbefore]

/-- A script that retires an active job retains what the rule says. -/
theorem Retires.retains {rule : Option RetentionRule} {fallback : RetentionRule} {now : ℕ}
    {j j' : Job} {token : String} {d : Score} (hq : Tidy q) (hp : At q i (.active j' token d))
    (h : Retires s (resolveRetention rule fallback) now i j q q') :
    Retains (rule.getD fallback) s now i q q' := by
  have hfiles := h.files hq hp
  obtain ⟨⟨p, hat, hcase⟩, hothers⟩ := h.places
  refine ⟨hfiles, fun k hk hgone => ?_, fun hin => ?_, fun k hki hk => ?_⟩
  · by_cases hki : k = i
    · subst hki
      rcases hcase with rfl | rfl
      · exact absurd (hat.mem_index.mpr ⟨j, now, rfl⟩) hgone
      · exact hat.key
    · obtain ⟨d', hd'⟩ := Option.isSome_iff_exists.mp
        (SortedSet.score_isSome.mpr (hk.resolve_left hki))
      obtain ⟨j1, n1, hr, -⟩ := hq.at_index hd'
      rcases hothers k hki _ hr with hsame | ⟨hgone', -⟩
      · exact absurd (hsame.mem_index.mpr ⟨j1, n1, rfl⟩) hgone
      · exact hgone'.key
  · rcases hcase with rfl | rfl
    · exact ⟨_, hat.key, rfl, rfl⟩
    · obtain ⟨j1, n1, he⟩ := hat.mem_index.mp hin
      cases he
  · rcases hq k with ⟨r, hr⟩ | ⟨j', token', hlost⟩
    swap
    · exact congrArg Sight.key (h.stays hki (by rw [hlost]; rfl))
    rcases hothers k hki r hr with hsame | ⟨hgone, hnot⟩
    · rw [hsame.key, hr.key]
    · -- it finished and went, so it stood in the index and does not any more
      have hno : ∀ s, k ∉ (q'.index s).members := fun s hin => by
        obtain ⟨j1, n1, he⟩ := hgone.mem_index.mp hin
        cases he
      cases r with
      | gone => rw [hgone.key, hr.key]
      | waiting j1 => exact absurd trivial hnot
      | active j1 token1 d1 => exact absurd trivial hnot
      | finished s1 j1 n1 =>
        have hin : k ∈ (q.index s1).members := hr.mem_index.mpr ⟨j1, n1, rfl⟩
        by_cases hs : s1 = s
        · subst hs
          rcases hk with hk | hk
          · exact absurd hin hk
          · exact absurd hk (hno s1)
        · exact absurd ((members_of_finished (hfiles.2 s1 hs)).mpr hin) (hno s1)

/-! ## Sweeps -/

/-- One turn of a sweep: the entry of its candidate tells whether the job waits
again or finishes. -/
inductive SweepTurn (rule : RetentionRule) (t : RedisTime) (a : RecoverArgs) (limited : Bool) :
    Queue → List (String × RecoverEntry) → Queue → Prop
  | waiting {q q' : Queue} (i : String) (h : JobHash)
      (hrun : recoverOne t a limited i q = .ok [.job .waiting h] q')
      (hindex : ∀ s, q'.finished s = q.finished s) (hothers : ∀ k ≠ i, q'.jobs k = q.jobs k) :
      SweepTurn rule t a limited q [(i, .job .waiting h)] q'
  | failed {q q' : Queue} (i : String) (h : JobHash)
      (hrun : recoverOne t a limited i q = .ok [.job .failed h] q')
      (hretains : Retains rule .failed t.now i q q') :
      SweepTurn rule t a limited q [(i, .job .failed h)] q'

/-- What a rule keeps of the failed jobs after one more entry of a sweep. -/
def RetentionRule.swept (rule : RetentionRule) (now : ℕ) (old : Finset FinishedEntry)
    (x : String × RecoverEntry) : Finset FinishedEntry :=
  match x.2 with
  | .job .failed _ => rule.retained now x.1 old
  | _ => old

theorem SweepTurn.files {rule : RetentionRule} {a : RecoverArgs} {limited : Bool}
    {ps : List (String × RecoverEntry)} (h : Reaches (SweepTurn rule t a limited) q ps q') :
    Files .failed (fun old => ps.foldl (rule.swept t.now) old) q q' := by
  induction h with
  | start => exact Files.refl .failed q
  | next _ hst ih =>
    cases hst with
    | waiting i h hrun hindex hothers =>
      refine ⟨?_, fun s hs => (hindex s).trans (ih.2 s hs)⟩
      rw [hindex, ih.1]
      simp only [List.foldl_append, List.foldl_cons, List.foldl_nil, RetentionRule.swept]
    | failed i h hrun hretains =>
      refine ⟨?_, fun s hs => (hretains.files.2 s hs).trans (ih.2 s hs)⟩
      rw [hretains.files.1, ih.1]
      simp only [List.foldl_append, List.foldl_cons, List.foldl_nil, RetentionRule.swept]

/-- A job that goes back to the waiting list leaves the finished jobs alone. -/
theorem finished_of_waiting {j j' : Job} {token : String} {d : Score}
    (hp : At q i (.active j token d)) (hp' : At q' i (.waiting j'))
    (hne : ∀ k ≠ i, q'.sight k = q.sight k) (s : FinalStatus) : q'.finished s = q.finished s := by
  apply finished_congr
  intro k
  by_cases hk : k = i
  · rw [hk, hp, hp']
    rfl
  · rw [hne k hk]

/-- The turn of a job whose lease ran out. -/
theorem recoverOne_retains {rule : Option RetentionRule} {fallback : RetentionRule}
    {a : RecoverArgs} (limited : Bool) {j : Job} {token : String} {d : Score}
    (ha : a.retention = resolveRetention rule fallback) (hq : Tidy q)
    (h : At q i (.active j token d)) (hd : d ≤ Score.ofNat t.now) :
    ∃ q', recoverOne t a limited i q = .ok [j.sweepEntry i a.reason t.now] q' ∧
      SweepTurn (rule.getD fallback) t a limited q [(i, j.sweepEntry i a.reason t.now)] q' := by
  obtain ⟨x, q1, hx, r1, o1⟩ := zremActive_held h
  obtain ⟨q2, r2, hcase⟩ := recoverRemoved_retires (t := t) a limited hx o1
  have hrun := recoverOne_taken h hd r1 r2
  refine ⟨q2, hrun, ?_⟩
  unfold Job.sweepEntry at hrun ⊢
  rcases hcase with ⟨hm, hat, hne⟩ | ⟨hm, hret⟩
  · rw [if_pos hm] at hrun ⊢
    exact .waiting i _ hrun (finished_of_waiting h hat hne) fun k hk =>
      congrArg Sight.key (hne k hk)
  · rw [if_neg hm] at hrun ⊢
    rw [ha] at hret
    exact .failed i _ hrun (hret.retains hq h)

/-- A sweep takes one turn for each of its candidates. -/
theorem recoverLoop_turns {rule : Option RetentionRule} {fallback : RetentionRule}
    {a : RecoverArgs} (limited : Bool) (ha : a.retention = resolveRetention rule fallback)
    {ids : List String} (hq : Tidy q) (hnodup : ids.Nodup)
    (hids : ∀ i ∈ ids, q.Expired t.now i) :
    ∃ ps q', recoverLoop t a limited ids q = .ok (ps.map Prod.snd) q' ∧ ps.map Prod.fst = ids ∧
      Reaches (SweepTurn (rule.getD fallback) t a limited) q ps q' := by
  induction ids generalizing q with
  | nil => exact ⟨[], q, rfl, rfl, .start⟩
  | cons i ids ih =>
    obtain ⟨hi, hnodup⟩ := List.nodup_cons.mp hnodup
    obtain ⟨j, token, d, hat, hd⟩ := hids i List.mem_cons_self
    obtain ⟨q1, r1, hturn⟩ := recoverOne_retains limited ha hq hat hd
    obtain ⟨q1', r1', -, -, m1⟩ := recoverOne_expired id (t := t) a limited hat hd
    rw [r1] at r1'
    cases r1'
    have htidy := recoverOne_tidy (t := t) a limited i hq
    rw [Script.after_ok r1] at htidy
    -- the candidates that are left still wait for their turn
    obtain ⟨ps, q2, r2, hfst, hturns⟩ := ih htidy hnodup fun k hk => by
      obtain ⟨j', token', d', hat', hd'⟩ := hids k (List.mem_cons_of_mem _ hk)
      have hne : i ≠ k := fun he => hi (he ▸ hk)
      exact ⟨j', token', d', m1.stays (Job.sweepEntry_acts i k j a.reason hne) trivial hat', hd'⟩
    refine ⟨(i, j.sweepEntry i a.reason t.now) :: ps, q2, ?_, ?_,
      (Reaches.single hturn).trans hturns⟩
    · rw [recoverLoop, Lua.recoverEach, Script.bind_ok r1, Script.bind_ok r2]
      rfl
    · rw [List.map_cons, hfst]

/-! ## Bounded rules -/

/-- The most finished jobs that a rule keeps, when it has such a bound. -/
def RetentionRule.cap : RetentionRule → Option ℕ
  | .all false => some 0
  | .all true => none
  | .bounds _ count => bound count

theorem RetentionRule.card_retained_le {rule : RetentionRule} {n : ℕ} (h : rule.cap = some n)
    (now : ℕ) (i : String) {old : Finset FinishedEntry} (ho : old.card ≤ n) :
    (rule.retained now i old).card ≤ n := by
  rcases rule with (_ | _) | ⟨ttl, count⟩
  · exact ho
  · cases h
  · change (newest _ (bound count)).card ≤ n
    rw [show bound count = some n from h]
    exact SortedSet.card_greatest_le n _

theorem RetentionRule.card_swept_le {rule : RetentionRule} {n : ℕ} (h : rule.cap = some n)
    (now : ℕ) (ps : List (String × RecoverEntry)) {old : Finset FinishedEntry}
    (ho : old.card ≤ n) : (ps.foldl (rule.swept now) old).card ≤ n := by
  induction ps generalizing old with
  | nil => exact ho
  | cons x ps ih =>
    apply ih
    unfold swept
    split
    · exact card_retained_le h now x.1 ho
    · exact ho

/-- The calls that finish jobs carry the policy of their terminal state. -/
def Call.Follows (policy : FinalStatus → ResolvedRetention) : Call → Prop
  | .complete a => a.retention = policy .completed
  | .fail a => a.retention = policy .failed
  | .recover a => a.retention = policy .failed
  | _ => True

instance (policy : FinalStatus → ResolvedRetention) : DecidablePred (Call.Follows policy)
  | .complete a => inferInstanceAs (Decidable (a.retention = policy .completed))
  | .fail a => inferInstanceAs (Decidable (a.retention = policy .failed))
  | .recover a => inferInstanceAs (Decidable (a.retention = policy .failed))
  | .enqueue _ | .claimGlobalBatch _ | .extendLock _ | .requeueActive _
  | .declareConcurrencyLimit _ => inferInstanceAs (Decidable True)

/-- A job that finished without an act that ends it had finished before. -/
theorem finished_back {issue : ℕ → ℕ → String} {p p' : Place} {es : List Act} {j : Job} {n : ℕ}
    (h : Reaches (JobStep issue) p es p') (hp' : p' = .finished s j n)
    (hes : ∀ e ∈ es, ¬ e.EndsJob) : p = p' := by
  induction h with
  | start => rfl
  | next _ hst _ =>
    subst hp'
    cases hst with
    | complete j token d now =>
      exact absurd trivial (hes _ (List.mem_append_right _ (List.mem_singleton_self _)))
    | fail j token d error now hm =>
      exact absurd trivial (hes _ (List.mem_append_right _ (List.mem_singleton_self _)))
    | stallOut j token d reason now hd hm =>
      exact absurd trivial (hes _ (List.mem_append_right _ (List.mem_singleton_self _)))

variable (sha1hex : String → String)

/-- A call that can end no job files none. -/
theorem exec_finished_subset (op : Call × RedisTime) (hop : op.1.LeaseIsNumber) (hq : Sound q)
    (hcomplete : ∀ a, op.1 ≠ .complete a) (hfail : ∀ a, op.1 ≠ .fail a)
    (hrecover : ∀ a, op.1 ≠ .recover a) (s : FinalStatus) :
    (exec sha1hex op q).2.finished s ⊆ q.finished s := by
  obtain ⟨hm, -⟩ := exec_moves sha1hex op hop hq
  intro e he
  obtain ⟨⟨d, i⟩, rfl⟩ := toLex.surjective e
  have hd := mem_finished.mp he
  obtain ⟨p, hp⟩ := hq i
  obtain ⟨p', hp', hs⟩ := hm i p hp
  obtain ⟨j, n, rfl⟩ := hp'.mem_index.mp (SortedSet.mem_members_of_score hd)
  have hback := finished_back hs rfl fun e he hends => by
    rcases Act.EndsJob.call hends (of_mem_actsOf he) with ⟨a, h⟩ | ⟨a, h⟩ | ⟨a, h⟩
    · exact hcomplete a h
    · exact hfail a h
    · exact hrecover a h
  subst hback
  rw [mem_finished, hp.index, ← hp'.index]
  exact hd

/-- A call keeps the finished jobs within the bounds of the policies. -/
theorem exec_capped {rules : FinalStatus → Option RetentionRule}
    {fallback : FinalStatus → RetentionRule} {caps : FinalStatus → ℕ}
    (hcaps : ∀ s, ((rules s).getD (fallback s)).cap = some (caps s)) (op : Call × RedisTime)
    (hop : op.1.LeaseIsNumber)
    (hpolicy : op.1.Follows fun s => resolveRetention (rules s) (fallback s)) (hq : Sound q)
    (h : ∀ s, (q.finished s).card ≤ caps s) :
    ∀ s, ((exec sha1hex op q).2.finished s).card ≤ caps s := by
  -- an index that a rule filed is within its cap, and the other one is as before
  have hfiled : ∀ (s : FinalStatus) (now : ℕ) (i : String) (q' : Queue),
      Files s (((rules s).getD (fallback s)).retained now i) q q' →
        ∀ s', (q'.finished s').card ≤ caps s' := by
    intro s now i q' hf s'
    by_cases hs : s' = s
    · rw [hs, hf.1]
      exact RetentionRule.card_retained_le (hcaps s) now i (h s)
    · rw [hf.2 s' hs]
      exact h s'
  obtain ⟨call, t⟩ := op
  cases call with
  | complete a =>
    obtain ⟨p, hp⟩ := hq a.jobId
    rcases p.holder_or a.lockToken with ⟨j, d, rfl⟩ | hne
    · obtain ⟨q', hrun, hret⟩ := complete_retires (t := t) hp.locked
      rw [show a.retention = _ from hpolicy] at hret
      simp only [exec, Lua.exec, runScript, hrun]
      exact hfiled .completed t.now a.jobId q' (hret.files hq.tidy hp)
    · simp only [exec, Lua.exec, runScript, Lua.complete, Lua.completeWith, hp.refused hne]
      exact h
  | fail a =>
    obtain ⟨p, hp⟩ := hq a.jobId
    rcases p.holder_or a.lockToken with ⟨j, d, rfl⟩ | hne
    · rcases fail_retires (t := t) hp.locked with ⟨-, q', hrun, hat, hothers⟩ | ⟨-, q', hrun, hret⟩
      · simp only [exec, Lua.exec, runScript, hrun]
        intro s
        rw [finished_of_waiting hp hat hothers s]
        exact h s
      · rw [show a.retention = _ from hpolicy] at hret
        simp only [exec, Lua.exec, runScript, hrun]
        exact hfiled .failed t.now a.jobId q' (hret.files hq.tidy hp)
    · simp only [exec, Lua.exec, runScript, Lua.fail, Lua.failWith, hp.refused hne]
      exact h
  | recover a =>
    obtain ⟨hnodup, hexpired⟩ := candidates_expired (t := t) a hq
    obtain ⟨ps, q', hrun, -, hturns⟩ :=
      recoverLoop_turns q.limit.isSome hpolicy hq.tidy hnodup hexpired
    have hfiles := SweepTurn.files hturns
    rw [exec_recover, hrun]
    intro s
    by_cases hs : s = .failed
    · rw [hs, hfiles.1]
      exact RetentionRule.card_swept_le (hcaps .failed) t.now ps (h .failed)
    · rw [hfiles.2 s hs]
      exact h s
  | _ =>
    intro s
    refine Nat.le_trans (Finset.card_le_card ?_) (h s)
    apply exec_finished_subset sha1hex _ hop hq <;> simp

/-- Each job hash belongs to a job that waits, is active or has finished. -/
theorem Sound.hashes_le (hq : Sound q) :
    {k | (q.jobs k).isSome}.encard ≤ ((q.waiting.length + q.active.card +
      (q.finished .completed).card + (q.finished .failed).card : ℕ) : ℕ∞) := by
  let listed : Finset String := q.waiting.toFinset ∪ q.active.members.toFinset ∪
    q.completed.members.toFinset ∪ q.failed.members.toFinset
  have hsub : {k | (q.jobs k).isSome} ⊆ (listed : Set String) := by
    intro k hk
    obtain ⟨v, hv⟩ := Option.isSome_iff_exists.mp hk
    obtain ⟨h, s, -, -, hs⟩ := hq.placed.one k v hv
    have hlists := (hs s).mpr rfl
    simp only [listed, Finset.mem_coe, Finset.mem_union, List.mem_toFinset]
    cases s with
    | waiting => exact Or.inl (Or.inl (Or.inl hlists))
    | active => exact Or.inl (Or.inl (Or.inr hlists))
    | completed => exact Or.inl (Or.inr hlists)
    | failed => exact Or.inr hlists
    | delayed => exact hlists.elim
  have hcard : listed.card ≤ q.waiting.length + q.active.card +
      (q.finished .completed).card + (q.finished .failed).card := by
    have h1 := q.waiting.toFinset_card_le
    have h2 := q.active.members.toFinset_card_le
    have h3 := q.completed.members.toFinset_card_le
    have h4 := q.failed.members.toFinset_card_le
    rw [SortedSet.members_length] at h2 h3 h4
    have h5 : (q.finished .completed).card = q.completed.card := SortedSet.card_toFinset _
    have h6 : (q.finished .failed).card = q.failed.card := SortedSet.card_toFinset _
    have h7 := Finset.card_union_le q.waiting.toFinset q.active.members.toFinset
    have h8 := Finset.card_union_le (q.waiting.toFinset ∪ q.active.members.toFinset)
      q.completed.members.toFinset
    have h9 := Finset.card_union_le (q.waiting.toFinset ∪ q.active.members.toFinset ∪
      q.completed.members.toFinset) q.failed.members.toFinset
    simp only [listed]
    omega
  calc {k | (q.jobs k).isSome}.encard
    _ ≤ (listed : Set String).encard := Set.encard_le_encard hsub
    _ = (listed.card : ℕ∞) := Set.encard_coe_eq_coe_finsetCard listed
    _ ≤ _ := Nat.cast_le.mpr hcard

/-! ## The law -/

/-- In every run, a job that finishes leaves the finished index that its rule
asks for, whichever of the three scripts finished it. With rules that keep no
job or bound their number, the job hashes stay within these bounds. -/
theorem retention_keeps_what_the_rule_asks (ops : List (Call × RedisTime))
    (hl : LeasesAreNumbers ops) :
    (∀ (rule : Option RetentionRule) (fallback : RetentionRule) (t : RedisTime),
      (∀ a : CompleteArgs, a.retention = resolveRetention rule fallback →
        (exec sha1hex (.complete a, t) (run sha1hex ops)).1 = .complete .completed →
        Retains (rule.getD fallback) .completed t.now a.jobId (run sha1hex ops)
          (exec sha1hex (.complete a, t) (run sha1hex ops)).2) ∧
      (∀ a : FailArgs, a.retention = resolveRetention rule fallback →
        (exec sha1hex (.fail a, t) (run sha1hex ops)).1 = .fail .failed →
        Retains (rule.getD fallback) .failed t.now a.jobId (run sha1hex ops)
          (exec sha1hex (.fail a, t) (run sha1hex ops)).2) ∧
      ∀ a : RecoverArgs, a.retention = resolveRetention rule fallback → ∃ ps,
        (exec sha1hex (.recover a, t) (run sha1hex ops)).1 = .recover (ps.map Prod.snd) ∧
        Reaches (SweepTurn (rule.getD fallback) t a (run sha1hex ops).limit.isSome)
          (run sha1hex ops) ps (exec sha1hex (.recover a, t) (run sha1hex ops)).2 ∧
        Files .failed (fun old => ps.foldl ((rule.getD fallback).swept t.now) old)
          (run sha1hex ops) (exec sha1hex (.recover a, t) (run sha1hex ops)).2) ∧
    ∀ (rules : FinalStatus → Option RetentionRule) (fallback : FinalStatus → RetentionRule)
      (caps : FinalStatus → ℕ), (∀ s, ((rules s).getD (fallback s)).cap = some (caps s)) →
      (∀ op ∈ ops, op.1.Follows fun s => resolveRetention (rules s) (fallback s)) →
      {k | ((run sha1hex ops).jobs k).isSome}.encard ≤
        (((run sha1hex ops).waiting.length + (run sha1hex ops).active.card +
          caps .completed + caps .failed : ℕ) : ℕ∞) := by
  have hq := sound_run sha1hex hl
  refine ⟨fun rule fallback t => ⟨fun a ha hreply => ?_, fun a ha hreply => ?_, fun a ha => ?_⟩,
    fun rules fallback caps hcaps hpolicy => ?_⟩
  · obtain ⟨p, hp⟩ := hq a.jobId
    rcases p.holder_or a.lockToken with ⟨j, d, rfl⟩ | hne
    · obtain ⟨q', hrun, hret⟩ := complete_retires (t := t) hp.locked
      rw [ha] at hret
      simp only [exec, Lua.exec, runScript, hrun]
      exact hret.retains hq.tidy hp
    · simp only [exec, Lua.exec, runScript, Lua.complete, Lua.completeWith,
        hp.refused hne] at hreply
      split at hreply <;> cases hreply
  · obtain ⟨p, hp⟩ := hq a.jobId
    rcases p.holder_or a.lockToken with ⟨j, d, rfl⟩ | hne
    · rcases fail_retires (t := t) hp.locked with ⟨-, q', hrun, -⟩ | ⟨-, q', hrun, hret⟩
      · simp only [exec, Lua.exec, runScript, hrun] at hreply
        cases hreply
      · rw [ha] at hret
        simp only [exec, Lua.exec, runScript, hrun]
        exact hret.retains hq.tidy hp
    · simp only [exec, Lua.exec, runScript, Lua.fail, Lua.failWith, hp.refused hne] at hreply
      split at hreply <;> cases hreply
  · obtain ⟨hnodup, hexpired⟩ := candidates_expired (t := t) a hq
    obtain ⟨ps, q', hrun, -, hturns⟩ :=
      recoverLoop_turns (run sha1hex ops).limit.isSome ha hq.tidy hnodup hexpired
    refine ⟨ps, ?_⟩
    rw [exec_recover, hrun]
    exact ⟨rfl, hturns, SweepTurn.files hturns⟩
  · have hcapped : Sound (run sha1hex ops) ∧ ∀ s, ((run sha1hex ops).finished s).card ≤ caps s := by
      refine Machine.finish_invariant
        (P := fun q => Sound q ∧ ∀ s, (q.finished s).card ≤ caps s)
        (C := fun op => op.1.LeaseIsNumber ∧
          op.1.Follows fun s => resolveRetention (rules s) (fallback s)) ?_ ?_ ?_
      · exact ⟨sound_empty, fun s => by cases s <;> exact Nat.zero_le _⟩
      · rintro op q ⟨hop, hfollows⟩ ⟨hsound, hcap⟩
        exact ⟨(exec_moves sha1hex op hop hsound).1.sound hsound,
          exec_capped sha1hex hcaps op hop hfollows hsound hcap⟩
      · exact fun op hmem => ⟨hl op hmem, hpolicy op hmem⟩
    refine hq.hashes_le.trans (Nat.cast_le.mpr ?_)
    have h1 := hcapped.2 .completed
    have h2 := hcapped.2 .failed
    omega

/-- A job of the sample batch is completed under a rule that keeps one job. -/
def sampleComplete (jobId : String) : CompleteArgs where
  jobId
  lockToken := jobId ++ ":2000:1"
  retention := resolveRetention (some (.bounds none (some 1))) (.all false)

/-- Two jobs are claimed, and the first is completed. -/
def sampleKept : List (Call × RedisTime) :=
  [(.enqueue sampleJob, ⟨1, 0⟩), (.enqueue { sampleJob with jobId := "k" }, ⟨1, 0⟩),
    (.claimGlobalBatch ⟨.ofNat 30000, 2⟩, ⟨2, 0⟩), (.complete (sampleComplete "j"), ⟨3, 0⟩)]

/-- When the second job is completed, its rule drops the first, and the one job
hash that is left is within the bounds. -/
theorem sample_job_is_kept :
    ((run id sampleKept).jobs "j").isSome = true ∧
    (exec id (.complete (sampleComplete "k"), ⟨4, 0⟩) (run id sampleKept)).2.jobs "j" = none ∧
    {k | ((run id (sampleKept ++ [(.complete (sampleComplete "k"), ⟨4, 0⟩)])).jobs k).isSome}.encard
      ≤ 1 := by
  refine ⟨by decide +kernel, ?_, ?_⟩
  · have h := ((retention_keeps_what_the_rule_asks id sampleKept (by decide)).1
      (some (.bounds none (some 1))) (.all false) ⟨4, 0⟩).1 (sampleComplete "k") rfl
      (by decide +kernel)
    exact h.deleted "j" (Or.inr (by decide +kernel)) (by decide +kernel)
  · have h := (retention_keeps_what_the_rule_asks id
      (sampleKept ++ [(.complete (sampleComplete "k"), ⟨4, 0⟩)]) (by decide)).2
      (fun s => if s = .completed then some (.bounds none (some 1)) else none)
      (fun _ => .all false) (fun s => if s = .completed then 1 else 0)
      (fun s => by cases s <;> rfl) (by decide)
    have hw : (run id (sampleKept ++ [(.complete (sampleComplete "k"), ⟨4, 0⟩)])).waiting = [] := by
      decide +kernel
    have ha : (run id (sampleKept ++ [(.complete (sampleComplete "k"), ⟨4, 0⟩)])).active.card = 0 :=
      by decide +kernel
    rw [hw, ha] at h
    exact h

end Panqueue
