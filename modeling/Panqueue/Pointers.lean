-- The claim batch on any queue at all: which pointers it pops, what becomes
-- of each, and which job keys stop it halfway.
import Panqueue.Frames
import Panqueue.Runner

namespace Panqueue

variable {q q' q'' : Queue} {t : RedisTime} {i : String} {now n : ℕ} {d : Double} (w : Counters)
  (sha1hex : String → String)

/-! ## The loops with their pointers -/

section Loops

variable {m : Type → Type} [Monad m] [LawfulMonad m] {α β : Type} (f : α → β)

theorem claimEach_map (R : Commands m) (one : String → m α) (n : ℕ) :
    Lua.claimEach R (fun i => f <$> one i) n = List.map f <$> Lua.claimEach R one n := by
  induction n with
  | zero => simp [Lua.claimEach]
  | succ n ih =>
    rw [Lua.claimEach, Lua.claimEach, map_bind]
    congr 1
    funext popped
    rcases popped with _ | jobId
    · simp
    · simp only [ih, map_bind, map_pure, List.map_cons, bind_map_left]

theorem recoverEach_map (one : String → m (List α)) (ids : List String) :
    Lua.recoverEach (fun i => List.map f <$> one i) ids =
      List.map f <$> Lua.recoverEach one ids := by
  induction ids with
  | nil => simp [Lua.recoverEach]
  | cons i ids ih =>
    simp only [Lua.recoverEach, ih, map_bind, map_pure, bind_map_left, List.map_append]

end Loops

/-- The body of the claim loop, with its pointer. -/
def claimPointer (now : ℕ) (deadline : Double) (jobId : String) :
    QueueScript (String × ClaimEntry) :=
  Prod.mk jobId <$> Lua.claimOne (Redis.commandsOf w) sha1hex now deadline jobId

/-- The claim loop, with the pointer that each entry came from. -/
def claimPointers (now : ℕ) (deadline : Double) (n : ℕ) :
    QueueScript (List (String × ClaimEntry)) :=
  Lua.claimEach (Redis.commandsOf w) (claimPointer w sha1hex now deadline) n

/-- The claim loop is the loop with pointers, with the pointers left out. -/
theorem claimEach_eq_pointers (now : ℕ) (d : Double) (n : ℕ) :
    Lua.claimEach (Redis.commandsOf w) (Lua.claimOne (Redis.commandsOf w) sha1hex now d) n =
      List.map Prod.snd <$> claimPointers w sha1hex now d n := by
  rw [claimPointers, ← claimEach_map]
  congr 1
  funext i
  simp only [claimPointer, Functor.map_map, id_map']

theorem claimPointers_empty (h : q.waiting.getLast? = none) :
    claimPointers w sha1hex now d (n + 1) q = .ok [] q := by
  simp only [claimPointers, Lua.claimEach, Script.run_bind, Redis.rpop, h, Script.run_pure]

theorem claimPointers_pop (h : q.waiting.getLast? = some i) :
    claimPointers w sha1hex now d (n + 1) q =
      (do
        let entry ← Lua.claimOne (Redis.commandsOf w) sha1hex now d i
        let claimed ← claimPointers w sha1hex now d n
        pure ((i, entry) :: claimed)) (q.setWaiting q.waiting.dropLast) := by
  have hpop : Redis.rpop q = .ok (some i) (q.setWaiting q.waiting.dropLast) := by
    rw [Redis.rpop, h]
  rw [claimPointers, Lua.claimEach, Script.bind_ok hpop]
  simp only [claimPointer, bind_map_left, claimPointers]

/-! ## Counting -/

/-- Counters of this kind can count `n` times from `v`. -/
def Counters.Room : Counters → ℤ → ℕ → Prop
  | unbounded, _, _ => True
  | bits64, v, n => -2 ^ 63 ≤ v ∧ v + n < 2 ^ 63

variable {w}

theorem Counters.Room.mono {v : ℤ} {n m : ℕ} (h : w.Room v n) (hm : m ≤ n) : w.Room v m := by
  cases w with
  | unbounded => trivial
  | bits64 =>
    obtain ⟨h1, h2⟩ := h
    exact ⟨h1, by omega⟩

theorem Counters.next_of_room {v : ℤ} (h : w.Room v 1) : w.next v = .ok (v + 1) := by
  cases w with
  | unbounded => rfl
  | bits64 =>
    obtain ⟨h1, h2⟩ := h
    simp only [Counters.next]
    rw [if_neg (by omega), if_neg (by omega)]

theorem Counters.next_of_no_room {v : ℤ} (h : ¬ w.Room v 1) : ∃ e, w.next v = .error e := by
  cases w with
  | unbounded => exact absurd trivial h
  | bits64 =>
    simp only [Counters.Room] at h
    simp only [Counters.next]
    by_cases hout : v < -2 ^ 63 ∨ 2 ^ 63 ≤ v
    · exact ⟨_, if_pos hout⟩
    · rw [if_neg hout, if_pos (by omega)]
      exact ⟨_, rfl⟩

/-- A counter that was counted has room for one time less. -/
theorem Counters.room_succ {v : ℤ} (h : w.Room v 1) (n : ℕ) :
    w.Room (v + 1) n ↔ w.Room v (n + 1) := by
  cases w with
  | unbounded => exact Iff.rfl
  | bits64 =>
    simp only [Counters.Room] at h ⊢
    omega

/-- The count that a numeric field stands at: an absent one counts as 0. -/
def countOf : Option Numeral → Option ℤ
  | none => some 0
  | some (.int n) => some n
  | some _ => none

/-- HINCRBY on a hash, by the count that its field stands at. -/
theorem hincrbyOf_hash {h : JobHash} (hk : q.jobs i = some (.hash h))
    (get : JobHash → Option Numeral) (put : Numeral → JobHash → JobHash) {v : ℤ}
    (hv : countOf (get h) = some v) (hroom : w.Room v 1) :
    Redis.hincrbyOf w i get put q = .ok (v + 1) (q.setHash i (put (.int (v + 1)) h)) := by
  rcases hg : get h with _ | (m | y | s)
  · rw [hg] at hv
    cases hv
    simp only [Redis.hincrbyOf, hk, hg]
    rfl
  · rw [hg] at hv
    cases hv
    simp only [Redis.hincrbyOf, hk, hg, Counters.next_of_room hroom]
  · simp [hg, countOf] at hv
  · simp [hg, countOf] at hv

/-- HINCRBY refuses a field that has no count, or no room above it. -/
theorem hincrbyOf_refused {h : JobHash} (hk : q.jobs i = some (.hash h))
    (get : JobHash → Option Numeral) (put : Numeral → JobHash → JobHash)
    (hno : ¬ ∃ v, countOf (get h) = some v ∧ w.Room v 1) :
    ∃ e, Redis.hincrbyOf w i get put q = .error e q := by
  rcases hg : get h with _ | (m | y | s)
  · refine absurd ⟨0, by simp [hg, countOf], ?_⟩ hno
    cases w with
    | unbounded => trivial
    | bits64 => exact ⟨by decide, by decide⟩
  · obtain ⟨e, he⟩ := Counters.next_of_no_room fun hroom => hno ⟨m, by simp [hg, countOf], hroom⟩
    exact ⟨e, by simp only [Redis.hincrbyOf, hk, hg, he]⟩
  · exact ⟨_, by simp only [Redis.hincrbyOf, hk, hg]; rfl⟩
  · exact ⟨_, by simp only [Redis.hincrbyOf, hk, hg]; rfl⟩

/-! ## One pointer -/

variable (w)

/-- HINCRBY can count the runs of the job `n` times: its key is absent, or it is
a hash with nothing under `runs`, or with an integer that has room. -/
def Queue.Countable (q : Queue) (i : String) (n : ℕ) : Prop :=
  ∀ v, q.jobs i = some v → ∃ h k, v = .hash h ∧ countOf h.runs = some k ∧ w.Room k n

/-- The hash of a job that was claimed. -/
def JobHash.claimed (h : JobHash) (runs : ℤ) (now : ℕ) (token : String) (deadline : Double) :
    JobHash :=
  { h with
    runs := some (.int runs)
    status := some .active
    lastStartedAt := some (.int now)
    lockToken := some token
    leaseDeadline := some (.ofLua deadline) }

theorem claimOne_absent (h : q.jobs i = none) :
    Lua.claimOne (Redis.commandsOf w) sha1hex now d i q = .ok (.corrupt i) q := by
  simp [Lua.claimOne, Redis.keyExists, h]

/-- A key that HINCRBY refuses ends the script before it wrote anything about the job. -/
theorem claimOne_uncountable (now : ℕ) (d : Double) (h : ¬ q.Countable w i 1) :
    ∃ e, Lua.claimOne (Redis.commandsOf w) sha1hex now d i q = .error e q := by
  rcases hk : q.jobs i with _ | (x | _)
  · exact absurd (fun v hv => by rw [hk] at hv; cases hv) h
  · have hno : ¬ ∃ v, countOf x.runs = some v ∧ w.Room v 1 := by
      rintro ⟨k, hcount, hroom⟩
      refine h fun v hv => ?_
      rw [hk] at hv
      cases hv
      exact ⟨x, k, rfl, hcount, hroom⟩
    obtain ⟨e, he⟩ := hincrbyOf_refused hk JobHash.runs (fun v h => { h with runs := some v }) hno
    refine ⟨e, ?_⟩
    have hfound : Redis.keyExists i q = .ok true q := by simp [Redis.keyExists, hk]
    rw [Lua.claimOne, Script.bind_ok hfound, if_neg (by decide), Script.bind_error he]
  · exact ⟨.wrongType, by simp [Lua.claimOne, Redis.keyExists, Redis.hincrbyOf, hk]⟩

/-- A hash whose runs can be counted gets its lock, and then its lease. -/
theorem claimOne_hash (now : ℕ) (d : Double) {h : JobHash} {k : ℤ}
    (hk : q.jobs i = some (.hash h)) (hcount : countOf h.runs = some k) (hroom : w.Room k 1) :
    Lua.claimOne (Redis.commandsOf w) sha1hex now d i q =
      (do
        Redis.zaddActive d i
        let x ← Redis.hgetall i
        pure (ClaimEntry.job x))
        (q.setHash i (h.claimed (k + 1) now (sha1hex (tokenText i now (k + 1))) d)) := by
  have hfound : Redis.keyExists i q = .ok true q := by simp [Redis.keyExists, hk]
  have hrun := hincrbyOf_hash hk JobHash.runs (fun v h => { h with runs := some v }) hcount hroom
  rw [Lua.claimOne, Script.bind_ok hfound, if_neg (by decide), Script.bind_ok hrun]
  simp only [Script.run_bind, Redis.hset, Queue.setHash_jobs, Function.update_self]
  simp only [Queue.setHash, Function.update_idem, JobHash.claimed]

/-- What became of the pointer `i` in a turn of the loop that went through. -/
structure ClaimTurn (now : ℕ) (i : String) (e : ClaimEntry) (q q' : Queue) : Prop where
  waiting : q'.waiting = q.waiting
  active : ∀ k, k ∈ q'.active.members ↔ k ∈ q.active.members ∨ k = i ∧ ∃ h, e = .job h
  keys : ∀ k, (q'.jobs k).isSome = (q.jobs k).isSome
  ids : ∀ k x, q'.jobs k = some (.hash x) → ∃ y, q.jobs k = some (.hash y) ∧ x.id = y.id
  countable : ∀ k m, q'.Countable w k m ↔ q.Countable w k (if k = i then m + 1 else m)
  entry : (q.jobs i = none ∧ e = .corrupt i) ∨
    ∃ y h runs, q.jobs i = some (.hash y) ∧ e = .job h ∧ h.id = y.id ∧
      h.lockToken = some (sha1hex (tokenText i now runs))

theorem ClaimTurn.absent (now : ℕ) (h : q.jobs i = none) :
    ClaimTurn w sha1hex now i (.corrupt i) q q := by
  refine ⟨rfl, by simp, fun _ => rfl, fun k x hx => ⟨x, hx, rfl⟩, fun k m => ?_, Or.inl ⟨h, rfl⟩⟩
  by_cases hk : k = i
  · subst hk
    have hall : ∀ m, q.Countable w k m := fun m v hv => by rw [h] at hv; cases hv
    exact iff_of_true (hall _) (hall _)
  · rw [if_neg hk]

/-- A turn on a countable key, with a deadline that is a number. -/
theorem claimOne_countable (now : ℕ) (hc : q.Countable w i 1) (s : Score) :
    ∃ e q', Lua.claimOne (Redis.commandsOf w) sha1hex now (.val s) i q = .ok e q' ∧
      ClaimTurn w sha1hex now i e q q' := by
  rcases hk : q.jobs i with _ | v
  · exact ⟨_, q, claimOne_absent w sha1hex hk, .absent w sha1hex now hk⟩
  · obtain ⟨h, runs, rfl, hcount, hroom⟩ := hc v hk
    have hrun := claimOne_hash w sha1hex now (.val s) hk hcount hroom
    let h' := h.claimed (runs + 1) now (sha1hex (tokenText i now (runs + 1))) (.val s)
    refine ⟨.job h', (q.setHash i h').setActive (q.active.add s i), ?_, rfl, ?_, ?_, ?_, ?_,
      Or.inr ⟨h, h', runs + 1, hk, rfl, rfl, rfl⟩⟩
    · simp only [hrun, Script.run_bind, Redis.zaddActive, Redis.hgetall, Queue.setActive_jobs,
        Queue.setHash_jobs, Function.update_self, Script.run_pure]
      rfl
    · intro k
      rw [Queue.setActive_active, SortedSet.mem_members_add]
      simp [or_comm]
    · intro k
      by_cases hki : k = i
      · simp [hki, hk]
      · simp [hki]
    · intro k x hx
      rw [Queue.setActive_jobs, Queue.setHash_jobs] at hx
      by_cases hki : k = i
      · subst hki
        rw [Function.update_self] at hx
        refine ⟨h, hk, ?_⟩
        rw [← JobKey.hash.inj (Option.some.inj hx)]
        rfl
      · rw [Function.update_of_ne hki] at hx
        exact ⟨x, hx, rfl⟩
    · intro k m
      unfold Queue.Countable
      rw [Queue.setActive_jobs, Queue.setHash_jobs]
      by_cases hki : k = i
      · subst hki
        rw [Function.update_self, if_pos rfl, hk]
        have hroom' := Counters.room_succ hroom m
        constructor
        · rintro hm v hv
          cases hv
          obtain ⟨x, c, hx, hcx, hr⟩ := hm _ rfl
          rw [← JobKey.hash.inj hx] at hcx
          cases hcx
          exact ⟨h, runs, rfl, hcount, hroom'.mp hr⟩
        · rintro hm v ⟨⟩
          obtain ⟨x, c, hx, hcx, hr⟩ := hm _ rfl
          cases hx
          rw [hcount] at hcx
          cases hcx
          exact ⟨h', runs + 1, rfl, rfl, hroom'.mpr hr⟩
      · rw [Function.update_of_ne hki, if_neg hki]

/-- A turn that went through, whatever the deadline. -/
theorem claimOne_ok {e : ClaimEntry}
    (h : Lua.claimOne (Redis.commandsOf w) sha1hex now d i q = .ok e q') :
    ClaimTurn w sha1hex now i e q q' := by
  by_cases hc : q.Countable w i 1
  · cases d with
    | val s =>
      obtain ⟨e', q1, hrun, hturn⟩ := claimOne_countable w sha1hex now hc s
      rw [h] at hrun
      cases hrun
      exact hturn
    | nan =>
      rcases hk : q.jobs i with _ | v
      · rw [claimOne_absent w sha1hex hk] at h
        cases h
        exact .absent w sha1hex now hk
      · -- ZADD refuses the score
        obtain ⟨x, runs, rfl, hcount, hroom⟩ := hc v hk
        have hrun := claimOne_hash w sha1hex now .nan hk hcount hroom
        rw [h] at hrun
        cases hrun
  · obtain ⟨err, hrun⟩ := claimOne_uncountable w sha1hex now d hc
    rw [h] at hrun
    cases hrun

/-! ## The whole loop -/

theorem reverse_of_getLast? {l : List String} (h : l.getLast? = some i) :
    l.reverse = i :: l.dropLast.reverse := by
  obtain ⟨ys, rfl⟩ := List.getLast?_eq_some_iff.mp h
  simp

/-- What became of the pointers of a loop that went through. -/
structure ClaimedBatch (now n : ℕ) (ps : List (String × ClaimEntry)) (q q' : Queue) : Prop where
  popped : ps.map Prod.fst = q.waiting.reverse.take n
  waiting : q.waiting = q'.waiting ++ (ps.map Prod.fst).reverse
  active : ∀ k, k ∈ q'.active.members ↔ k ∈ q.active.members ∨ ∃ h, (k, .job h) ∈ ps
  keys : ∀ k, (q'.jobs k).isSome = (q.jobs k).isSome
  entries : ∀ i e, (i, e) ∈ ps → (q.jobs i = none ∧ e = .corrupt i) ∨
    ∃ y h runs, q.jobs i = some (.hash y) ∧ e = .job h ∧ h.id = y.id ∧
      h.lockToken = some (sha1hex (tokenText i now runs))

theorem ClaimedBatch.empty (now n : ℕ) (h : q.waiting.reverse.take n = []) :
    ClaimedBatch sha1hex now n [] q q :=
  ⟨h.symm, by simp, by simp, fun _ => rfl, by simp⟩

/-- A turn and the rest of the loop. -/
theorem ClaimTurn.batch {e : ClaimEntry} {ps : List (String × ClaimEntry)}
    (hlast : q.waiting.getLast? = some i)
    (h : ClaimTurn w sha1hex now i e (q.setWaiting q.waiting.dropLast) q')
    (hb : ClaimedBatch sha1hex now n ps q' q'') :
    ClaimedBatch sha1hex now (n + 1) ((i, e) :: ps) q q'' := by
  have hrev := reverse_of_getLast? hlast
  have hw : q'.waiting = q.waiting.dropLast := h.waiting
  refine ⟨?_, ?_, ?_, fun k => (hb.keys k).trans (h.keys k), ?_⟩
  · rw [hrev, List.take_succ_cons, List.map_cons, hb.popped, hw]
  · have hwait := hb.waiting
    rw [hw] at hwait
    rw [← List.reverse_reverse q.waiting, hrev, List.reverse_cons, List.reverse_reverse, hwait]
    simp
  · intro k
    rw [hb.active, h.active, or_assoc, Queue.setWaiting_active]
    apply or_congr_right
    simp only [List.mem_cons, Prod.mk.injEq]
    constructor
    · rintro (⟨rfl, x, rfl⟩ | ⟨x, hx⟩)
      · exact ⟨x, Or.inl ⟨rfl, rfl⟩⟩
      · exact ⟨x, Or.inr hx⟩
    · rintro ⟨x, ⟨rfl, rfl⟩ | hx⟩
      · exact Or.inl ⟨rfl, x, rfl⟩
      · exact Or.inr ⟨x, hx⟩
  · intro k f hmem
    rcases List.mem_cons.mp hmem with he | hmem
    · cases he
      exact h.entry
    · -- a turn makes no key appear or go, and it leaves the ids
      rcases hb.entries k f hmem with ⟨hnone, hf⟩ | ⟨y, x, runs, hy, hf, hid, htoken⟩
      · refine Or.inl ⟨?_, hf⟩
        have hkey := h.keys k
        rw [hnone] at hkey
        exact Option.not_isSome_iff_eq_none.mp (by rw [← Queue.setWaiting_jobs q, ← hkey]; simp)
      · obtain ⟨z, hz, hyz⟩ := h.ids k y hy
        exact Or.inr ⟨z, x, runs, hz, hf, hid.trans hyz, htoken⟩

theorem claimPointers_ok {ps : List (String × ClaimEntry)}
    (h : claimPointers w sha1hex now d n q = .ok ps q') :
    ClaimedBatch sha1hex now n ps q q' := by
  induction n generalizing q ps with
  | zero =>
    cases h
    exact .empty sha1hex now 0 rfl
  | succ n ih =>
    rcases hlast : q.waiting.getLast? with _ | i
    · rw [claimPointers_empty w sha1hex hlast] at h
      cases h
      exact .empty sha1hex now _ (by simp [List.getLast?_eq_none_iff.mp hlast])
    · rw [claimPointers_pop w sha1hex hlast] at h
      obtain ⟨entry, q1, hone, hrest⟩ := Script.bind_eq_ok.mp h
      obtain ⟨claimed, q2, hloop, hpure⟩ := Script.bind_eq_ok.mp hrest
      cases hpure
      exact (claimOne_ok w sha1hex hone).batch w sha1hex hlast (ih hloop)

theorem Queue.Countable.mono {m : ℕ} (h : q.Countable w i n) (hm : m ≤ n) :
    q.Countable w i m := by
  intro v hv
  obtain ⟨x, k, hx, hcount, hroom⟩ := h v hv
  exact ⟨x, k, hx, hcount, hroom.mono hm⟩

end Panqueue
