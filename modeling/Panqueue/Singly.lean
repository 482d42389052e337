-- A claim of `n` jobs against `n` claims of one job. The batch computes its
-- free capacity once, and the claims of one job compute it anew each time.
import Panqueue.LeaseOptions

namespace Panqueue

variable {q : Queue} {t : RedisTime} {i : String} {n : ℕ} {leaseMs : Double}
  (sha1hex : String → String)

/-! ## The count of a batch -/

section ClaimCount

variable {limit : Option Double} {active : ℕ}

theorem claimCount_zero (limit : Option Double) (active : ℕ) : claimCount limit active 0 = 0 :=
  Nat.le_zero.mp (claimCount_le limit active 0)

/-- A batch of one takes nothing if and only if a limit is stored that leaves
less than one permit free. -/
theorem claimCount_one_eq_zero :
    claimCount limit active 1 = 0 ↔ ∃ l ∈ limit, l.addRat (-active) < .ofNat 1 := by
  cases limit with
  | none => simp [claimCount]
  | some l =>
    simp only [claimCount, Option.mem_some_iff, exists_eq_left']
    split
    · rename_i h
      exact iff_of_true rfl h
    · rename_i h
      exact iff_of_false Nat.one_ne_zero h

/-- With no permit free, a batch of any size takes nothing. -/
theorem claimCount_full (h : claimCount limit active 1 = 0) (n : ℕ) :
    claimCount limit active n = 0 := by
  obtain ⟨l, rfl, hl⟩ := claimCount_one_eq_zero.mp h
  rw [claimCount, if_pos hl]

/-- With a finite limit, a batch takes the whole permits that are free, and no
more than it asks for. -/
theorem claimCount_ofRat (l : ℚ) (active n : ℕ) :
    claimCount (some (.ofRat l)) active n = min n ⌊l - active⌋.toNat := by
  simp only [claimCount, Double.addRat_ofRat, Double.ofNat, Double.ofRat_lt,
    Double.rounds_ofRat, ← sub_eq_add_neg]
  split
  · rename_i h1
    have hf : ⌊l - active⌋ < 1 := Int.floor_lt.mpr (by exact_mod_cast h1)
    omega
  · split
    · rename_i hn
      have hf : ⌊l - active⌋ < n := Int.floor_lt.mpr (by exact_mod_cast hn)
      omega
    · rename_i hn
      have hf : (n : ℤ) ≤ ⌊l - active⌋ := Int.le_floor.mpr (by exact_mod_cast not_lt.mp hn)
      omega

/-- An infinite limit clamps no batch. -/
theorem claimCount_top (active n : ℕ) : claimCount (some (.val ⊤)) active n = n := by
  have hge : ∀ m : ℕ, ¬ (Double.val ⊤).addRat (-active) < .ofNat m := by
    intro m hm
    have hlt : (⊤ : Score) < Score.ofRat m := hm
    exact not_top_lt hlt
  rw [claimCount, if_neg (hge 1), if_neg (hge n)]

/-- With a permit free, a batch takes one job, and then it is a smaller batch
with one more job active. -/
theorem claimCount_succ (h : claimCount limit active 1 ≠ 0) (n : ℕ) :
    claimCount limit active (n + 1) = claimCount limit (active + 1) n + 1 := by
  cases limit with
  | none => rfl
  | some limit =>
    rcases limit.kinds with rfl | rfl | rfl | ⟨l, rfl⟩
    · simp [claimCount, Double.addRat]
    · refine absurd ?_ h
      simp [claimCount, Double.addRat, Double.ofNat, Double.ofRat, Score.ofRat]
    · rw [claimCount_top, claimCount_top]
    · rw [claimCount_ofRat] at h
      have hfloor : ⌊l - ((active + 1 : ℕ) : ℚ)⌋ = ⌊l - active⌋ - 1 := by
        rw [← Int.floor_sub_one]
        congr 1
        push_cast
        ring
      rw [claimCount_ofRat, claimCount_ofRat, hfloor]
      omega

end ClaimCount

/-! ## Batches and claims of one job -/

/-- A claim of up to `n` jobs. -/
def batchOf (leaseMs : Double) (t : RedisTime) (n : ℕ) : Call × RedisTime :=
  (.claimGlobalBatch ⟨leaseMs, n⟩, t)

/-- `n` claims of one job, all at one reading of the clock. -/
def singly (leaseMs : Double) (t : RedisTime) (n : ℕ) : List (Call × RedisTime) :=
  List.replicate n (batchOf leaseMs t 1)

/-- The entries of claim replies, one reply after the other. None when one of
them is an error. -/
def joined : List Reply → Option (List ClaimEntry)
  | [] => some []
  | .claimGlobalBatch es :: rs => (joined rs).map (es ++ ·)
  | _ :: _ => none

/-- A batch and the claims of one job give one final state and one list of entries. -/
def AgreesSingly (leaseMs : Double) (t : RedisTime) (n : ℕ) (q : Queue) : Prop :=
  (exec sha1hex (batchOf leaseMs t n) q).2 =
      Machine.finish (exec sha1hex) q (singly leaseMs t n) ∧
    joined [(exec sha1hex (batchOf leaseMs t n) q).1] =
      joined ((Machine.trace (exec sha1hex) q (singly leaseMs t n)).map Prod.snd)

/-- A batch that pops nothing. -/
theorem batch_idle (h : q.waiting = [] ∨ claimCount q.limit q.active.card n = 0) :
    exec sha1hex (batchOf leaseMs t n) q = (.claimGlobalBatch [], q) := by
  simp only [exec, Lua.exec, batchOf, runScript, Lua.claimGlobalBatch, Lua.claimBatch,
    Script.run_bind, Redis.hgetLimit, Redis.zcardActive, claimLoop_idle sha1hex h]

/-- Where a claim of one job pops nothing, any number of them does not. -/
theorem singly_idle (h : q.waiting = [] ∨ claimCount q.limit q.active.card 1 = 0) (n : ℕ) :
    Machine.finish (exec sha1hex) q (singly leaseMs t n) = q ∧
      joined ((Machine.trace (exec sha1hex) q (singly leaseMs t n)).map Prod.snd) = some [] := by
  induction n with
  | zero => exact ⟨rfl, rfl⟩
  | succ n ih =>
    obtain ⟨ih1, ih2⟩ := ih
    rw [singly, List.replicate_succ, Machine.finish, Machine.trace, batch_idle sha1hex h]
    refine ⟨ih1, ?_⟩
    rw [List.map_cons, joined]
    simp only [singly] at ih2
    rw [ih2]
    rfl

theorem agreesSingly_idle (h : q.waiting = [] ∨ claimCount q.limit q.active.card 1 = 0) (n : ℕ) :
    AgreesSingly sha1hex leaseMs t n q := by
  have hn : q.waiting = [] ∨ claimCount q.limit q.active.card n = 0 :=
    h.imp_right fun h1 => claimCount_full h1 n
  obtain ⟨h1, h2⟩ : Machine.finish (exec sha1hex) q (singly leaseMs t n) = q ∧ _ :=
    singly_idle sha1hex h n
  refine ⟨?_, ?_⟩
  · rw [batch_idle sha1hex hn, h1]
  · rw [batch_idle sha1hex hn, h2]
    rfl

theorem agreesSingly_zero (leaseMs : Double) (t : RedisTime) (q : Queue) :
    AgreesSingly sha1hex leaseMs t 0 q := by
  rw [AgreesSingly, batch_idle sha1hex (Or.inr (claimCount_zero _ _))]
  exact ⟨rfl, rfl⟩

/-! ## Leases that are numbers -/

/-- With a permit free, a batch claims the next job, and the rest of it is a
smaller batch on the queue that this leaves. -/
theorem batch_turn {s : Score} (hs : leaseMs.plus t.now = .val s) (hq : Tidy q)
    (hlast : q.waiting.getLast? = some i) (hc : claimCount q.limit q.active.card 1 ≠ 0) :
    ∃ x q2, ∀ n, claimGlobalBatch sha1hex t ⟨leaseMs, n + 1⟩ q =
      (do
        let es ← claimGlobalBatch sha1hex t ⟨leaseMs, n⟩
        pure (ClaimEntry.job x :: es)) q2 := by
  obtain ⟨j, hj⟩ := hq.waiting_last hlast
  obtain ⟨x, hturn⟩ := claimOne_turn sha1hex t.now (.val s) hj q.waiting.dropLast
  let q2 := ((q.setWaiting q.waiting.dropLast).setHash i x).setActive (q.active.add s i)
  have hone : claimOne sha1hex t.now (.val s) i (q.setWaiting q.waiting.dropLast) =
      .ok (.job x) q2 := by
    rw [hturn]
    simp only [Script.run_bind, Redis.zaddActive, Redis.hgetall, Queue.setActive_jobs,
      Queue.setHash_jobs, Function.update_self, Script.run_pure]
    rfl
  have hcard : q2.active.card = q.active.card + 1 := by
    change (q.active.add s i).card = _
    rw [SortedSet.card_add, SortedSet.remove_of_not_mem (congrArg Sight.lease hj)]
  refine ⟨x, q2, fun n => ?_⟩
  have hleft : claimGlobalBatch sha1hex t ⟨leaseMs, n + 1⟩ q =
      claimLoop sha1hex t.now (.val s) (claimCount q.limit (q.active.card + 1) n + 1) q := by
    rw [← claimCount_succ hc, ← hs]
    rfl
  have hright : claimGlobalBatch sha1hex t ⟨leaseMs, n⟩ q2 =
      claimLoop sha1hex t.now (.val s) (claimCount q.limit (q.active.card + 1) n) q2 := by
    rw [← hcard, ← hs]
    rfl
  rw [hleft, claimLoop_pop hlast, Script.bind_ok hone]
  simp only [Script.run_bind, hright]

/-- With a lease that is a number, a batch agrees with the claims of one job. -/
theorem agreesSingly_of_number {s : Score} (hs : leaseMs.plus t.now = .val s) (hq : Tidy q)
    (n : ℕ) : AgreesSingly sha1hex leaseMs t n q := by
  induction n generalizing q with
  | zero => exact agreesSingly_zero sha1hex leaseMs t q
  | succ n ih =>
    by_cases hidle : q.waiting = [] ∨ claimCount q.limit q.active.card 1 = 0
    · exact agreesSingly_idle sha1hex hidle (n + 1)
    · rw [not_or] at hidle
      obtain ⟨hw, hc⟩ := hidle
      obtain ⟨i, hlast⟩ := Option.ne_none_iff_exists'.mp (mt List.getLast?_eq_none_iff.mp hw)
      obtain ⟨x, q2, hturn⟩ := batch_turn sha1hex hs hq hlast hc
      have hzero : claimGlobalBatch sha1hex t ⟨leaseMs, 0⟩ q2 = .ok [] q2 :=
        claimLoop_idle sha1hex (Or.inr (claimCount_zero _ _))
      have hone : exec sha1hex (batchOf leaseMs t 1) q = (.claimGlobalBatch [.job x], q2) := by
        simp only [exec, Lua.exec, batchOf, runScript, hturn 0, Script.run_bind, hzero,
          Script.run_pure]
      have hq2 : Tidy q2 := by
        have h := exec_tidy sha1hex (batchOf leaseMs t 1) hq
        rwa [hone] at h
      obtain ⟨ih1, ih2⟩ := ih hq2
      rw [AgreesSingly, singly, List.replicate_succ, Machine.finish, Machine.trace, hone,
        ← singly, ← ih1, List.map_cons, joined, ← ih2]
      -- the batch goes on as the smaller batch does
      rcases hrest : claimGlobalBatch sha1hex t ⟨leaseMs, n⟩ q2 with ⟨es, q3⟩ | ⟨e, q3⟩
      · simp only [exec, Lua.exec, batchOf, runScript, hturn n, Script.run_bind, hrest,
          Script.run_pure, joined, Option.map_some, List.append_nil, List.cons_append,
          List.nil_append, and_self]
      · simp only [exec, Lua.exec, batchOf, runScript, hturn n, Script.run_bind, hrest, joined,
          Option.map_none, and_self]

/-! ## Leases of NaN -/

/-- With a lease of NaN, a claim of one job shortens the waiting list, or it pops nothing. -/
theorem nan_singly_waiting (hq : Tidy q) (n : ℕ) :
    (Machine.finish (exec sha1hex) q (singly .nan t n)).waiting.length ≤ q.waiting.length := by
  induction n generalizing q with
  | zero => exact Nat.le_refl _
  | succ n ih =>
    have hstep : (exec sha1hex (batchOf .nan t 1) q).2.waiting.length ≤ q.waiting.length := by
      rcases hlast : q.waiting.getLast? with _ | i
      · rw [batch_idle sha1hex (Or.inl (List.getLast?_eq_none_iff.mp hlast))]
      · obtain ⟨x, hbreaks⟩ := nan_claim_breaks_off sha1hex (t := t) hq hlast
        by_cases hc : claimCount q.limit q.active.card 1 = 0
        · rw [batch_idle sha1hex (Or.inr hc)]
        · rw [batchOf, hbreaks 1 hc]
          simp
    rw [singly, List.replicate_succ, Machine.finish]
    exact (ih (exec_tidy sha1hex _ hq)).trans hstep

/-- With a lease of NaN, the batch breaks off at its first job, and each claim
of one job breaks off at a job of its own. -/
theorem nan_agreesSingly (hq : Tidy q) (hc : claimCount q.limit q.active.card 1 ≠ 0) (n : ℕ) :
    AgreesSingly sha1hex .nan t (n + 2) q ↔ q.waiting.length ≤ 1 := by
  rcases hlast : q.waiting.getLast? with _ | i
  · have hw := List.getLast?_eq_none_iff.mp hlast
    apply iff_of_true (agreesSingly_idle sha1hex (Or.inl hw) (n + 2))
    rw [hw]
    exact Nat.zero_le 1
  · obtain ⟨x, hbreaks⟩ := nan_claim_breaks_off sha1hex (t := t) hq hlast
    let q2 := (q.setWaiting q.waiting.dropLast).setHash i x
    have hone : exec sha1hex (batchOf .nan t 1) q = (.error .notAFloat, q2) := hbreaks 1 hc
    have hbatch : exec sha1hex (batchOf .nan t (n + 2)) q = (.error .notAFloat, q2) :=
      hbreaks (n + 2) (by rw [claimCount_succ hc]; exact Nat.succ_ne_zero _)
    have hq2 : Tidy q2 := by
      have h := exec_tidy sha1hex (batchOf .nan t 1) hq
      rwa [hone] at h
    have hlen : q2.waiting.length = q.waiting.length - 1 := List.length_dropLast
    rw [AgreesSingly, singly, List.replicate_succ, Machine.finish, Machine.trace, hone, hbatch,
      ← singly]
    constructor
    · rintro ⟨hsame, -⟩
      by_contra hlong
      -- the second claim pops one more job
      rcases hlast2 : q2.waiting.getLast? with _ | k
      · have hw := congrArg List.length (List.getLast?_eq_none_iff.mp hlast2)
        rw [hlen, List.length_nil] at hw
        omega
      · obtain ⟨y, hbreaks2⟩ := nan_claim_breaks_off sha1hex (t := t) hq2 hlast2
        have hnext := exec_tidy sha1hex (batchOf .nan t 1) hq2
        have hrest := nan_singly_waiting sha1hex (t := t) hnext n
        have hcount := congrArg (fun q => q.waiting.length) hsame
        rw [singly, List.replicate_succ, Machine.finish, ← singly] at hcount
        have hlen2 : (exec sha1hex (batchOf .nan t 1) q2).2.waiting.length =
            q2.waiting.length - 1 := by
          rw [batchOf, hbreaks2 1 hc]
          exact List.length_dropLast
        dsimp only at hcount
        omega
    · intro hshort
      have hw : q2.waiting = [] := List.eq_nil_of_length_eq_zero (by omega)
      refine ⟨(singly_idle sha1hex (Or.inl hw) (n + 1)).1.symm, rfl⟩

/-! ## The agreement -/

/-- From every reachable queue, a batch agrees with the claims of one job, if
and only if its lease is a number, or it asks for at most one job, or at most
one job waits, or a stored limit leaves less than one permit free. -/
theorem a_batch_claims_one_by_one_iff (ops : List (Call × RedisTime)) (t : RedisTime)
    (leaseMs : Double) (n : ℕ) :
    AgreesSingly sha1hex leaseMs t n (run sha1hex ops) ↔
      leaseMs ≠ .nan ∨ n ≤ 1 ∨ (run sha1hex ops).waiting.length ≤ 1 ∨
        ∃ limit ∈ (run sha1hex ops).limit,
          limit.addRat (-(run sha1hex ops).active.card) < .ofNat 1 := by
  have hq := tidy_run sha1hex ops
  cases leaseMs with
  | val s => exact iff_of_true (agreesSingly_of_number sha1hex rfl hq n) (Or.inl (by simp))
  | nan =>
    match n with
    | 0 => exact iff_of_true (agreesSingly_zero sha1hex .nan t _) (Or.inr (Or.inl (Nat.zero_le 1)))
    | 1 => exact iff_of_true ⟨rfl, rfl⟩ (Or.inr (Or.inl (Nat.le_refl 1)))
    | n + 2 =>
      by_cases hc : claimCount (run sha1hex ops).limit (run sha1hex ops).active.card 1 = 0
      · exact iff_of_true (agreesSingly_idle sha1hex (Or.inr hc) (n + 2))
          (Or.inr (Or.inr (Or.inr (claimCount_one_eq_zero.mp hc))))
      · rw [nan_agreesSingly sha1hex hq hc, ← claimCount_one_eq_zero]
        simp [hc]

/-- Two jobs that wait. -/
def sampleTwo : List (Call × RedisTime) :=
  sampleEnqueued ++ [(.enqueue { sampleJob with jobId := "k" }, ⟨1, 0⟩)]

/-- With a lease of NaN, a batch of two pops one job, and two claims of one job pop both. -/
theorem nan_batch_pops_one :
    ¬ AgreesSingly id .nan ⟨2, 0⟩ 2 (run id sampleTwo) := by
  rintro ⟨hsame, -⟩
  have hone : (exec id (batchOf .nan ⟨2, 0⟩ 2) (run id sampleTwo)).2.waiting = ["k"] := by
    decide +kernel
  have hboth : (Machine.finish (exec id) (run id sampleTwo) (singly .nan ⟨2, 0⟩ 2)).waiting =
      [] := by decide +kernel
  rw [hsame, hboth] at hone
  cases hone

end Panqueue
