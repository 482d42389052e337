-- Who holds the permits of the semaphore: any order of acquire, tryAcquire and
-- release calls and of aborted signals.
import Mathlib.Logic.Relation
import Panqueue.Semaphore

namespace Panqueue

/-! ## The callers of a semaphore -/

/-- A semaphore and what its callers saw of it. The acquire calls are numbered in
order, `signals` has the signal of each, and a listener is a signal and the call
that registered it. `tries` and `releases` count the successful tryAcquire calls
and the release calls. -/
structure Callers where
  semaphore : Semaphore ℕ
  signals : List (Option ℕ) := []
  aborted : List ℕ := []
  listeners : List (ℕ × ℕ) := []
  granted : List ℕ := []
  rejected : List ℕ := []
  tries : ℕ := 0
  releases : ℕ := 0
  deriving DecidableEq

namespace Callers

/-- The permits that were taken so far. -/
def grants (s : Callers) : ℕ := s.granted.length + s.tries

/-- A call of acquire whose promise is pending. -/
def Waits (s : Callers) (i : ℕ) : Prop :=
  i < s.signals.length ∧ i ∉ s.granted ∧ i ∉ s.rejected

instance (s : Callers) (i : ℕ) : Decidable (s.Waits i) :=
  inferInstanceAs (Decidable (_ ∧ _))

/-- A call of acquire whose signal is aborted. -/
def Aborted (s : Callers) (i : ℕ) : Prop := ∃ σ ∈ s.aborted, s.signals[i]? = some (some σ)

def acquire (s : Callers) (signal : Option ℕ) : Callers :=
  let i := s.signals.length
  match s.semaphore.acquire (signal.any (· ∈ s.aborted)) i with
  | (.rejected, semaphore) =>
    { s with semaphore, signals := s.signals ++ [signal], rejected := s.rejected ++ [i] }
  | (.granted, semaphore) =>
    { s with semaphore, signals := s.signals ++ [signal], granted := s.granted ++ [i] }
  | (.waiting, semaphore) =>
    { s with
      semaphore
      signals := s.signals ++ [signal]
      listeners := s.listeners ++ (signal.map (·, i)).toList }

def tryAcquire (s : Callers) : Callers :=
  match s.semaphore.tryAcquire with
  | (true, semaphore) => { s with semaphore, tries := s.tries + 1 }
  | (false, semaphore) => { s with semaphore }

/-- `release`, which also removes the listener of the waiter that it wakes. -/
def release (s : Callers) : Callers :=
  match s.semaphore.release with
  | (some i, semaphore) =>
    { s with
      semaphore
      granted := s.granted ++ [i]
      listeners := s.listeners.filter (·.2 ≠ i)
      releases := s.releases + 1 }
  | (none, semaphore) => { s with semaphore, releases := s.releases + 1 }

/-- The abort listener of the call `i`. -/
def onAbort (s : Callers) (i : ℕ) : Callers :=
  match s.semaphore.abort i with
  | (true, semaphore) => { s with semaphore, rejected := s.rejected ++ [i] }
  | (false, semaphore) => { s with semaphore }

/-- A signal is aborted: its listeners run in order, once. -/
def abort (s : Callers) (σ : ℕ) : Callers :=
  if σ ∈ s.aborted then s
  else
    ((s.listeners.filter (·.1 = σ)).map (·.2)).foldl onAbort
      { s with aborted := σ :: s.aborted, listeners := s.listeners.filter (·.1 ≠ σ) }

/-- A permit is released only while one is held. -/
inductive Step (s : Callers) : Callers → Prop
  | acquire (signal : Option ℕ) : Step s (s.acquire signal)
  | tryAcquire : Step s s.tryAcquire
  | release (held : s.releases < s.grants) : Step s s.release
  | abort (σ : ℕ) : Step s (s.abort σ)

/-! ## The invariant -/

/-- The count, the queue and the permits that are out agree. -/
structure Conserved (s : Callers) : Prop where
  sorted : s.semaphore.waiters.Pairwise (· < ·)
  waits : ∀ i, i ∈ s.semaphore.waiters ↔ s.Waits i
  made : ∀ i ∈ s.granted ++ s.rejected, i < s.signals.length
  once : (s.granted ++ s.rejected).Nodup
  count : s.semaphore.current = (s.grants : ℤ) - s.releases
  held : s.releases ≤ s.grants
  bounded : s.semaphore.current ≤ s.semaphore.max
  full : s.semaphore.waiters ≠ [] → s.semaphore.current = s.semaphore.max

/-- A waiter with a signal has its listener, and the signal is not aborted. -/
structure Listening (s : Callers) : Prop where
  live : ∀ i ∈ s.semaphore.waiters, ∀ σ, s.signals[i]? = some (some σ) →
    σ ∉ s.aborted ∧ (σ, i) ∈ s.listeners
  heard : ∀ σ i, (σ, i) ∈ s.listeners → s.signals[i]? = some (some σ)

variable {s s' : Callers} {i j σ : ℕ} {signal : Option ℕ}

theorem Conserved.nodup (h : Conserved s) : s.semaphore.waiters.Nodup :=
  h.sorted.imp Nat.ne_of_lt

theorem Conserved.new {max : ℕ} : Conserved { semaphore := { max } } where
  sorted := List.Pairwise.nil
  waits i := by simp [Waits]
  made i hi := by simp at hi
  once := List.nodup_nil
  count := rfl
  held := Nat.le_refl 0
  bounded := Int.natCast_nonneg max
  full h := absurd rfl h

theorem Listening.new {max : ℕ} : Listening { semaphore := { max } } where
  live i hi := by simp at hi
  heard σ i hi := by simp at hi

/-- A call that has not settled settles: it is granted or rejected. -/
theorem Conserved.settles (h : Conserved s) {settled : List ℕ}
    (hgranted : i ∉ s.granted) (hrejected : i ∉ s.rejected)
    (hsettled : settled = s.granted ++ (s.rejected ++ [i]) ∨
      settled = s.granted ++ [i] ++ s.rejected) :
    settled.Nodup ∧ ∀ j, j ∈ settled ↔ j ∈ s.granted ++ s.rejected ∨ j = i := by
  have hperm : settled.Perm (i :: (s.granted ++ s.rejected)) := by
    rcases hsettled with rfl | rfl
    · rw [← List.append_assoc]
      exact List.perm_append_singleton _ _
    · rw [List.append_assoc]
      exact List.perm_middle
  have hfresh : i ∉ s.granted ++ s.rejected := by
    rw [List.mem_append]
    rintro (hi | hi)
    · exact hgranted hi
    · exact hrejected hi
  refine ⟨hperm.nodup_iff.mpr (List.nodup_cons.mpr ⟨hfresh, h.once⟩), fun j => ?_⟩
  rw [hperm.mem_iff, List.mem_cons, or_comm]

/-! ### The abort listeners -/

theorem onAbort_waiting (hi : i ∈ s.semaphore.waiters) :
    s.onAbort i =
      { s with
        semaphore := { s.semaphore with waiters := s.semaphore.waiters.erase i }
        rejected := s.rejected ++ [i] } := by
  rw [onAbort, Semaphore.abort, if_pos hi]

theorem onAbort_gone (hi : i ∉ s.semaphore.waiters) : s.onAbort i = s := by
  rw [onAbort, Semaphore.abort, if_neg hi]

theorem conserved_onAbort (h : Conserved s) (i : ℕ) : Conserved (s.onAbort i) := by
  by_cases hi : i ∈ s.semaphore.waiters
  · obtain ⟨hlt, hgranted, hrejected⟩ := (h.waits i).mp hi
    obtain ⟨honce, hmem⟩ := h.settles hgranted hrejected (Or.inl rfl)
    rw [onAbort_waiting hi]
    refine ⟨h.sorted.sublist List.erase_sublist, ?_, ?_, honce, h.count, h.held, h.bounded, ?_⟩
    · intro j
      rw [h.nodup.mem_erase_iff, h.waits j]
      simp only [Waits, List.mem_append, List.mem_singleton]
      tauto
    · intro j hj
      rcases (hmem j).mp hj with hj | rfl
      · exact h.made j hj
      · exact hlt
    · intro hne
      exact h.full fun he => by simp [he] at hi
  · rw [onAbort_gone hi]
    exact h

/-- What the listener of one call leaves: it takes that call out of the queue. -/
theorem mem_onAbort (h : Conserved s) :
    j ∈ (s.onAbort i).semaphore.waiters ↔ j ∈ s.semaphore.waiters ∧ j ≠ i := by
  by_cases hi : i ∈ s.semaphore.waiters
  · rw [onAbort_waiting hi, h.nodup.mem_erase_iff, and_comm]
  · rw [onAbort_gone hi]
    constructor
    · intro hj
      refine ⟨hj, ?_⟩
      rintro rfl
      exact hi hj
    · exact And.left

/-- The queue changed, and calls were rejected. -/
structure Rejects (s s' : Callers) : Prop where
  signals : s'.signals = s.signals
  aborted : s'.aborted = s.aborted
  listeners : s'.listeners = s.listeners
  granted : s'.granted = s.granted
  current : s'.semaphore.current = s.semaphore.current
  max : s'.semaphore.max = s.semaphore.max
  rejected : s.rejected <+: s'.rejected

theorem Rejects.refl (s : Callers) : Rejects s s :=
  ⟨rfl, rfl, rfl, rfl, rfl, rfl, List.prefix_rfl⟩

theorem Rejects.trans {s'' : Callers} (h : Rejects s s') (h' : Rejects s' s'') :
    Rejects s s'' where
  signals := h'.signals.trans h.signals
  aborted := h'.aborted.trans h.aborted
  listeners := h'.listeners.trans h.listeners
  granted := h'.granted.trans h.granted
  current := h'.current.trans h.current
  max := h'.max.trans h.max
  rejected := h.rejected.trans h'.rejected

theorem rejects_onAbort (s : Callers) (i : ℕ) : Rejects s (s.onAbort i) := by
  by_cases hi : i ∈ s.semaphore.waiters
  · rw [onAbort_waiting hi]
    exact ⟨rfl, rfl, rfl, rfl, rfl, rfl, List.prefix_append _ _⟩
  · rw [onAbort_gone hi]
    exact Rejects.refl s

theorem rejects_foldl (s : Callers) (is : List ℕ) : Rejects s (is.foldl onAbort s) := by
  induction is generalizing s with
  | nil => exact Rejects.refl s
  | cons i is ih => exact (rejects_onAbort s i).trans (ih (s.onAbort i))

/-- The listeners of a list of calls run: those that still waited leave the queue. -/
theorem conserved_foldl (is : List ℕ) (h : Conserved s) :
    Conserved (is.foldl onAbort s) ∧
      ∀ j, j ∈ (is.foldl onAbort s).semaphore.waiters ↔ j ∈ s.semaphore.waiters ∧ j ∉ is := by
  induction is generalizing s with
  | nil => exact ⟨h, fun j => by simp⟩
  | cons i is ih =>
    obtain ⟨hconserved, hwaiters⟩ := ih (conserved_onAbort h i)
    refine ⟨hconserved, fun j => ?_⟩
    rw [List.foldl_cons, hwaiters, mem_onAbort h, List.mem_cons]
    tauto

/-- An abort rejects the calls that wait with its signal, and does nothing else. -/
theorem abort_spec (h : Conserved s) (hl : Listening s) (hσ : σ ∉ s.aborted) :
    Conserved (s.abort σ) ∧ Listening (s.abort σ) ∧
      Rejects { s with aborted := σ :: s.aborted, listeners := s.listeners.filter (·.1 ≠ σ) }
        (s.abort σ) ∧
      ∀ i, (s.abort σ).Waits i ↔ s.Waits i ∧ s.signals[i]? ≠ some (some σ) := by
  rw [abort, if_neg hσ]
  have hrejects := rejects_foldl
    { s with aborted := σ :: s.aborted, listeners := s.listeners.filter (·.1 ≠ σ) }
    ((s.listeners.filter (·.1 = σ)).map (·.2))
  have hbefore : Conserved
      { s with aborted := σ :: s.aborted, listeners := s.listeners.filter (·.1 ≠ σ) } :=
    ⟨h.sorted, h.waits, h.made, h.once, h.count, h.held, h.bounded, h.full⟩
  obtain ⟨hconserved, hwaiters⟩ :=
    conserved_foldl ((s.listeners.filter (·.1 = σ)).map (·.2)) hbefore
  have hheard : ∀ i ∈ s.semaphore.waiters,
      i ∈ (s.listeners.filter (·.1 = σ)).map (·.2) ↔ s.signals[i]? = some (some σ) := by
    intro i hi
    simp only [List.mem_map, List.mem_filter, decide_eq_true_eq]
    constructor
    · rintro ⟨⟨σ', j⟩, ⟨hj, rfl⟩, rfl⟩
      exact hl.heard _ _ hj
    · intro hsignal
      exact ⟨(σ, i), ⟨(hl.live i hi σ hsignal).2, rfl⟩, rfl⟩
  refine ⟨hconserved, ⟨?_, ?_⟩, hrejects, ?_⟩
  · intro i hi σ' hsignal
    rw [hrejects.signals] at hsignal
    obtain ⟨hold, hgone⟩ := (hwaiters i).mp hi
    obtain ⟨hlive, hlistener⟩ := hl.live i hold σ' hsignal
    have hne : σ' ≠ σ := by
      rintro rfl
      exact hgone ((hheard i hold).mpr hsignal)
    rw [hrejects.aborted, hrejects.listeners]
    exact ⟨by simp [hne, hlive], List.mem_filter.mpr ⟨hlistener, by simp [hne]⟩⟩
  · intro σ' i hi
    rw [hrejects.listeners] at hi
    rw [hrejects.signals]
    exact hl.heard σ' i (List.mem_filter.mp hi).1
  · intro i
    rw [← hconserved.waits, hwaiters, ← h.waits]
    exact and_congr_right fun hi => not_congr (hheard i hi)

/-! ### acquire and tryAcquire -/

theorem acquire_aborted (ha : signal.any (· ∈ s.aborted) = true) :
    s.acquire signal =
      { s with
        signals := s.signals ++ [signal], rejected := s.rejected ++ [s.signals.length] } := by
  rw [acquire, ha, Semaphore.acquire_aborted]

theorem acquire_free (ha : signal.any (· ∈ s.aborted) = false)
    (hfree : s.semaphore.current < s.semaphore.max) :
    s.acquire signal =
      { s with
        semaphore := { s.semaphore with current := s.semaphore.current + 1 }
        signals := s.signals ++ [signal]
        granted := s.granted ++ [s.signals.length] } := by
  rw [acquire, ha, Semaphore.acquire_free hfree]

theorem acquire_full (ha : signal.any (· ∈ s.aborted) = false)
    (hfull : ¬ s.semaphore.current < s.semaphore.max) :
    s.acquire signal =
      { s with
        semaphore := { s.semaphore with waiters := s.semaphore.waiters ++ [s.signals.length] }
        signals := s.signals ++ [signal]
        listeners := s.listeners ++ (signal.map (·, s.signals.length)).toList } := by
  rw [acquire, ha, Semaphore.acquire_full hfull]

/-- Nobody waits while a permit is free. -/
theorem Conserved.waiters_eq_nil (h : Conserved s)
    (hfree : s.semaphore.current < s.semaphore.max) : s.semaphore.waiters = [] := by
  by_contra hne
  exact absurd (h.full hne) (Int.ne_of_lt hfree)

/-- The number of a new call is in neither list. -/
theorem Conserved.fresh (h : Conserved s) :
    s.signals.length ∉ s.granted ∧ s.signals.length ∉ s.rejected :=
  ⟨fun hi => absurd (h.made _ (List.mem_append_left _ hi)) (Nat.lt_irrefl _),
    fun hi => absurd (h.made _ (List.mem_append_right _ hi)) (Nat.lt_irrefl _)⟩

theorem conserved_acquire (h : Conserved s) : Conserved (s.acquire signal) := by
  obtain ⟨hgranted, hrejected⟩ := h.fresh
  have hlength : (s.signals ++ [signal]).length = s.signals.length + 1 := List.length_append
  have hmade : ∀ settled : List ℕ,
      (∀ j, j ∈ settled ↔ j ∈ s.granted ++ s.rejected ∨ j = s.signals.length) →
      ∀ j ∈ settled, j < (s.signals ++ [signal]).length := by
    intro settled hmem j hj
    rw [hlength]
    rcases (hmem j).mp hj with hj | rfl
    · exact Nat.lt_succ_of_lt (h.made j hj)
    · exact Nat.lt_succ_self _
  cases ha : signal.any (· ∈ s.aborted) with
  | true =>
    obtain ⟨honce, hmem⟩ := h.settles hgranted hrejected (Or.inl rfl)
    rw [acquire_aborted ha]
    refine ⟨h.sorted, ?_, hmade _ hmem, honce, h.count, h.held, h.bounded, h.full⟩
    intro j
    rw [h.waits]
    simp only [Waits, hlength, List.mem_append, List.mem_singleton]
    grind
  | false =>
    by_cases hfree : s.semaphore.current < s.semaphore.max
    · obtain ⟨honce, hmem⟩ := h.settles hgranted hrejected (Or.inr rfl)
      have hcount := h.count
      have hheld := h.held
      rw [acquire_free ha hfree]
      refine ⟨h.sorted, ?_, hmade _ hmem, honce, ?_, ?_, hfree, ?_⟩
      · intro j
        rw [h.waits]
        simp only [Waits, hlength, List.mem_append, List.mem_singleton]
        grind
      · simp only [grants, List.length_append, List.length_singleton] at hcount ⊢
        omega
      · simp only [grants, List.length_append, List.length_singleton] at hheld ⊢
        omega
      · exact fun hne => absurd (h.waiters_eq_nil hfree) hne
    · rw [acquire_full ha hfree]
      refine ⟨?_, ?_, ?_, h.once, h.count, h.held, h.bounded, ?_⟩
      · refine List.pairwise_append.mpr ⟨h.sorted, List.pairwise_singleton _ _, ?_⟩
        intro j hj n hn
        rw [List.mem_singleton.mp hn]
        exact ((h.waits j).mp hj).1
      · intro j
        rw [List.mem_append, h.waits, List.mem_singleton]
        simp only [Waits, hlength]
        grind
      · intro j hj
        rw [hlength]
        exact Nat.lt_succ_of_lt (h.made j hj)
      · exact fun _ => Int.le_antisymm h.bounded (Int.not_lt.mp hfree)

/-- The signals of the earlier calls after a new one. -/
theorem Conserved.signal_snoc (h : Conserved s) (hi : i ∈ s.semaphore.waiters) :
    (s.signals ++ [signal])[i]? = s.signals[i]? :=
  List.getElem?_append_left ((h.waits i).mp hi).1

theorem Listening.signal_snoc (hl : Listening s) (hi : (σ, i) ∈ s.listeners) :
    (s.signals ++ [signal])[i]? = some (some σ) := by
  have hsignal := hl.heard σ i hi
  obtain ⟨hlt, -⟩ := List.getElem?_eq_some_iff.mp hsignal
  rw [List.getElem?_append_left hlt, hsignal]

theorem listening_acquire (h : Conserved s) (hl : Listening s) :
    Listening (s.acquire signal) := by
  cases ha : signal.any (· ∈ s.aborted) with
  | true =>
    rw [acquire_aborted ha]
    exact ⟨fun i hi σ hσ => hl.live i hi σ (by rw [← hσ, h.signal_snoc hi]),
      fun σ i hi => hl.signal_snoc hi⟩
  | false =>
    by_cases hfree : s.semaphore.current < s.semaphore.max
    · rw [acquire_free ha hfree]
      exact ⟨fun i hi σ hσ => hl.live i hi σ (by rw [← hσ, h.signal_snoc hi]),
        fun σ i hi => hl.signal_snoc hi⟩
    · rw [acquire_full ha hfree]
      refine ⟨?_, ?_⟩
      · intro i hi σ hσ
        rcases List.mem_append.mp hi with hi | hi
        · rw [h.signal_snoc hi] at hσ
          obtain ⟨hlive, hlistener⟩ := hl.live i hi σ hσ
          exact ⟨hlive, List.mem_append_left _ hlistener⟩
        · obtain rfl := List.mem_singleton.mp hi
          obtain rfl : signal = some σ := by simpa using hσ
          exact ⟨by simpa using ha, List.mem_append_right _ (by simp)⟩
      · intro σ i hi
        rcases List.mem_append.mp hi with hi | hi
        · exact hl.signal_snoc hi
        · obtain ⟨σ', rfl, he⟩ : ∃ σ', signal = some σ' ∧ (σ', s.signals.length) = (σ, i) := by
            simpa [Option.mem_toList] using hi
          cases he
          simp

theorem conserved_tryAcquire (h : Conserved s) : Conserved s.tryAcquire := by
  by_cases hfree : s.semaphore.current < s.semaphore.max
  · have hcount := h.count
    have hheld := h.held
    rw [tryAcquire, Semaphore.tryAcquire_free hfree]
    refine ⟨h.sorted, h.waits, h.made, h.once, ?_, ?_, hfree, ?_⟩
    · simp only [grants] at hcount ⊢
      omega
    · simp only [grants] at hheld ⊢
      omega
    · exact fun hne => absurd (h.waiters_eq_nil hfree) hne
  · rw [tryAcquire, Semaphore.tryAcquire_full hfree]
    exact h

theorem listening_tryAcquire (hl : Listening s) : Listening s.tryAcquire := by
  by_cases hfree : s.semaphore.current < s.semaphore.max
  · rw [tryAcquire, Semaphore.tryAcquire_free hfree]
    exact ⟨hl.live, hl.heard⟩
  · rw [tryAcquire, Semaphore.tryAcquire_full hfree]
    exact hl

/-! ### release -/

theorem release_nil (hw : s.semaphore.waiters = []) :
    s.release =
      { s with
        semaphore := { s.semaphore with current := s.semaphore.current - 1 }
        releases := s.releases + 1 } := by
  rw [release, Semaphore.release_nil hw]

theorem release_cons {ws : List ℕ} (hw : s.semaphore.waiters = i :: ws) :
    s.release =
      { s with
        semaphore := { s.semaphore with waiters := ws }
        granted := s.granted ++ [i]
        listeners := s.listeners.filter (·.2 ≠ i)
        releases := s.releases + 1 } := by
  rw [release, Semaphore.release_cons hw]

theorem conserved_release (h : Conserved s) (hheld : s.releases < s.grants) :
    Conserved s.release := by
  have hcount := h.count
  cases hw : s.semaphore.waiters with
  | nil =>
    have hbounded := h.bounded
    rw [release_nil hw]
    refine ⟨h.sorted, h.waits, h.made, h.once, ?_, hheld, ?_, fun hne => absurd hw hne⟩
    · simp only [grants] at hcount ⊢
      omega
    · simp only
      omega
  | cons i ws =>
    have hsorted := h.sorted
    rw [hw] at hsorted
    obtain ⟨hfirst, hrest⟩ := List.pairwise_cons.mp hsorted
    obtain ⟨hlt, hgranted, hrejected⟩ := (h.waits i).mp (by simp [hw])
    obtain ⟨honce, hmem⟩ := h.settles hgranted hrejected (Or.inr rfl)
    rw [release_cons hw]
    refine ⟨hrest, ?_, ?_, honce, ?_, ?_, h.bounded, fun _ => h.full (by simp [hw])⟩
    · intro j
      have hj := h.waits j
      rw [hw, List.mem_cons] at hj
      have hne : j ∈ ws → j ≠ i := fun hj => Nat.ne_of_gt (hfirst j hj)
      simp only [Waits, List.mem_append, List.mem_singleton] at hj ⊢
      grind
    · intro j hj
      rcases (hmem j).mp hj with hj | rfl
      · exact h.made j hj
      · exact hlt
    · simp only [grants, List.length_append, List.length_singleton] at hcount ⊢
      omega
    · simp only [grants, List.length_append, List.length_singleton] at hheld ⊢
      omega

theorem listening_release (h : Conserved s) (hl : Listening s) : Listening s.release := by
  cases hw : s.semaphore.waiters with
  | nil =>
    rw [release_nil hw]
    exact ⟨hl.live, hl.heard⟩
  | cons i ws =>
    have hsorted := h.sorted
    rw [hw] at hsorted
    rw [release_cons hw]
    refine ⟨?_, fun σ j hj => hl.heard σ j (List.mem_filter.mp hj).1⟩
    intro j hj σ hσ
    obtain ⟨hlive, hlistener⟩ := hl.live j (hw ▸ List.mem_cons_of_mem _ hj) σ hσ
    have hne : j ≠ i := Nat.ne_of_gt (List.rel_of_pairwise_cons hsorted hj)
    exact ⟨hlive, List.mem_filter.mpr ⟨hlistener, by simp [hne]⟩⟩

/-! ## Runs -/

/-- What every operation keeps: the bound, and the calls that settled. -/
theorem Step.keeps (hstep : Step s s') :
    s'.semaphore.max = s.semaphore.max ∧ s.granted <+: s'.granted ∧
      s.rejected <+: s'.rejected := by
  cases hstep with
  | acquire signal =>
    cases ha : signal.any (· ∈ s.aborted) with
    | true =>
      rw [acquire_aborted ha]
      exact ⟨rfl, List.prefix_rfl, List.prefix_append _ _⟩
    | false =>
      by_cases hfree : s.semaphore.current < s.semaphore.max
      · rw [acquire_free ha hfree]
        exact ⟨rfl, List.prefix_append _ _, List.prefix_rfl⟩
      · rw [acquire_full ha hfree]
        exact ⟨rfl, List.prefix_rfl, List.prefix_rfl⟩
  | tryAcquire =>
    by_cases hfree : s.semaphore.current < s.semaphore.max
    · rw [Callers.tryAcquire, Semaphore.tryAcquire_free hfree]
      exact ⟨rfl, List.prefix_rfl, List.prefix_rfl⟩
    · rw [Callers.tryAcquire, Semaphore.tryAcquire_full hfree]
      exact ⟨rfl, List.prefix_rfl, List.prefix_rfl⟩
  | release =>
    cases hw : s.semaphore.waiters with
    | nil =>
      rw [release_nil hw]
      exact ⟨rfl, List.prefix_rfl, List.prefix_rfl⟩
    | cons i ws =>
      rw [release_cons hw]
      exact ⟨rfl, List.prefix_append _ _, List.prefix_rfl⟩
  | abort σ =>
    rw [Callers.abort]
    split
    · exact ⟨rfl, List.prefix_rfl, List.prefix_rfl⟩
    · have hrejects := rejects_foldl
        { s with aborted := σ :: s.aborted, listeners := s.listeners.filter (·.1 ≠ σ) }
        ((s.listeners.filter (·.1 = σ)).map (·.2))
      rw [show _ = s.granted from hrejects.granted]
      exact ⟨hrejects.max, List.prefix_rfl, hrejects.rejected⟩

/-- Every operation keeps the invariant. -/
theorem Step.conserved (hstep : Step s s') (h : Conserved s) (hl : Listening s) :
    Conserved s' ∧ Listening s' := by
  cases hstep with
  | acquire signal => exact ⟨conserved_acquire h, listening_acquire h hl⟩
  | tryAcquire => exact ⟨conserved_tryAcquire h, listening_tryAcquire hl⟩
  | release hheld => exact ⟨conserved_release h hheld, listening_release h hl⟩
  | abort σ =>
    by_cases hσ : σ ∈ s.aborted
    · rw [Callers.abort, if_pos hσ]
      exact ⟨h, hl⟩
    · obtain ⟨hconserved, hlistening, -⟩ := abort_spec h hl hσ
      exact ⟨hconserved, hlistening⟩

theorem conserved_run {max : ℕ}
    (hrun : Relation.ReflTransGen Step { semaphore := { max } } s) :
    Conserved s ∧ Listening s ∧ s.semaphore.max = max := by
  induction hrun with
  | refl => exact ⟨Conserved.new, Listening.new, rfl⟩
  | tail _ hstep ih =>
    obtain ⟨h, hl, hmax⟩ := ih
    obtain ⟨h', hl'⟩ := hstep.conserved h hl
    exact ⟨h', hl', hstep.keeps.1.trans hmax⟩

theorem keeps_run (hrun : Relation.ReflTransGen Step s s') :
    s.granted <+: s'.granted ∧ s.rejected <+: s'.rejected := by
  induction hrun with
  | refl => exact ⟨List.prefix_rfl, List.prefix_rfl⟩
  | tail _ hstep ih =>
    obtain ⟨-, hgranted, hrejected⟩ := hstep.keeps
    exact ⟨ih.1.trans hgranted, ih.2.trans hrejected⟩

/-- A caller that waits is not aborted. -/
theorem Listening.not_aborted (hl : Listening s) (hi : i ∈ s.semaphore.waiters) :
    ¬ s.Aborted i := by
  rintro ⟨σ, hσ, hsignal⟩
  exact (hl.live i hi σ hsignal).1 hσ

/-- A release gives its permit to the first of the calls that wait. -/
theorem release_waiting (h : Conserved s) (hi : s.Waits i) :
    ∃ j, s.Waits j ∧ (∀ k, s.Waits k → j ≤ k) ∧
      s.release.granted = s.granted ++ [j] ∧ s.release.rejected = s.rejected := by
  cases hw : s.semaphore.waiters with
  | nil =>
    have hmem := (h.waits i).mpr hi
    simp [hw] at hmem
  | cons j ws =>
    have hsorted := h.sorted
    rw [hw] at hsorted
    rw [release_cons hw]
    refine ⟨j, (h.waits j).mp (by simp [hw]), fun k hk => ?_, rfl, rfl⟩
    have hk' := (h.waits k).mpr hk
    rw [hw, List.mem_cons] at hk'
    rcases hk' with rfl | hk'
    · exact Nat.le_refl k
    · exact Nat.le_of_lt (List.rel_of_pairwise_cons hsorted hk')

theorem release_nobody (h : Conserved s) (hnobody : ∀ i, ¬ s.Waits i) :
    s.release.granted = s.granted ∧ s.release.rejected = s.rejected := by
  have hw : s.semaphore.waiters = [] :=
    List.eq_nil_iff_forall_not_mem.mpr fun i hi => hnobody i ((h.waits i).mp hi)
  rw [release_nil hw]
  exact ⟨rfl, rfl⟩

/-- An abort rejects the calls that wait with its signal and takes no permit. -/
theorem abort_rejects (h : Conserved s) (hl : Listening s) :
    (s.abort σ).granted = s.granted ∧
      (s.abort σ).semaphore.current = s.semaphore.current ∧
      ∀ i, i ∈ (s.abort σ).rejected ↔
        i ∈ s.rejected ∨ s.Waits i ∧ s.signals[i]? = some (some σ) := by
  by_cases hσ : σ ∈ s.aborted
  · rw [abort, if_pos hσ]
    refine ⟨rfl, rfl, fun i => ⟨Or.inl, ?_⟩⟩
    rintro (hi | ⟨hwaits, hsignal⟩)
    · exact hi
    · exact absurd ⟨σ, hσ, hsignal⟩ (hl.not_aborted ((h.waits i).mpr hwaits))
  · obtain ⟨hconserved, -, hrejects, hwaits⟩ := abort_spec h hl hσ
    refine ⟨hrejects.granted, hrejects.current, fun i => ⟨?_, ?_⟩⟩
    · intro hi
      have hlt := hconserved.made i (List.mem_append_right _ hi)
      have hgranted : i ∉ (s.abort σ).granted := fun hg =>
        (List.nodup_append.mp hconserved.once).2.2 i hg i hi rfl
      rw [hrejects.signals] at hlt
      rw [hrejects.granted] at hgranted
      by_cases hrejected : i ∈ s.rejected
      · exact Or.inl hrejected
      · refine Or.inr ⟨⟨hlt, hgranted, hrejected⟩, ?_⟩
        by_contra hsignal
        exact ((hwaits i).mpr ⟨⟨hlt, hgranted, hrejected⟩, hsignal⟩).2.2 hi
    · rintro (hi | ⟨hwaited, hsignal⟩)
      · exact hrejects.rejected.subset hi
      · by_contra hrejected
        have hstill : (s.abort σ).Waits i :=
          ⟨hrejects.signals ▸ hwaited.1, hrejects.granted ▸ hwaited.2.1, hrejected⟩
        exact ((hwaits i).mp hstill).2 hsignal

/-- In every run the permits are conserved: the count is that of the permits
that are out, callers wait only when there is none left, a release serves the
caller that waits longest, and a call that is aborted settles without a permit. -/
theorem permits_are_conserved {max : ℕ} {semaphore : Semaphore ℕ}
    (hnew : Semaphore.new max = .ok semaphore)
    (hrun : Relation.ReflTransGen Step { semaphore } s) :
    s.semaphore.current = (s.grants : ℤ) - s.releases ∧
    0 ≤ s.semaphore.current ∧ s.semaphore.current ≤ max ∧
    (∀ i, s.Waits i → s.semaphore.available = 0 ∧ ¬ s.Aborted i) ∧
    (∀ i, s.Waits i → ∃ j, s.Waits j ∧ ¬ s.Aborted j ∧ (∀ k, s.Waits k → j ≤ k) ∧
      s.release.granted = s.granted ++ [j] ∧ s.release.rejected = s.rejected) ∧
    ((∀ i, ¬ s.Waits i) →
      s.release.granted = s.granted ∧ s.release.rejected = s.rejected) ∧
    (s.granted ++ s.rejected).Nodup ∧
    (∀ σ ∈ s.aborted, (s.acquire (some σ)).rejected = s.rejected ++ [s.signals.length] ∧
      (s.acquire (some σ)).granted = s.granted ∧
      (s.acquire (some σ)).semaphore = s.semaphore) ∧
    (∀ σ, (s.abort σ).granted = s.granted ∧
      (s.abort σ).semaphore.current = s.semaphore.current ∧
      ∀ i, i ∈ (s.abort σ).rejected ↔
        i ∈ s.rejected ∨ s.Waits i ∧ s.signals[i]? = some (some σ)) ∧
    ∀ s', Relation.ReflTransGen Step s s' →
      s.granted <+: s'.granted ∧ s.rejected <+: s'.rejected ∧
        ∀ i ∈ s.rejected, i ∉ s'.granted := by
  obtain rfl : { max } = semaphore := by
    rw [Semaphore.new] at hnew
    split at hnew
    · cases hnew
    · exact Except.ok.inj hnew
  obtain ⟨h, hl, hmax⟩ := conserved_run hrun
  have hcount := h.count
  have hheld := h.held
  refine ⟨hcount, ?_, ?_, ?_, ?_, release_nobody h, h.once, ?_, fun σ => abort_rejects h hl, ?_⟩
  · omega
  · rw [← hmax]
    exact h.bounded
  · intro i hi
    have hmem := (h.waits i).mpr hi
    have hfull := h.full (List.ne_nil_of_mem hmem)
    exact ⟨by rw [Semaphore.available, hfull, Int.sub_self], hl.not_aborted hmem⟩
  · intro i hi
    obtain ⟨j, hj, hfirst, hrelease⟩ := release_waiting h hi
    exact ⟨j, hj, hl.not_aborted ((h.waits j).mpr hj), hfirst, hrelease⟩
  · intro σ hσ
    rw [acquire_aborted (by simpa using hσ)]
    exact ⟨rfl, rfl, rfl⟩
  · intro s' hrun'
    obtain ⟨hgranted, hrejected⟩ := keeps_run hrun'
    refine ⟨hgranted, hrejected, fun i hi hg => ?_⟩
    obtain ⟨h', -, -⟩ := conserved_run (hrun.trans hrun')
    exact (List.nodup_append.mp h'.once).2.2 i hg i (hrejected.subset hi) rfl

/-- Three callers of a semaphore with one permit: the second one is aborted while
it waits. -/
def sampleContended : Callers :=
  ((((Callers.acquire { semaphore := { max := 1 } } none).acquire (some 7)).acquire none).abort 7)

/-- The permit of the first caller goes to the third one. -/
theorem sample_permits_are_conserved :
    sampleContended.release.granted = sampleContended.granted ++ [2] ∧
      (sampleContended.granted ++ sampleContended.rejected).Nodup := by
  have hrun : Relation.ReflTransGen Step { semaphore := { max := 1 } } sampleContended :=
    .tail (.tail (.tail (.single (Step.acquire none)) (Step.acquire (some 7)))
      (Step.acquire none)) (Step.abort 7)
  have hnew : Semaphore.new 1 = .ok ({ max := 1 } : Semaphore ℕ) := rfl
  obtain ⟨-, -, -, -, hrelease, -, honce, -⟩ := permits_are_conserved hnew hrun
  obtain ⟨j, hj, -, hfirst, hgranted, -⟩ := hrelease 2 (by decide)
  have hlast : ∀ j ≤ 2, sampleContended.Waits j → j = 2 := by decide
  obtain rfl := hlast j (hfirst 2 (by decide)) hj
  exact ⟨hgranted, honce⟩

end Callers

end Panqueue
