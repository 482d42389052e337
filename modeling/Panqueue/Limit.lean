-- The global concurrency limit: no run of scripts takes more permits than the
-- stored limit, except those that were taken before it.
import Panqueue.Permits

namespace Panqueue

variable (sha1hex : String → String) {q : Queue}

/-! ## One call -/

/-- The claim script. -/
def Call.Claims : Call → Prop
  | .claimGlobalBatch _ => True
  | _ => False

instance : DecidablePred Call.Claims
  | .claimGlobalBatch _ => inferInstanceAs (Decidable True)
  | .enqueue _ | .complete _ | .fail _ | .recover _ | .extendLock _ | .requeueActive _
  | .declareConcurrencyLimit _ => inferInstanceAs (Decidable False)

/-- With a limit, a claim asks for no more than the limit leaves free. -/
theorem claimCount_limit {limit : Double} (hl : limit ≠ .nan) (active count : ℕ) :
    claimCount (some limit) active count = 0 ∨
      .ofNat (active + claimCount (some limit) active count) ≤ limit := by
  simp only [claimCount]
  split
  · exact Or.inl rfl
  · rename_i h1
    right
    rcases limit.kinds with rfl | rfl | rfl | ⟨l, rfl⟩
    · exact absurd rfl hl
    · -- the free capacity is below 1 here
      refine absurd ?_ h1
      simp [Double.addRat, Double.ofNat, Double.ofRat, Score.ofRat]
    · change Score.ofRat _ ≤ ⊤
      exact le_top
    · simp only [Double.addRat_ofRat, Double.ofNat, Double.ofRat_lt, Double.rounds_ofRat,
        Double.ofRat_le, not_lt] at h1 ⊢
      split
      · have hf := Int.floor_le (l + -(active : ℚ))
        have h0 : (0 : ℤ) ≤ ⌊l + -(active : ℚ)⌋ :=
          Int.floor_nonneg.mpr (by push_cast at h1; linarith)
        have hc : ((⌊l + -(active : ℚ)⌋.toNat : ℤ) : ℚ) ≤ l + -(active : ℚ) := by
          rw [Int.toNat_of_nonneg h0]
          exact hf
        push_cast at hc ⊢
        linarith
      · push_cast at *
        linarith

/-- Only a claim takes permits. -/
theorem card_le_of_not_claims {op : Call × RedisTime} (hq : q.Readable) (hop : ¬ op.1.Claims) :
    (exec sha1hex op q).2.active.card ≤ q.active.card := by
  obtain ⟨_, hf⟩ := exec_flow sha1hex op hq
  obtain ⟨call, t⟩ := op
  cases call with
  | claimGlobalBatch a => exact absurd trivial hop
  | declareConcurrencyLimit a =>
    rcases hf with he | ⟨_, he⟩
    · rw [he]
    · rw [he]
  | _ => exact Frees.active hf

/-- After a call, no more jobs are active than before it, or the stored limit allows them. -/
theorem card_le_limit (op : Call × RedisTime) (hq : q.Readable) {limit : Double}
    (hs : q.limit = some limit) (hl : limit ≠ .nan) :
    (exec sha1hex op q).2.active.card ≤ q.active.card ∨
      .ofNat (exec sha1hex op q).2.active.card ≤ limit := by
  by_cases hop : op.1.Claims
  · obtain ⟨call, t⟩ := op
    cases call with
    | claimGlobalBatch a =>
      have hf := (exec_flow sha1hex (.claimGlobalBatch a, t) hq).2
      have hle := Takes.active_le hf
      rw [hs] at hle
      rcases claimCount_limit hl q.active.card a.count with h0 | hcap
      · left
        rw [h0] at hle
        exact hle
      · right
        exact Double.le_trans (Double.ofNat_le.mpr hle) hcap
    | _ => exact absurd hop id
  · exact Or.inl (card_le_of_not_claims sha1hex hq hop)

/-! ## Whole runs -/

/-- A declaration that will be stored, and that puts the limit below the stored one. -/
def Call.Lowers (q : Queue) : Call → Prop
  | .declareConcurrencyLimit a => a.Newer q ∧ ∃ limit ∈ q.limit, ¬ limit ≤ a.limit
  | _ => False

/-- No call of the run lowers the limit that is stored when it executes. -/
def NeverLowered (q : Queue) : List (Call × RedisTime) → Prop
  | [] => True
  | op :: ops => ¬ op.1.Lowers q ∧ NeverLowered (exec sha1hex op q).2 ops

/-- A limit of at least 1 is stored, and the active jobs are within it. -/
def Queue.WithinLimit (q : Queue) : Prop :=
  ∃ limit, q.limit = some limit ∧ .ofNat 1 ≤ limit ∧ .ofNat q.active.card ≤ limit

/-- The limit after a declaration is the declared one. -/
theorem declared_limit (a : DeclareConcurrencyLimitArgs) (q : Queue) :
    Queue.limit { q with concurrency := a.declared } = some a.limit :=
  Numeral.tonumber_ofDouble a.limit

theorem withinLimit_exec {op : Call × RedisTime} (hq : q.Readable) (hop : ¬ op.1.Lowers q)
    (h : q.WithinLimit) : (exec sha1hex op q).2.WithinLimit := by
  obtain ⟨limit, hs, h1, hcard⟩ := h
  have hl : limit ≠ .nan := Double.ne_nan_of_le h1
  have hcard' : .ofNat (exec sha1hex op q).2.active.card ≤ limit := by
    rcases card_le_limit sha1hex op hq hs hl with hle | hle
    · exact Double.le_trans (Double.ofNat_le.mpr hle) hcard
    · exact hle
  have hf := (exec_flow sha1hex op hq).2
  obtain ⟨call, t⟩ := op
  cases call with
  | claimGlobalBatch a =>
    exact ⟨limit, by rw [limit_congr (Takes.concurrency hf), hs], h1, hcard'⟩
  | declareConcurrencyLimit a =>
    rcases hf with he | ⟨hn, he⟩
    · exact ⟨limit, by rw [he, hs], h1, hcard'⟩
    · have hle : limit ≤ a.limit := by
        by_contra hlt
        exact hop ⟨hn, limit, hs, hlt⟩
      refine ⟨a.limit, by rw [he, declared_limit], Double.le_trans h1 hle, ?_⟩
      exact Double.le_trans hcard' hle
  | _ => exact ⟨limit, by rw [limit_congr (Frees.concurrency hf), hs], h1, hcard'⟩

theorem withinLimit_finish {ops : List (Call × RedisTime)} (hq : q.Readable)
    (hops : NeverLowered sha1hex q ops) (h : q.WithinLimit) :
    (Machine.finish (exec sha1hex) q ops).WithinLimit := by
  induction ops generalizing q with
  | nil => exact h
  | cons op ops ih =>
    obtain ⟨hop, hops⟩ := hops
    exact ih (exec_flow sha1hex op hq).1 hops (withinLimit_exec sha1hex hq hop h)

/-- Before the first claim, no job is active. -/
theorem card_before_claims {ops : List (Call × RedisTime)} (hops : ∀ op ∈ ops, ¬ op.1.Claims) :
    (run sha1hex ops).active.card = 0 := by
  have hinv : ∀ op q, ¬ op.1.Claims → q.Readable ∧ q.active.card = 0 →
      (exec sha1hex op q).2.Readable ∧ (exec sha1hex op q).2.active.card = 0 := by
    rintro op q hop ⟨hq, h0⟩
    refine ⟨(exec_flow sha1hex op hq).1, ?_⟩
    have hle := card_le_of_not_claims sha1hex hq hop
    omega
  exact (Machine.finish_invariant ⟨Queue.readable_empty, rfl⟩ hinv hops).2

/-- The global concurrency limit holds across processes. A call leaves at most
the stored limit active, or what was active before it, and only a claim takes
permits. With a limit before the first claim that no later declaration lowers,
the active jobs are always within the stored limit. -/
theorem the_stored_limit_holds :
    (∀ ops op limit, (run sha1hex ops).limit = some limit → .ofNat 1 ≤ limit →
      .ofNat (exec sha1hex op (run sha1hex ops)).2.active.card ≤
        Double.max (.ofNat (run sha1hex ops).active.card) limit) ∧
    (∀ ops op, (run sha1hex ops).active.card < (exec sha1hex op (run sha1hex ops)).2.active.card →
      op.1.Claims) ∧
    (∀ pre post limit, (∀ op ∈ pre, ¬ op.1.Claims) → (run sha1hex pre).limit = some limit →
      .ofNat 1 ≤ limit → NeverLowered sha1hex (run sha1hex pre) post →
      (run sha1hex pre).active.card = 0 ∧
        ∃ limit', (run sha1hex (pre ++ post)).limit = some limit' ∧
          .ofNat (run sha1hex (pre ++ post)).active.card ≤ limit') := by
  refine ⟨?_, ?_, ?_⟩
  · intro ops op limit hs h1
    have hl : limit ≠ .nan := Double.ne_nan_of_le h1
    apply Double.le_max (by simp [Double.ofNat, Double.ofRat]) hl
    exact (card_le_limit sha1hex op (readable_run sha1hex ops) hs hl).imp_left
      Double.ofNat_le.mpr
  · intro ops op hlt
    by_contra hop
    have hle := card_le_of_not_claims sha1hex (readable_run sha1hex ops) hop
    omega
  · intro pre post limit hpre hs h1 hpost
    have h0 := card_before_claims sha1hex hpre
    refine ⟨h0, ?_⟩
    have hw : (run sha1hex pre).WithinLimit := by
      refine ⟨limit, hs, h1, ?_⟩
      rw [h0]
      exact Double.le_trans (Double.ofNat_le.mpr (Nat.zero_le 1)) h1
    obtain ⟨limit', hs', _, hcard⟩ :=
      withinLimit_finish sha1hex (readable_run sha1hex pre) hpost hw
    rw [← run_append] at hs' hcard
    exact ⟨limit', hs', hcard⟩

/-- A limit of one, and two waiting jobs. -/
def sampleQueued : List (Call × RedisTime) :=
  [(.declareConcurrencyLimit ⟨.ofNat 1, .ofNat 1⟩, ⟨1, 0⟩),
   (.enqueue ⟨"a", "{}", "mail", .ofNat 0, .ofNat 0⟩, ⟨1, 0⟩),
   (.enqueue ⟨"b", "{}", "mail", .ofNat 0, .ofNat 0⟩, ⟨1, 0⟩)]

/-- The claim that takes the one permit. -/
def sampleSaturated : List (Call × RedisTime) :=
  sampleQueued ++ [(.claimGlobalBatch ⟨.ofNat 1000, 2⟩, ⟨1, 0⟩)]

/-- A claim of two jobs takes one. -/
theorem sample_claim_within_limit :
    ∃ limit, (run id sampleSaturated).limit = some limit ∧
      .ofNat (run id sampleSaturated).active.card ≤ limit :=
  ((the_stored_limit_holds id).2.2 sampleQueued [(.claimGlobalBatch ⟨.ofNat 1000, 2⟩, ⟨1, 0⟩)]
    (.ofNat 1) (by decide) (by decide +kernel) (by decide +kernel) ⟨id, trivial⟩).2

end Panqueue
