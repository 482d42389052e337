-- The laws of the three counters: they agree with the history of the job,
-- they add up at each place, and they bound the claims.
import Panqueue.Placement

namespace Panqueue

variable (sha1hex : String → String) {i : String}

/-! ## The tally of a history -/

/-- What a history counts: the claims that returned the job, the fail calls
that returned `waiting` or `failed`, the recover entries, and the
requeueActive calls that returned `waiting`. -/
structure Tally where
  claims : ℕ := 0
  failures : ℕ := 0
  stalls : ℕ := 0
  handoffs : ℕ := 0
  deriving DecidableEq

def Tally.act (t : Tally) : Act → Tally
  | .claim _ _ _ => { t with claims := t.claims + 1 }
  | .retry _ _ _ | .fail _ _ _ => { t with failures := t.failures + 1 }
  | .stall _ _ | .stallOut _ _ => { t with stalls := t.stalls + 1 }
  | .requeue _ _ _ => { t with handoffs := t.handoffs + 1 }
  | .enqueue _ _ | .extend _ _ | .complete _ _ => t

def tally (es : List Act) : Tally := es.foldl Tally.act {}

theorem tally_snoc (es : List Act) (e : Act) : tally (es ++ [e]) = (tally es).act e := by
  unfold tally
  rw [List.foldl_append]
  rfl

/-! ## The books of one life -/

/-- The counters of a job with budgets `r` and `s` agree with its tally. -/
structure Job.Agrees (j : Job) (r s : ℕ) (t : Tally) : Prop where
  maxRetries : j.maxRetries = .ofNat r
  maxStalls : j.maxStalls = .ofNat s
  runs : j.runs = t.claims
  failures : j.failures = t.failures
  stalls : j.stalls = t.stalls

/-- The claims that were ended by a failure, a stall or a handoff. -/
def Tally.returned (t : Tally) : ℕ := t.failures + t.stalls + t.handoffs

/-- Both budgets cover the tally. -/
def Tally.Within (t : Tally) (r s : ℕ) : Prop := t.failures ≤ r ∧ t.stalls ≤ s

/-- One budget is used up and one more. -/
def Tally.JustOver (t : Tally) (r s : ℕ) : Prop :=
  t.failures = r + 1 ∧ t.stalls ≤ s ∨ t.failures ≤ r ∧ t.stalls = s + 1

/-- The books at a place: the counters add up and keep to the budgets. -/
def Place.Books (r s : ℕ) (t : Tally) : Place → Prop
  | gone => t.claims ≤ r + s + 1 + t.handoffs
  | waiting j => j.Agrees r s t ∧ t.claims = t.returned ∧ t.Within r s
  | active j _ _ => j.Agrees r s t ∧ t.claims = t.returned + 1 ∧ t.Within r s
  | finished .completed j _ => j.Agrees r s t ∧ t.claims = t.returned + 1 ∧ t.Within r s
  | finished .failed j _ => j.Agrees r s t ∧ t.claims = t.returned ∧ t.JustOver r s

theorem Tally.Within.bound {t : Tally} {r s : ℕ} (h : t.Within r s)
    (hc : t.claims ≤ t.returned + 1) : t.claims ≤ r + s + 1 + t.handoffs := by
  unfold Tally.Within at h
  unfold Tally.returned at hc
  omega

theorem Tally.JustOver.bound {t : Tally} {r s : ℕ} (h : t.JustOver r s)
    (hc : t.claims = t.returned) : t.claims ≤ r + s + 1 + t.handoffs := by
  unfold Tally.JustOver at h
  unfold Tally.returned at hc
  omega

theorem Place.Books.bound {r s : ℕ} {t : Tally} {p : Place} (h : p.Books r s t) :
    t.claims ≤ r + s + 1 + t.handoffs := by
  rcases p with _ | j | ⟨j, token, d⟩ | ⟨_ | _, j, n⟩
  · exact h
  · exact h.2.2.bound (by have := h.2.1; omega)
  · exact h.2.2.bound (Nat.le_of_eq h.2.1)
  · exact h.2.2.bound (Nat.le_of_eq h.2.1)
  · exact h.2.2.bound h.2.1

theorem Job.Agrees.mayRetry {j : Job} {r s : ℕ} {t : Tally} (h : j.Agrees r s t)
    (error : String) (now : ℕ) : (j.failed error now).MayRetry ↔ t.failures + 1 ≤ r := by
  unfold Job.MayRetry Job.failed
  rw [h.maxRetries, h.failures, Double.ofNat_le]

theorem Job.Agrees.mayStall {j : Job} {r s : ℕ} {t : Tally} (h : j.Agrees r s t)
    (reason : String) (now : ℕ) : (j.stalled reason now).MayStall ↔ t.stalls + 1 ≤ s := by
  unfold Job.MayStall Job.stalled
  rw [h.maxStalls, h.stalls, Double.ofNat_le]

/-- A failure is on the books. -/
theorem Job.Agrees.failed {j : Job} {r s : ℕ} {t : Tally} (h : j.Agrees r s t) (error : String)
    (now : ℕ) : (j.failed error now).Agrees r s { t with failures := t.failures + 1 } :=
  ⟨h.maxRetries, h.maxStalls, h.runs, congrArg (· + 1) h.failures, h.stalls⟩

/-- A stall is on the books. -/
theorem Job.Agrees.stalled {j : Job} {r s : ℕ} {t : Tally} (h : j.Agrees r s t) (reason : String)
    (now : ℕ) : (j.stalled reason now).Agrees r s { t with stalls := t.stalls + 1 } :=
  ⟨h.maxRetries, h.maxStalls, h.runs, h.failures, congrArg (· + 1) h.stalls⟩

/-- Each step of a life keeps the books. -/
theorem LifeStep.books {issue : ℕ → ℕ → String} {r s : ℕ} {es fs : List Act} {p p' : Place}
    (h : LifeStep issue p fs p') (hb : p.Books r s (tally es)) :
    p'.Books r s (tally (es ++ fs)) := by
  obtain ⟨hne, hst⟩ := h
  generalize ht : tally es = t at hb
  cases hst with
  | enqueue a now => exact absurd rfl hne
  | claim j now d =>
    obtain ⟨hj, hc, hw⟩ := hb
    rw [tally_snoc, ht]
    refine ⟨⟨hj.maxRetries, hj.maxStalls, congrArg (· + 1) hj.runs, hj.failures, hj.stalls⟩, ?_, hw⟩
    exact congrArg (· + 1) hc
  | extend j token d d' =>
    rw [tally_snoc, ht]
    exact hb
  | complete j token d now =>
    rw [tally_snoc, ht]
    exact hb
  | retry j token d error now hm =>
    obtain ⟨hj, hc, hw⟩ := hb
    rw [tally_snoc, ht]
    refine ⟨hj.failed error now, ?_, (hj.mayRetry error now).mp hm, hw.2⟩
    unfold Tally.returned at hc ⊢
    simp only [Tally.act]
    omega
  | fail j token d error now hm =>
    obtain ⟨hj, hc, hw⟩ := hb
    rw [tally_snoc, ht]
    have hover := mt (hj.mayRetry error now).mpr hm
    unfold Tally.Within at hw
    refine ⟨hj.failed error now, ?_, Or.inl ⟨?_, hw.2⟩⟩
    · unfold Tally.returned at hc ⊢
      simp only [Tally.act]
      omega
    · simp only [Tally.act]
      omega
  | stall j token d reason now hd hm =>
    obtain ⟨hj, hc, hw⟩ := hb
    rw [tally_snoc, ht]
    refine ⟨hj.stalled reason now, ?_, hw.1, (hj.mayStall reason now).mp hm⟩
    unfold Tally.returned at hc ⊢
    simp only [Tally.act]
    omega
  | stallOut j token d reason now hd hm =>
    obtain ⟨hj, hc, hw⟩ := hb
    rw [tally_snoc, ht]
    have hover := mt (hj.mayStall reason now).mpr hm
    unfold Tally.Within at hw
    refine ⟨hj.stalled reason now, ?_, Or.inr ⟨hw.1, ?_⟩⟩
    · unfold Tally.returned at hc ⊢
      simp only [Tally.act]
      omega
    · simp only [Tally.act]
      omega
  | requeue j token d reason now =>
    obtain ⟨hj, hc, hw⟩ := hb
    rw [tally_snoc, ht]
    refine ⟨⟨hj.maxRetries, hj.maxStalls, hj.runs, hj.failures, hj.stalls⟩, ?_, hw⟩
    unfold Tally.returned at hc ⊢
    simp only [Tally.act]
    omega
  | evict f j now =>
    rw [List.append_nil, ht]
    exact hb.bound

/-- A whole life keeps the books. -/
theorem life_books {issue : ℕ → ℕ → String} {r s : ℕ} {a : EnqueueArgs} {now : ℕ} {es : List Act}
    {p : Place} (hr : a.maxRetries = .ofNat r) (hs : a.maxStalls = .ofNat s)
    (h : Reaches (LifeStep issue) (.waiting (.enqueued a now)) es p) :
    p.Books r s (tally es) := by
  refine Reaches.invariant (P := fun es p => p.Books r s (tally es)) ?_ ?_ h
  · exact ⟨⟨hr, hs, rfl, rfl, rfl⟩, rfl, Nat.zero_le r, Nat.zero_le s⟩
  · intro es t fs u hb hst
    exact hst.books hb

/-! ## The law -/

/-- The counters of a hash, read against the tally of its history. -/
structure JobHash.Accounts (h : JobHash) (r s : ℕ) (t : Tally) : Prop where
  failures : h.failures = some (.int t.failures)
  stalls : h.stalls = some (.int t.stalls)
  runs : h.runs = some (.int t.claims)
  returned : h.status = some .waiting ∨ h.status = some .failed →
    t.claims = t.failures + t.stalls + t.handoffs
  held : h.status = some .active ∨ h.status = some .completed →
    t.claims = t.failures + t.stalls + t.handoffs + 1
  within : h.status = some .waiting ∨ h.status = some .active → t.failures ≤ r ∧ t.stalls ≤ s
  exceeded : h.status = some .failed → t.failures = r + 1 ∨ t.stalls = s + 1

theorem Place.Books.accounts {r s : ℕ} {t : Tally} {p : Place} {h : JobHash}
    (hb : p.Books r s t) (hh : p.hash i = some h) : h.Accounts r s t := by
  rcases p with _ | j | ⟨j, token, d⟩ | ⟨_ | _, j, n⟩
  · cases hh
  all_goals
    cases hh
    obtain ⟨hj, hc, hw⟩ := hb
    unfold Tally.returned at hc
  · constructor <;> simp_all [Job.hash, hj.failures, hj.stalls, hj.runs, Tally.Within]
  · constructor <;> simp_all [Job.hash, hj.failures, hj.stalls, hj.runs, Tally.Within]
  · constructor <;>
      simp_all [Job.hash, hj.failures, hj.stalls, hj.runs, Tally.Within, FinalStatus.status]
  · constructor <;>
      simp_all [Job.hash, hj.failures, hj.stalls, hj.runs, Tally.JustOver, FinalStatus.status]
    omega

/-- For a job enqueued with budgets `r` and `s`, in every run: while its hash
exists, the counters are those of its history and add up as its status says, and
in the whole run it is claimed `r + s + 1` times at most, and once more for each
handoff. -/
theorem the_counters_account_for_every_claim (ops : List (Call × RedisTime))
    (hl : LeasesAreNumbers ops) (hids : IdsNotReused (trace sha1hex ops)) (i : String)
    (a : EnqueueArgs) (now r s : ℕ) (ha : .enqueue a now ∈ history i (trace sha1hex ops))
    (hr : a.maxRetries = .ofNat r) (hs : a.maxStalls = .ofNat s) :
    (∀ h, (run sha1hex ops).jobs i = some (.hash h) →
      h.Accounts r s (tally (history i (trace sha1hex ops)))) ∧
    (tally (history i (trace sha1hex ops))).claims ≤
      r + s + 1 + (tally (history i (trace sha1hex ops))).handoffs := by
  obtain ⟨p, hp, hreach⟩ := run_refines sha1hex hl i
  rcases one_life hreach (hids i) with ⟨he, -⟩ | ⟨a', now', fs, he, hlife⟩
  · rw [he] at ha
    cases ha
  · -- the one enqueue of the history is the one of the budgets
    have haa : a' = a := by
      have hone := hids i
      rw [he, List.countP_cons] at hone
      rw [he] at ha
      rcases List.mem_cons.mp ha with h | h
      · cases h
        rfl
      · have hpos : 0 < fs.countP Act.isEnqueue := List.countP_pos_iff.mpr ⟨_, h, rfl⟩
        simp only [Act.isEnqueue, if_true] at hone
        omega
    subst haa
    have hb := life_books hr hs hlife
    have ht : tally (history i (trace sha1hex ops)) = tally fs := by
      rw [he]
      rfl
    rw [ht]
    refine ⟨fun h hk => ?_, hb.bound⟩
    obtain ⟨x, hx, hpx⟩ := hp.hash_of_key hk
    cases hx
    exact hb.accounts hpx

/-- The sample job is handed over, fails once, stalls once, and is claimed again. -/
def sampleLife : List (Call × RedisTime) :=
  sampleOps ++
    [(.requeueActive ⟨"j", "j:2000:1", "shutdown"⟩, ⟨3, 0⟩),
      (.claimGlobalBatch ⟨.ofNat 30000, 1⟩, ⟨4, 0⟩),
      (.fail ⟨"j", "refused", "j:4000:2", ⟨.keep, -1, -1⟩⟩, ⟨5, 0⟩),
      (.claimGlobalBatch ⟨.ofNat 30000, 1⟩, ⟨6, 0⟩),
      (.recover ⟨1, "stalled", ⟨.keep, -1, -1⟩⟩, ⟨40, 0⟩),
      (.claimGlobalBatch ⟨.ofNat 30000, 1⟩, ⟨41, 0⟩)]

/-- Its four claims are all that its budgets and its handoff allow. -/
theorem sample_job_is_claimed_within_its_budget :
    ∃ h, (run id sampleLife).jobs "j" = some (.hash h) ∧ h.runs = some (.int 4) ∧
      h.failures = some (.int 1) ∧ h.stalls = some (.int 1) ∧
      (tally (history "j" (trace id sampleLife))).claims ≤ 1 + 1 + 1 + 1 := by
  have hleases : LeasesAreNumbers sampleLife := by decide
  have htally : tally (history "j" (trace id sampleLife)) = ⟨4, 1, 1, 1⟩ := by decide +kernel
  have hpresent : ((run id sampleLife).jobs "j").isSome = true := by decide +kernel
  obtain ⟨haccounts, hbound⟩ := the_counters_account_for_every_claim id sampleLife hleases
    (idsNotReused_of_nodup id (by decide)) "j" sampleJob 1000 1 1 (by decide +kernel) rfl rfl
  rw [htally] at haccounts hbound ⊢
  obtain ⟨p, hp⟩ := sound_run id hleases "j"
  obtain ⟨h, hh⟩ : ∃ h, p.hash "j" = some h := by
    rw [hp.key, Option.isSome_map] at hpresent
    exact Option.isSome_iff_exists.mp hpresent
  have hkey : (run id sampleLife).jobs "j" = some (.hash h) := by
    rw [hp.key, hh]
    rfl
  have ha := haccounts h hkey
  exact ⟨h, hkey, ha.runs, ha.failures, ha.stalls, hbound⟩

end Panqueue
