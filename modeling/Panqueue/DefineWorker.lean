-- define-worker.ts and the constructor of WorkerPool: the worker values that a
-- pool is made of, and the error of the first one that it refuses.
import Panqueue.Lifecycle

/-! ## Counts -/

namespace Double

/-- The check that the constructor makes three times: an integer, and not below 1. -/
def IsCount (d : Double) : Prop := d.isInteger = true ∧ ¬ d < ofNat 1

instance : DecidablePred IsCount := fun d =>
  inferInstanceAs (Decidable (d.isInteger = true ∧ ¬ d < ofNat 1))

theorem rounds_ofNat (n : ℕ) : (ofNat n).rounds = n := by
  unfold ofNat
  rw [rounds_ofRat, Int.floor_natCast, Int.toNat_natCast]

theorem isCount_ofNat {n : ℕ} : (ofNat n).IsCount ↔ 1 ≤ n := by
  unfold IsCount
  rw [ofNat_lt, Nat.not_lt]
  apply and_iff_right
  change (n : ℚ).isInt = true
  simp [Rat.isInt]

/-- A count is a natural number from 1 on. -/
theorem IsCount.eq_ofNat {d : Double} (h : d.IsCount) : d = ofNat d.rounds := by
  obtain ⟨hint, hlt⟩ := h
  rcases d.kinds with rfl | rfl | rfl | ⟨q, rfl⟩
  · cases hint
  · cases hint
  · cases hint
  · have hden : q.den = 1 := by
      have hi : q.isInt = true := hint
      simpa [Rat.isInt] using hi
    obtain ⟨n, rfl⟩ : ∃ n : ℤ, (n : ℚ) = q := ⟨q.num, Rat.coe_int_num_of_den_eq_one hden⟩
    have hpos : 0 ≤ n := by
      by_contra hneg
      apply hlt
      unfold ofNat
      rw [ofRat_lt, Nat.cast_one]
      exact_mod_cast (by omega : n < 1)
    rw [rounds_ofRat, Int.floor_intCast]
    unfold ofNat
    rw [← Int.cast_natCast n.toNat, Int.toNat_of_nonneg hpos]

theorem IsCount.one_le {d : Double} (h : d.IsCount) : 1 ≤ d.rounds := by
  have hc := h
  rw [h.eq_ofNat, isCount_ofNat] at hc
  exact hc

end Double

namespace Panqueue

/-! ## Worker values -/

/-- A global limit, as a caller writes it. -/
structure GlobalLimit where
  limit : Double
  version : Double

/-- The concurrency option, as a caller writes it. -/
inductive WorkerConcurrency
  | number (n : Double)
  | object (localLimit : Option Double) (global : Option GlobalLimit)

/-- `resolveConcurrency`: the local limit and the global one. -/
def resolveConcurrency : Option WorkerConcurrency → Double × Option GlobalLimit
  | none => (.ofNat 1, none)
  | some (.number n) => (n, none)
  | some (.object localLimit global) => (localLimit.getD (.ofNat 1), global)

/-- A value among the workers: what `defineWorker` returns, or any other. -/
inductive WorkerValue
  | definition (queueId : String) (concurrency : Option WorkerConcurrency)
    (leaseMs claimBatchCap : Option Double)
  | other

/-- The limit in the numbers of its caller. -/
def QueueConcurrencyLimit.written (l : QueueConcurrencyLimit) : GlobalLimit where
  limit := .ofNat l.limit
  version := .ofNat l.version

/-- The checks of a global limit. -/
def GlobalLimit.check (queueId : String) (g : GlobalLimit) : Except String QueueConcurrencyLimit :=
  if hl : g.limit.IsCount then
    if hv : g.version.IsCount then
      .ok
        { limit := g.limit.rounds
          version := g.version.rounds
          one_le_limit := hl.one_le
          one_le_version := hv.one_le }
    else
      .error s!"Worker for queue \"{queueId}\": concurrency.global.version must be an integer >= 1"
  else .error s!"Worker for queue \"{queueId}\": concurrency.global.limit must be an integer >= 1"

/-- The definition of a worker whose local limit passed its check. -/
@[simps] def checkedDefinition (queueId : String) {n : Double} (h : n.IsCount)
    (leaseMs claimBatchCap : Option Double) (global : Option QueueConcurrencyLimit) :
    WorkerDefinition where
  queueId := queueId
  options := { concurrency := n.rounds, leaseMs, claimBatchCap }
  global := global
  one_le_concurrency := h.one_le

/-- The checks of the constructor on one worker value, after those with the ids `seen`. -/
def WorkerValue.check (seen : List String) : WorkerValue → Except String WorkerDefinition
  | .other => .error "WorkerPool workers must be created with defineWorker(...)"
  | .definition queueId concurrency leaseMs claimBatchCap =>
    if queueId ∈ seen then .error s!"Duplicate worker definition for queue \"{queueId}\""
    else if h : (resolveConcurrency concurrency).1.IsCount then
      match (resolveConcurrency concurrency).2 with
      | none => .ok (checkedDefinition queueId h leaseMs claimBatchCap none)
      | some g => (g.check queueId).map fun global =>
        checkedDefinition queueId h leaseMs claimBatchCap (some global)
    else .error s!"Worker for queue \"{queueId}\": concurrency must be an integer >= 1"

/-- The loop of the constructor. -/
def checkWorkers (seen : List String) : List WorkerValue → Except String (List WorkerDefinition)
  | [] => .ok []
  | w :: ws =>
    match w.check seen with
    | .error message => .error message
    | .ok d => (checkWorkers (seen ++ [d.queueId]) ws).map (d :: ·)

/-- What the definition keeps of the value that it was made of. -/
def WorkerValue.Describes (w : WorkerValue) (d : WorkerDefinition) : Prop :=
  ∃ concurrency,
    w = .definition d.queueId concurrency d.options.leaseMs d.options.claimBatchCap ∧
    resolveConcurrency concurrency =
      (.ofNat d.options.concurrency, d.global.map QueueConcurrencyLimit.written)

/-! ## What is admitted -/

variable {seen : List String} {w : WorkerValue} {ws : List WorkerValue} {d : WorkerDefinition}
  {ds : List WorkerDefinition}

theorem GlobalLimit.check_ok {queueId : String} {g : GlobalLimit} {l : QueueConcurrencyLimit} :
    g.check queueId = .ok l ↔ g = l.written := by
  obtain ⟨limit, version⟩ := g
  unfold GlobalLimit.check QueueConcurrencyLimit.written
  constructor
  · intro h
    split at h
    · split at h
      · rename_i hl hv
        cases h
        rw [GlobalLimit.mk.injEq]
        exact ⟨hl.eq_ofNat, hv.eq_ofNat⟩
      · cases h
    · cases h
  · intro h
    rw [GlobalLimit.mk.injEq] at h
    obtain ⟨rfl, rfl⟩ := h
    rw [dif_pos (Double.isCount_ofNat.mpr l.one_le_limit),
      dif_pos (Double.isCount_ofNat.mpr l.one_le_version)]
    simp only [Double.rounds_ofNat]

theorem checkedDefinition_eq {n : Double} (h : n.IsCount) (hn : n.rounds = d.options.concurrency) :
    checkedDefinition d.queueId h d.options.leaseMs d.options.claimBatchCap d.global = d := by
  obtain ⟨queueId, ⟨concurrency, leaseMs, claimBatchCap⟩, global, hone⟩ := d
  unfold checkedDefinition
  simp only [hn]

theorem WorkerValue.check_ok : w.check seen = .ok d ↔ w.Describes d ∧ d.queueId ∉ seen := by
  cases w with
  | other =>
    refine iff_of_false (fun h => by cases h) ?_
    rintro ⟨⟨c, hw, -⟩, -⟩
    cases hw
  | definition queueId concurrency leaseMs claimBatchCap =>
    rw [WorkerValue.check]
    constructor
    · intro h
      by_cases hseen : queueId ∈ seen
      · rw [if_pos hseen] at h
        cases h
      rw [if_neg hseen] at h
      by_cases hcount : (resolveConcurrency concurrency).1.IsCount
      · rw [dif_pos hcount] at h
        rcases hg : (resolveConcurrency concurrency).2 with _ | g
        · rw [hg] at h
          cases h
          refine ⟨⟨concurrency, rfl, Prod.ext hcount.eq_ofNat hg⟩, hseen⟩
        · rw [hg] at h
          rcases ha : g.check queueId with message | l
          · simp only [ha] at h
            cases h
          · simp only [ha] at h
            cases h
            have hwritten := GlobalLimit.check_ok.mp ha
            refine ⟨⟨concurrency, rfl, Prod.ext hcount.eq_ofNat ?_⟩, hseen⟩
            rw [hg, hwritten]
            rfl
      · rw [dif_neg hcount] at h
        cases h
    · rintro ⟨⟨c, hw, hc⟩, hnew⟩
      cases hw
      have hfirst := congrArg Prod.fst hc
      have hglobal := congrArg Prod.snd hc
      have hcount : (resolveConcurrency concurrency).1.IsCount := by
        rw [hfirst]
        exact Double.isCount_ofNat.mpr d.one_le_concurrency
      have hrounds : (resolveConcurrency concurrency).1.rounds = d.options.concurrency := by
        rw [hfirst]
        exact Double.rounds_ofNat _
      rw [if_neg hnew, dif_pos hcount]
      have hsame := checkedDefinition_eq hcount hrounds
      rcases hg : d.global with _ | l
      · rw [hg] at hglobal hsame
        rw [show (resolveConcurrency concurrency).2 = none from hglobal]
        exact congrArg Except.ok hsame
      · rw [hg] at hglobal hsame
        rw [show (resolveConcurrency concurrency).2 = some l.written from hglobal]
        simp only [GlobalLimit.check_ok.mpr rfl]
        exact congrArg Except.ok hsame

theorem map_eq_error {ε α β : Type} {f : α → β} {r : Except ε α} {e : ε} :
    r.map f = .error e ↔ r = .error e := by
  cases r <;> simp [Except.map]

theorem checkWorkers_cons_error {m : String} (hw : w.check seen = .error m) :
    checkWorkers seen (w :: ws) = .error m := by
  rw [checkWorkers]
  simp only [hw]

theorem checkWorkers_cons_ok (hw : w.check seen = .ok d) :
    checkWorkers seen (w :: ws) = (checkWorkers (seen ++ [d.queueId]) ws).map (d :: ·) := by
  rw [checkWorkers]
  simp only [hw]

theorem checkWorkers_ok : checkWorkers seen ws = .ok ds ↔
    List.Forall₂ WorkerValue.Describes ws ds ∧ (ds.map WorkerDefinition.queueId).Nodup ∧
      ∀ d ∈ ds, d.queueId ∉ seen := by
  induction ws generalizing seen ds with
  | nil =>
    unfold checkWorkers
    constructor
    · intro h
      cases h
      exact ⟨.nil, List.nodup_nil, fun d hd => by cases hd⟩
    · rintro ⟨hall, -⟩
      cases hall
      rfl
  | cons w ws ih =>
    constructor
    · intro h
      rcases hw : w.check seen with message | d
      · rw [checkWorkers_cons_error hw] at h
        cases h
      · rw [checkWorkers_cons_ok hw] at h
        rcases hrest : checkWorkers (seen ++ [d.queueId]) ws with message | rest
        · rw [hrest] at h
          cases h
        · rw [hrest] at h
          cases h
          obtain ⟨hd, hnew⟩ := WorkerValue.check_ok.mp hw
          obtain ⟨hall, hnodup, hfresh⟩ := ih.mp hrest
          refine ⟨.cons hd hall, ?_, ?_⟩
          · rw [List.map_cons, List.nodup_cons]
            refine ⟨fun hmem => ?_, hnodup⟩
            obtain ⟨e, he, heq⟩ := List.mem_map.mp hmem
            refine hfresh e he (List.mem_append_right _ ?_)
            rw [heq]
            exact List.mem_singleton_self _
          · intro e he
            rcases List.mem_cons.mp he with rfl | he
            · exact hnew
            · exact fun hs => hfresh e he (List.mem_append_left _ hs)
    · rintro ⟨hall, hnodup, hfresh⟩
      obtain ⟨d, rest, hd, hrest, rfl⟩ := List.forall₂_cons_left_iff.mp hall
      rw [List.map_cons, List.nodup_cons] at hnodup
      have hw := WorkerValue.check_ok.mpr ⟨hd, hfresh d List.mem_cons_self⟩
      have hloop : checkWorkers (seen ++ [d.queueId]) ws = .ok rest := by
        refine ih.mpr ⟨hrest, hnodup.2, fun e he hs => ?_⟩
        rcases List.mem_append.mp hs with hs | hs
        · exact hfresh e (List.mem_cons_of_mem _ he) hs
        · apply hnodup.1
          rw [← List.mem_singleton.mp hs]
          exact List.mem_map_of_mem he
      rw [checkWorkers_cons_ok hw, hloop]
      rfl

/-- The loop throws what the first value that is not admitted makes it throw. -/
theorem checkWorkers_error {message : String} : checkWorkers seen ws = .error message ↔
    ∃ before w after ds, ws = before ++ w :: after ∧ checkWorkers seen before = .ok ds ∧
      w.check (seen ++ ds.map WorkerDefinition.queueId) = .error message := by
  induction ws generalizing seen with
  | nil =>
    refine iff_of_false (fun h => by cases h) ?_
    rintro ⟨before, w, after, ds, h, -⟩
    exact absurd h.symm (by simp)
  | cons w ws ih =>
    rcases hw : w.check seen with m | d
    · rw [checkWorkers_cons_error hw]
      constructor
      · intro h
        refine ⟨[], w, ws, [], rfl, rfl, ?_⟩
        rw [List.map_nil, List.append_nil, hw]
        cases h
        rfl
      · rintro ⟨before, w', after, ds, hsplit, hbefore, hm⟩
        cases before with
        | nil =>
          cases hsplit
          cases hbefore
          rw [List.map_nil, List.append_nil, hw] at hm
          cases hm
          rfl
        | cons w'' before =>
          cases hsplit
          rw [checkWorkers_cons_error hw] at hbefore
          cases hbefore
    · have hids (ds : List WorkerDefinition) :
          seen ++ (d :: ds).map WorkerDefinition.queueId =
            seen ++ [d.queueId] ++ ds.map WorkerDefinition.queueId := by
        rw [List.map_cons, List.append_assoc, List.singleton_append]
      rw [checkWorkers_cons_ok hw, map_eq_error, ih]
      constructor
      · rintro ⟨before, w', after, ds, rfl, hbefore, hm⟩
        refine ⟨w :: before, w', after, d :: ds, rfl, ?_, ?_⟩
        · rw [checkWorkers_cons_ok hw, hbefore]
          rfl
        · rw [hids]
          exact hm
      · rintro ⟨before, w', after, ds, hsplit, hbefore, hm⟩
        cases before with
        | nil =>
          cases hsplit
          cases hbefore
          rw [List.map_nil, List.append_nil, hw] at hm
          cases hm
        | cons w'' before =>
          cases hsplit
          rw [checkWorkers_cons_ok hw] at hbefore
          rcases hrest : checkWorkers (seen ++ [d.queueId]) before with m | rest
          · rw [hrest] at hbefore
            cases hbefore
          · rw [hrest] at hbefore
            cases hbefore
            rw [hids] at hm
            exact ⟨before, w', after, rest, rfl, hrest, hm⟩

/-! ## The constructor -/

/-- The constructor of `WorkerPool`. -/
def PoolOptions.new (workers : List WorkerValue) (retention : String → QueueRetention) :
    Except String PoolOptions :=
  if hne : workers = [] then .error "WorkerPool requires at least one worker definition"
  else
    match h : checkWorkers [] workers with
    | .error message => .error message
    | .ok definitions => .ok
      { definitions
        retention
        nonempty := by
          rintro rfl
          exact hne (List.forall₂_nil_right_iff.mp (checkWorkers_ok.mp h).1)
        nodup := (checkWorkers_ok.mp h).2.1 }

theorem PoolOptions.new_of_ne {workers : List WorkerValue} {retention : String → QueueRetention}
    (hne : workers ≠ []) :
    (∀ o, PoolOptions.new workers retention = .ok o ↔
      checkWorkers [] workers = .ok o.definitions ∧ o.retention = retention) ∧
    ∀ message, PoolOptions.new workers retention = .error message ↔
      checkWorkers [] workers = .error message := by
  rw [PoolOptions.new, dif_neg hne]
  split
  · rename_i m hm
    simp [hm]
  · rename_i definitions hm
    refine ⟨fun o => ⟨fun h => ?_, fun h => ?_⟩, fun message => by simp [hm]⟩
    · cases h
      exact ⟨hm, rfl⟩
    · obtain ⟨definitions', retention', hnonempty, hnodup⟩ := o
      obtain ⟨hd, rfl⟩ := h
      cases hm.symm.trans hd
      rfl

/-- A pool is made exactly of workers that its options describe. Otherwise the constructor throws
the error of the first worker that fails a check, the ids before it being taken. -/
theorem a_pool_is_made_of_admitted_workers (workers : List WorkerValue)
    (retention : String → QueueRetention) :
    (∀ o, PoolOptions.new workers retention = .ok o ↔
      List.Forall₂ WorkerValue.Describes workers o.definitions ∧ o.retention = retention) ∧
    ∀ message, PoolOptions.new workers retention = .error message ↔
      workers = [] ∧ message = "WorkerPool requires at least one worker definition" ∨
      ∃ before w after ds, workers = before ++ w :: after ∧
        List.Forall₂ WorkerValue.Describes before ds ∧
        (ds.map WorkerDefinition.queueId).Nodup ∧
        w.check (ds.map WorkerDefinition.queueId) = .error message := by
  rcases eq_or_ne workers [] with rfl | hne
  · refine ⟨fun o => iff_of_false (fun h => by cases h) ?_, fun message => ?_⟩
    · rintro ⟨h, -⟩
      exact o.nonempty (List.forall₂_nil_left_iff.mp h)
    · have hnew : PoolOptions.new [] retention =
          .error "WorkerPool requires at least one worker definition" := rfl
      rw [hnew, Except.error.injEq]
      constructor
      · exact fun h => .inl ⟨rfl, h.symm⟩
      · rintro (⟨-, rfl⟩ | ⟨before, w, after, ds, h, -⟩)
        · rfl
        · exact absurd h.symm (by simp)
  · obtain ⟨hok, herror⟩ := @PoolOptions.new_of_ne _ retention hne
    refine ⟨fun o => ?_, fun message => ?_⟩
    · rw [hok, checkWorkers_ok]
      constructor
      · rintro ⟨⟨hall, -, -⟩, hretention⟩
        exact ⟨hall, hretention⟩
      · rintro ⟨hall, hretention⟩
        exact ⟨⟨hall, o.nodup, fun d _ => List.not_mem_nil⟩, hretention⟩
    · rw [herror, checkWorkers_error]
      constructor
      · rintro ⟨before, w, after, ds, hsplit, hbefore, hm⟩
        obtain ⟨hall, hnodup, -⟩ := checkWorkers_ok.mp hbefore
        exact .inr ⟨before, w, after, ds, hsplit, hall, hnodup, hm⟩
      · rintro (⟨hnil, -⟩ | ⟨before, w, after, ds, hsplit, hall, hnodup, hm⟩)
        · exact absurd hnil hne
        · have hbefore := checkWorkers_ok.mpr ⟨hall, hnodup, fun d _ => List.not_mem_nil⟩
          exact ⟨before, w, after, ds, hsplit, hbefore, hm⟩

end Panqueue
