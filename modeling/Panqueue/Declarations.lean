-- Declarations of the global limit: concurrency-fence.ts and the boot of a
-- worker pool. Whatever other calls run between them, the declarations of a
-- queue act on it as writes act on a register with versions.
import Panqueue.Frames
import Panqueue.Lib.Register

namespace Panqueue

/-! ## The boot of a pool -/

/-- A versioned global limit, as the constructor of `WorkerPool` lets it through. -/
structure QueueConcurrencyLimit where
  limit : ℕ
  version : ℕ
  one_le_limit : 1 ≤ limit
  one_le_version : 1 ≤ version

namespace QueueConcurrencyLimit

def args (d : QueueConcurrencyLimit) : DeclareConcurrencyLimitArgs where
  limit := .ofNat d.limit
  version := .ofNat d.version

theorem args_inj {d e : QueueConcurrencyLimit} (h : d.args = e.args) : d = e := by
  unfold args at h
  rw [DeclareConcurrencyLimitArgs.mk.injEq] at h
  cases d
  cases e
  simp_all

/-- The declaration as a write of its limit under its version. -/
def write (d : QueueConcurrencyLimit) : Register.Write ℕ ℕ where
  value := d.limit
  version := d.version

end QueueConcurrencyLimit

/-- What `declareConcurrencyLimit` throws: the operator error, or the error of its call. -/
inductive FenceError
  | concurrencyLimitConflict (queueId : String) (version : ℕ) (storedLimit : Double)
      (requestedLimit : ℕ)
  | call (message : String)

/-- `declareConcurrencyLimit`, from the reply of its script. -/
def Reply.fenced (queueId : String) (declared : QueueConcurrencyLimit) :
    Reply → Except FenceError Unit
  | .declareConcurrencyLimit (status, storedLimit) =>
    if status = .conflict then
      .error (.concurrencyLimitConflict queueId declared.version (storedLimit.getD .nan)
        declared.limit)
    else .ok ()
  | .error _ => .error (.call "Redis error")
  | _ => .error (.call "Unexpected declareConcurrencyLimit result")

inductive PoolState
  | idle
  | starting
  | running
  | stopping
  | stopped
  deriving DecidableEq

/-- Why `WorkerPool.start` rejects. -/
inductive PoolError
  | concurrencyLimitConflict (queueId : String) (version : ℕ) (storedLimit : Double)
      (requestedLimit : ℕ)
  | workerConnection (detail : String)

/-- The `catch` of `#doStart`: an error of the library is thrown again as it is. -/
def FenceError.rethrown : FenceError → PoolError
  | concurrencyLimitConflict queueId version storedLimit requestedLimit =>
    .concurrencyLimitConflict queueId version storedLimit requestedLimit
  | call message => .workerConnection s!"Redis connection failed: {message}"

/-- `WorkerPool.#doStart` from its fencing loop on: each declaration of the pool
with what it came to. The first one that throws ends the boot. -/
def doStart : List (Except FenceError Unit) → PoolState × Except PoolError Unit
  | [] => (.running, .ok ())
  | .ok () :: fences => doStart fences
  | .error e :: _ => (.stopped, .error e.rethrown)

/-- A declaration that was reached and throws rejects the start. -/
theorem doStart_throws {done rest : List (Except FenceError Unit)} {e : FenceError}
    (h : ∀ f ∈ done, f = .ok ()) :
    doStart (done ++ .error e :: rest) = (.stopped, .error e.rethrown) := by
  induction done with
  | nil => rfl
  | cons f done ih =>
    obtain rfl := h f List.mem_cons_self
    exact ih fun g hg => h g (List.mem_cons_of_mem _ hg)

/-! ## The stored declaration as a register -/

variable {q q' : Queue} {c : Concurrency} {r : Option (Register.Write ℕ ℕ)}

/-- The queue stores what the register holds. Under an empty register, its
concurrency hash is still the one of the start. -/
def Queue.Stores (q : Queue) (c : Concurrency) : Option (Register.Write ℕ ℕ) → Prop
  | none => q.concurrency = c
  | some w =>
    q.concurrency =
      { limit := some (.ofDouble (.ofNat w.value)), version := some (.ofDouble (.ofNat w.version)) }

def verdictStatus : Register.Verdict → DeclareStatus
  | .written => .written
  | .ignored => .ignored
  | .unchanged => .unchanged
  | .conflict => .conflict

theorem verdictStatus_eq_conflict {v : Register.Verdict} :
    verdictStatus v = .conflict ↔ v = .conflict := by
  cases v <;> decide

/-- One declaration is one write to the register. -/
theorem declare_offers (hc : c.version = none) (d : QueueConcurrencyLimit) (hq : q.Stores c r) :
    ∃ q' s, declareConcurrencyLimit d.args q =
        .ok (verdictStatus (Register.offer d.write r).1, some (.ofNat s.value)) q' ∧
      (Register.offer d.write r).2 = some s ∧ q'.Stores c (some s) ∧
      ((Register.offer d.write r).1 ≠ .written → q' = q) := by
  cases r with
  | none =>
    have hnew : d.args.Newer q := by
      intro v hv
      rw [show q.concurrency = c from hq, hc] at hv
      cases hv
    exact ⟨_, d.write, declare_newer hnew, rfl, rfl, fun h => absurd rfl h⟩
  | some s =>
    have hs : q.concurrency = _ := hq
    by_cases hlt : s.version < d.version
    · have hnew : d.args.Newer q := by
        intro v hv
        rw [hs] at hv
        cases hv
        exact ⟨_, Numeral.tonumber_ofDouble _, Double.ofNat_lt.mpr hlt⟩
      have ho : Register.offer d.write (some s) = (.written, some d.write) := if_pos hlt
      rw [ho]
      exact ⟨_, d.write, declare_newer hnew, rfl, rfl, fun h => absurd rfl h⟩
    · refine ⟨q, s, ?_, ?_, hq, fun _ => rfl⟩
      · have hn : ¬ Double.ofNat s.version < d.args.version := mt Double.ofNat_lt.mp hlt
        have h1 : d.args.version < Double.ofNat s.version ↔ d.version < s.version :=
          Double.ofNat_lt
        have h2 : d.args.limit.NumEq (Double.ofNat s.value) ↔ d.limit = s.value :=
          Double.numEq_ofNat
        simp only [declareConcurrencyLimit, Lua.declareConcurrencyLimit, Script.run_bind,
          Redis.hmgetConcurrency, hs, Numeral.tonumber_ofDouble, if_neg hn, Script.run_ite,
          Option.bind_some, Option.any_some, decide_eq_true_eq, h1, h2]
        have hlt' : ¬ s.version < d.write.version := hlt
        rw [Register.offer, if_neg hlt']
        simp only [QueueConcurrencyLimit.write]
        by_cases hgt : d.version < s.version
        · simp [hgt, verdictStatus]
        · by_cases heq : d.limit = s.value
          · simp [hgt, heq, verdictStatus]
          · simp [hgt, heq, verdictStatus]
      · rw [Register.offer_some]
        exact congrArg some (if_neg hlt)

/-- The declaration that a call makes. -/
def Call.declares : Call → Option DeclareConcurrencyLimitArgs
  | .declareConcurrencyLimit a => some a
  | _ => none

variable (sha1hex : String → String) {ops ops' : List (Call × RedisTime)}
  {ds ds' : List QueueConcurrencyLimit}

/-- The declarations among the calls are these, in this order. -/
def Declares (ops : List (Call × RedisTime)) (ds : List QueueConcurrencyLimit) : Prop :=
  (ops.filterMap fun op => op.1.declares) = ds.map QueueConcurrencyLimit.args

theorem exec_other {op : Call × RedisTime} (h : op.1.declares = none) (q : Queue) :
    (exec sha1hex op q).2.concurrency = q.concurrency := by
  apply (exec_calm sha1hex op q).1
  rintro a ha
  rw [ha] at h
  cases h

theorem exec_declares (op : Call × RedisTime) (hc : c.version = none) {d : QueueConcurrencyLimit}
    (hop : op.1.declares = some d.args) (hq : q.Stores c r) :
    ∃ s, (exec sha1hex op q).1 = .declareConcurrencyLimit
        (verdictStatus (Register.offer d.write r).1, some (.ofNat s.value)) ∧
      (Register.offer d.write r).2 = some s ∧ (exec sha1hex op q).2.Stores c (some s) ∧
      ((Register.offer d.write r).1 ≠ .written → (exec sha1hex op q).2 = q) := by
  obtain ⟨call, t⟩ := op
  cases call with
  | declareConcurrencyLimit a =>
    cases hop
    obtain ⟨q', s, hrun, ho, hs, hsame⟩ := declare_offers hc d hq
    simp only [exec, Lua.exec, runScript, hrun]
    exact ⟨s, rfl, ho, hs, hsame⟩
  | _ => cases hop

/-- A run stores what the register holds after its declarations. -/
theorem finish_declares (hc : c.version = none) (hq : q.Stores c r) (h : Declares ops ds) :
    (Machine.finish (exec sha1hex) q ops).Stores c
      (Machine.finish Register.offer r (ds.map QueueConcurrencyLimit.write)) := by
  induction ops generalizing q r ds with
  | nil =>
    obtain rfl : ds = [] := List.map_eq_nil_iff.mp h.symm
    exact hq
  | cons op ops ih =>
    unfold Declares at h
    rcases hop : op.1.declares with _ | a
    · simp only [List.filterMap_cons, hop] at h
      have hkeep := exec_other sha1hex hop q
      refine ih ?_ h
      cases r with
      | none => exact hkeep.trans hq
      | some s => exact hkeep.trans hq
    · simp only [List.filterMap_cons, hop] at h
      obtain ⟨d, ds, rfl, ha, hds⟩ := List.map_eq_cons_iff.mp h.symm
      obtain ⟨s, -, ho, hs, -⟩ := exec_declares sha1hex op hc (hop.trans (congrArg some ha.symm)) hq
      rw [List.map_cons, Machine.finish, Machine.finish, ho]
      exact ih hs hds.symm

/-- The declarations of a run split where its calls split. -/
theorem Declares.split {before after : List (Call × RedisTime)} {a : DeclareConcurrencyLimitArgs}
    {t : RedisTime} (h : Declares (before ++ (.declareConcurrencyLimit a, t) :: after) ds) :
    ∃ ds₁ d ds₂, ds = ds₁ ++ d :: ds₂ ∧ d.args = a ∧ Declares before ds₁ := by
  unfold Declares at h
  simp only [List.filterMap_append, List.filterMap_cons, Call.declares] at h
  obtain ⟨ds₁, rest, rfl, h1, h2⟩ := List.map_eq_append_iff.mp h.symm
  obtain ⟨d, ds₂, rfl, hd, -⟩ := List.map_eq_cons_iff.mp h2
  exact ⟨ds₁, d, ds₂, rfl, hd, h1.symm⟩

theorem Declares.left {before after : List (Call × RedisTime)} (h : Declares (before ++ after) ds) :
    ∃ ds₁ ds₂, ds = ds₁ ++ ds₂ ∧ Declares before ds₁ := by
  unfold Declares at h
  rw [List.filterMap_append] at h
  obtain ⟨ds₁, ds₂, rfl, h1, -⟩ := List.map_eq_append_iff.mp h.symm
  exact ⟨ds₁, ds₂, rfl, h1.symm⟩

/-- The version that is stored, as the script reads it. -/
def Queue.storedVersion (q : Queue) : Option Double :=
  q.concurrency.version.bind Numeral.tonumber

theorem Queue.Stores.storedVersion (hc : c.version = none) (h : q.Stores c r) :
    q.storedVersion = r.map fun w => .ofNat w.version := by
  unfold Queue.storedVersion
  cases r with
  | none =>
    rw [show q.concurrency = c from h, hc]
    rfl
  | some w =>
    rw [show q.concurrency = _ from h]
    simp

theorem Queue.Stores.limit {w : Register.Write ℕ ℕ} (h : q.Stores c (some w)) :
    q.limit = some (.ofNat w.value) := by
  unfold Queue.limit
  rw [show q.concurrency = _ from h]
  simp

/-- `d` is the first of the declarations with the highest version. -/
def FirstOfHighest (d : QueueConcurrencyLimit) (ds : List QueueConcurrencyLimit) : Prop :=
  Register.Wins d.write (ds.map QueueConcurrencyLimit.write)

/-- The declarations with the highest version name one limit. -/
def HighestAgree (ds : List QueueConcurrencyLimit) : Prop :=
  Register.TopsAgree (ds.map QueueConcurrencyLimit.write)

variable {before after : List (Call × RedisTime)} {t : RedisTime}

/-- From a queue with no stored declaration, a run stores its settled declarations. -/
theorem stores_settled (hq : q.concurrency.version = none) (h : Declares ops ds) :
    (Machine.finish (exec sha1hex) q ops).Stores q.concurrency
      (Register.settle (ds.map QueueConcurrencyLimit.write)) :=
  finish_declares sha1hex (r := none) hq rfl h

/-- The stored version never decreases. -/
theorem storedVersion_grows (hq : q.concurrency.version = none)
    (h : Declares (before ++ after) ds) {v : Double}
    (hv : (Machine.finish (exec sha1hex) q before).storedVersion = some v) :
    ∃ v', (Machine.finish (exec sha1hex) q (before ++ after)).storedVersion = some v' ∧ v ≤ v' := by
  obtain ⟨ds₁, ds₂, rfl, h1⟩ := h.left
  rw [(stores_settled sha1hex hq h1).storedVersion hq] at hv
  obtain ⟨s, hs, rfl⟩ := Option.map_eq_some_iff.mp hv
  obtain ⟨s', hs', hle⟩ := Register.finish_grows s (ds₂.map QueueConcurrencyLimit.write)
  refine ⟨.ofNat s'.version, ?_, Double.ofNat_le.mpr hle⟩
  have hend : Register.settle ((ds₁ ++ ds₂).map QueueConcurrencyLimit.write) = some s' := by
    rw [Register.settle, List.map_append, Machine.finish_append, ← Register.settle, hs, hs']
  rw [(stores_settled sha1hex hq h).storedVersion hq, hend]
  rfl

/-- In a run, a declaration that is not written changes nothing. -/
theorem declaration_unwritten (hq : q.concurrency.version = none) {a : DeclareConcurrencyLimitArgs}
    (h : Declares (before ++ (.declareConcurrencyLimit a, t) :: after) ds) :
    ∃ status stored q', exec sha1hex (.declareConcurrencyLimit a, t)
        (Machine.finish (exec sha1hex) q before) = (.declareConcurrencyLimit (status, stored), q') ∧
      (status ≠ .written → q' = Machine.finish (exec sha1hex) q before) := by
  obtain ⟨ds₁, d, ds₂, rfl, rfl, h1⟩ := h.split
  obtain ⟨s, hreply, -, -, hsame⟩ := exec_declares sha1hex (.declareConcurrencyLimit d.args, t)
    hq rfl (stores_settled sha1hex hq h1)
  refine ⟨_, _, _, Prod.ext hreply rfl, fun hne => hsame ?_⟩
  rintro hw
  rw [hw] at hne
  exact hne rfl

/-- In a run, a declaration of the highest version conflicts when its limit
differs from the first one of that version. -/
theorem declaration_conflicts (hq : q.concurrency.version = none) {d w : QueueConcurrencyLimit}
    (h : Declares (before ++ (.declareConcurrencyLimit d.args, t) :: after) ds)
    (htop : ∀ e ∈ ds, e.version ≤ d.version) (hw : FirstOfHighest w ds) :
    ∃ status, (exec sha1hex (.declareConcurrencyLimit d.args, t)
        (Machine.finish (exec sha1hex) q before)).1 =
          .declareConcurrencyLimit (status, some (.ofNat w.limit)) ∧
      (status = .conflict ↔ d.limit ≠ w.limit) := by
  obtain ⟨ds₁, e, ds₂, rfl, he, h1⟩ := h.split
  obtain rfl := QueueConcurrencyLimit.args_inj he
  obtain ⟨s, hreply, hs, -, -⟩ := exec_declares sha1hex (.declareConcurrencyLimit e.args, t)
    hq rfl (stores_settled sha1hex hq h1)
  have hall : ∀ v ∈ ds₁.map QueueConcurrencyLimit.write ++
      e.write :: ds₂.map QueueConcurrencyLimit.write, v.version ≤ e.write.version := by
    intro v hv
    rw [← List.map_cons, ← List.map_append] at hv
    obtain ⟨f, hf, rfl⟩ := List.mem_map.mp hv
    exact htop f hf
  obtain ⟨hend, hversion⟩ := Register.settle_top hall hs
  have hwin := Register.Wins.settle hw
  rw [List.map_append, List.map_cons, hend] at hwin
  obtain rfl := Option.some.inj hwin
  exact ⟨_, hreply, verdictStatus_eq_conflict.trans (Register.conflict_iff hs hversion)⟩

/-- The declarations of two runs, one in another order than the other, on a
queue with no stored declaration. In each state of a run the first declaration
of the highest version so far is stored, and the stored version never
decreases. A call that is not answered `written` changes nothing. The two runs
end in one version, and in one limit when the highest declarations agree. Of
the declarations with the highest version, just those conflict that differ from
the first one, and the pools that made them do not start. -/
theorem declarations_agree_in_every_order (hq : q.concurrency.version = none)
    (h : Declares ops ds) (h' : Declares ops' ds') (hperm : ds.Perm ds') (queueId : String) :
    let finish := Machine.finish (exec sha1hex) q
    (ds ≠ [] → ∃ w ∈ ds, FirstOfHighest w ds ∧ (finish ops).concurrency = w.args.declared) ∧
    (∀ before after, ops = before ++ after → ∀ v, (finish before).storedVersion = some v →
      ∃ v', (finish ops).storedVersion = some v' ∧ v ≤ v') ∧
    (∀ before d t after, ops = before ++ (.declareConcurrencyLimit d, t) :: after →
      ∃ status stored q', exec sha1hex (.declareConcurrencyLimit d, t) (finish before) =
          (.declareConcurrencyLimit (status, stored), q') ∧
        (status ≠ .written → q' = finish before)) ∧
    (finish ops).storedVersion = (finish ops').storedVersion ∧
    (HighestAgree ds → (finish ops).limit = (finish ops').limit) ∧
    ∀ before d t after w, ops = before ++ (.declareConcurrencyLimit d.args, t) :: after →
      (∀ e ∈ ds, e.version ≤ d.version) → FirstOfHighest w ds →
      ∃ status, (exec sha1hex (.declareConcurrencyLimit d.args, t) (finish before)).1 =
          .declareConcurrencyLimit (status, some (.ofNat w.limit)) ∧
        (status = .conflict ↔ d.limit ≠ w.limit) ∧
        (d.limit ≠ w.limit → ∀ done rest, (∀ f ∈ done, f = .ok ()) →
          doStart (done ++ (exec sha1hex (.declareConcurrencyLimit d.args, t)
              (finish before)).1.fenced queueId d :: rest) =
            (.stopped, .error (.concurrencyLimitConflict queueId d.version (.ofNat w.limit)
              d.limit))) := by
  have hs := stores_settled sha1hex hq h
  have hs' := stores_settled sha1hex hq h'
  have hp := hperm.map QueueConcurrencyLimit.write
  refine ⟨?_, ?_, ?_, ?_, ?_, ?_⟩
  · intro hne
    obtain ⟨d, hd⟩ := List.exists_mem_of_ne_nil ds hne
    have hwrite : d.write ∈ ds.map QueueConcurrencyLimit.write := List.mem_map_of_mem hd
    obtain ⟨s, hsettle, hw⟩ := Register.settle_of_mem hwrite
    obtain ⟨w, hmem, rfl⟩ := List.mem_map.mp hw.mem
    rw [hsettle] at hs
    exact ⟨w, hmem, hw, hs⟩
  · rintro before after rfl v hv
    exact storedVersion_grows sha1hex hq h hv
  · rintro before a t after rfl
    exact declaration_unwritten sha1hex hq h
  · have hv := congrArg (Option.map Double.ofNat) (Register.settle_version_perm hp)
    simp only [Option.map_map] at hv
    exact (hs.storedVersion hq).trans (hv.trans (hs'.storedVersion hq).symm)
  · intro ha
    rw [← Register.settle_perm hp ha] at hs'
    cases hr : Register.settle (ds.map QueueConcurrencyLimit.write) with
    | none =>
      rw [hr] at hs hs'
      exact congrArg (·.limit.bind Numeral.tonumber) ((show _ = _ from hs).trans hs'.symm)
    | some w =>
      rw [hr] at hs hs'
      exact hs.limit.trans hs'.limit.symm
  · rintro before d t after w rfl htop hw
    obtain ⟨status, hreply, hiff⟩ := declaration_conflicts sha1hex hq h htop hw
    refine ⟨status, hreply, hiff, fun hne done rest hdone => ?_⟩
    rw [hreply, hiff.mpr hne]
    exact doStart_throws hdone

def sampleLimit2 : QueueConcurrencyLimit := ⟨2, 1, by decide, by decide⟩

def sampleLimit3 : QueueConcurrencyLimit := ⟨3, 1, by decide, by decide⟩

/-- Two boots, at 1000 ms and at 2000 ms, that declare limits of their own. -/
def sampleBoots (d e : QueueConcurrencyLimit) : List (Call × RedisTime) :=
  [(.declareConcurrencyLimit d.args, ⟨1, 0⟩), (.declareConcurrencyLimit e.args, ⟨2, 0⟩)]

/-- Two boots that declare the limits 2 and 3 under version 1: the second one is rejected. -/
theorem second_boot_is_rejected :
    ∃ status, (exec id (.declareConcurrencyLimit sampleLimit3.args, ⟨2, 0⟩)
        (run id [(.declareConcurrencyLimit sampleLimit2.args, ⟨1, 0⟩)])).1 =
          .declareConcurrencyLimit (status, some (.ofNat 2)) ∧
      (status = .conflict ↔ 3 ≠ 2) := by
  have hds : Declares (sampleBoots sampleLimit2 sampleLimit3) [sampleLimit2, sampleLimit3] := rfl
  have hds' : Declares (sampleBoots sampleLimit3 sampleLimit2) [sampleLimit3, sampleLimit2] := rfl
  obtain ⟨-, -, -, -, -, h⟩ :=
    declarations_agree_in_every_order id (q := {}) rfl hds hds' (.swap _ _ _) "mail"
  obtain ⟨status, hreply, hiff, -⟩ := h [(.declareConcurrencyLimit sampleLimit2.args, ⟨1, 0⟩)]
    sampleLimit3 ⟨2, 0⟩ [] sampleLimit2 rfl (by decide)
    ⟨[], [sampleLimit3.write], rfl, by simp, by decide⟩
  exact ⟨status, hreply, hiff⟩

end Panqueue
