-- A fleet of worker pools on the queues of one Redis. Each pool fences its limits
-- before its runners can claim, so the limits hold from the first claim on.
import Panqueue.Limit
import Panqueue.PoolRuns

namespace Panqueue

variable {ι δ : Type}

/-! ## The system -/

/-- Worker pools, and the queues of their Redis by queue id. `fences` has the last
declaration call of each pool that Redis ran, with what it came to. -/
structure Fleet (ι δ : Type) where
  queues : String → Queue
  pools : ι → WorkerPool δ
  fences : ι → Option ((String × QueueConcurrencyLimit) × Except FenceError Unit)

/-- A fleet before its first step. -/
def Fleet.start (o : ι → PoolOptions) : Fleet ι δ where
  queues := fun _ => {}
  pools := fun k => { options := o k }
  fences := fun _ => none

variable [DecidableEq ι]

/-- A queue after a call. -/
def Fleet.exec (sha1hex : String → String) (s : Fleet ι δ) (queueId : String)
    (op : Call × RedisTime) : Fleet ι δ :=
  { s with
    queues := Function.update s.queues queueId (Panqueue.exec sha1hex op (s.queues queueId)).2 }

def Fleet.setPool (s : Fleet ι δ) (k : ι) (p : WorkerPool δ) : Fleet ι δ :=
  { s with pools := Function.update s.pools k p }

variable (sha1hex : String → String)

/-- One step of the fleet. Only pools declare limits, and only their runners claim.
A pool goes on after a declaration when the call of it was not in conflict. A claim
reply can be any, and so can the error of a call that failed. -/
inductive FleetStep : Fleet ι δ → List (String × (Call × RedisTime)) → Fleet ι δ → Prop
  | call (s : Fleet ι δ) (queueId : String) (op : Call × RedisTime) (hc : ¬ op.1.Claims)
      (hd : op.1.declares = none) :
    FleetStep s [(queueId, op)] (s.exec sha1hex queueId op)
  | declare (s : Fleet ι δ) (k : ι) (b : Boot δ) (hb : b ∈ (s.pools k).boots)
      (limit : String × QueueConcurrencyLimit) (limits : List (String × QueueConcurrencyLimit))
      (hphase : b.phase = .declares (limit :: limits))
      (hf : (s.fences k).map Prod.fst ≠ some limit) (t : RedisTime) :
    FleetStep s [(limit.1, (.declareConcurrencyLimit limit.2.args, t))]
      { s.exec sha1hex limit.1 (.declareConcurrencyLimit limit.2.args, t) with
        fences := Function.update s.fences k (some (limit,
          (Panqueue.exec sha1hex (.declareConcurrencyLimit limit.2.args, t)
            (s.queues limit.1)).1.fenced limit.1 limit.2)) }
  | declared (s : Fleet ι δ) (k : ι) (j : ℕ) (b : Boot δ) (hb : (s.pools k).boots[j]? = some b)
      (limit : String × QueueConcurrencyLimit) (limits : List (String × QueueConcurrencyLimit))
      (hphase : b.phase = .declares (limit :: limits)) (hf : s.fences k = some (limit, .ok ())) :
    FleetStep s []
      (s.setPool k ((s.pools k).afterBoot j (b.afterDeclare (s.pools k).options limits (.ok ()))))
  | pool (s : Fleet ι δ) (k : ι) (p : WorkerPool δ) (hp : WorkerPool.Step (s.pools k) p)
      (hno : ∀ (j : ℕ) (b : Boot δ) (limit : String × QueueConcurrencyLimit)
        (limits : List (String × QueueConcurrencyLimit)), (s.pools k).boots[j]? = some b →
        b.phase = .declares (limit :: limits) →
        p ≠ (s.pools k).afterBoot j (b.afterDeclare (s.pools k).options limits (.ok ()))) :
    FleetStep s [] (s.setPool k p)
  | claim (s : Fleet ι δ) (k : ι) (b : Boot δ) (hb : b ∈ (s.pools k).boots) (i : ℕ)
      (d : WorkerDefinition) (hd : (s.pools k).options.definitions[i]? = some d) (r : Runner δ)
      (hr : b.runners[i]? = some r) (n : ℕ) (hl : r.loop = .claiming n) (t : RedisTime) :
    FleetStep s [(d.queueId, (.claimGlobalBatch ⟨r.leaseMs, n⟩, t))]
      (s.exec sha1hex d.queueId (.claimGlobalBatch ⟨r.leaseMs, n⟩, t))

/-! ## What a step of a pool does to its boots -/

theorem mem_modify {α : Type} {l : List α} {k : ℕ} {f : α → α} {x : α} (h : x ∈ l.modify k f) :
    x ∈ l ∨ ∃ y ∈ l, x = f y := by
  obtain ⟨i, hi⟩ := List.mem_iff_getElem?.mp h
  rw [List.getElem?_modify] at hi
  obtain ⟨y, hy, rfl⟩ := Option.map_eq_some_iff.mp hi
  have hmem := List.mem_of_getElem? hy
  by_cases hk : k = i
  · exact Or.inr ⟨y, hmem, by simp [hk]⟩
  · left
    simpa [hk] using hmem

/-- The boot stands at its await, and has no runner that it did not have. -/
def Boot.Rests (b b' : Boot δ) : Prop :=
  b'.phase = b.phase ∧ (b.runners = [] → b'.runners = [])

namespace WorkerPool

variable {p p' : WorkerPool δ} {b' : Boot δ}

theorem mem_set_rests {b : Boot δ} {k : ℕ} {c : Boot δ} (hk : p.boots[k]? = some b)
    (hc : b.Rests c) (hset : p'.boots = p.boots.set k c) (h : b' ∈ p'.boots) :
    ∃ b ∈ p.boots, b.Rests b' := by
  rw [hset] at h
  rcases List.mem_or_eq_of_mem_set h with h | rfl
  · exact ⟨b', h, rfl, id⟩
  · exact ⟨b, List.mem_of_getElem? hk, hc⟩

theorem mem_mapRunners {f : Runner δ → Runner δ} {k : Option ℕ}
    (h : b' ∈ (p.mapRunners k f).boots) : ∃ b ∈ p.boots, b.Rests b' := by
  unfold WorkerPool.mapRunners at h
  split at h
  · exact ⟨b', h, rfl, id⟩
  · rcases mem_modify h with h | ⟨b, hb, rfl⟩
    · exact ⟨b', h, rfl, id⟩
    · refine ⟨b, hb, rfl, fun hr => ?_⟩
      simp only [hr, List.map_nil]

/-- Each boot of the next state is new, or rests, or one of its awaits ended. -/
theorem Step.boots (h : Step p p') (hb' : b' ∈ p'.boots) :
    b' = {} ∨ (∃ b ∈ p.boots, b.Rests b') ∨
      ∃ j b, p.boots[j]? = some b ∧ BootStep p.options b b' ∧ p' = p.afterBoot j b' := by
  have hkept : b' ∈ p.boots → ∃ b ∈ p.boots, b.Rests b' := fun h => ⟨b', h, rfl, id⟩
  cases h with
  | start =>
    unfold WorkerPool.start at hb'
    split at hb'
    · exact Or.inr (Or.inl (hkept hb'))
    · split at hb'
      · exact Or.inr (Or.inl (hkept hb'))
      · split at hb'
        · exact Or.inr (Or.inl (hkept hb'))
        · rcases List.mem_append.mp hb' with hb' | hb'
          · exact Or.inr (Or.inl (hkept hb'))
          · exact Or.inl (List.mem_singleton.mp hb')
  | shutdown options =>
    unfold WorkerPool.shutdown at hb'
    right
    left
    split at hb'
    · exact hkept hb'
    · split at hb' <;> exact hkept hb'
  | runner k i b hb r hr x hx ho =>
    right
    left
    refine mem_set_rests hb ?_ rfl hb'
    refine ⟨rfl, fun hnil => ?_⟩
    rw [hnil] at hr
    cases hr
  | turn _ hturn =>
    right
    cases hturn with
    | boot k b c hb hs =>
      have hset : b' ∈ p.boots.set k c := by
        unfold WorkerPool.afterBoot at hb'
        split at hb' <;> exact hb'
      rcases List.mem_or_eq_of_mem_set hset with h | rfl
      · exact Or.inl (hkept h)
      · exact Or.inr ⟨k, b, hb, hs, rfl⟩
    | started k b hb =>
      left
      refine mem_set_rests hb ?_ rfl hb'
      exact ⟨rfl, id⟩
    | startAwaited =>
      left
      unfold WorkerPool.beginTeardown at hb'
      split at hb'
      · exact hkept hb'
      · obtain ⟨b, hb, hr⟩ := mem_mapRunners hb'
        exact ⟨b, hb, hr⟩
    | stopped =>
      left
      unfold WorkerPool.afterStops at hb'
      split at hb' <;> exact hkept hb'
    | drained => exact Or.inl (hkept hb')
    | requeued =>
      left
      unfold WorkerPool.closeHeld at hb'
      split at hb'
      · exact hkept hb'
      · rename_i j b hheld
        obtain ⟨i, -, hi⟩ := Option.bind_eq_some_iff.mp hheld
        obtain ⟨c, hc, heq⟩ := Option.map_eq_some_iff.mp hi
        cases heq
        refine mem_set_rests hc ?_ rfl hb'
        exact ⟨rfl, id⟩
    | closed =>
      left
      unfold WorkerPool.closeHeldNext at hb'
      split at hb'
      · exact hkept hb'
      · rename_i j b hheld
        obtain ⟨i, -, hi⟩ := Option.bind_eq_some_iff.mp hheld
        obtain ⟨c, hc, heq⟩ := Option.map_eq_some_iff.mp hi
        cases heq
        refine mem_set_rests hc ?_ rfl hb'
        exact ⟨rfl, id⟩
    | ended =>
      left
      unfold WorkerPool.afterClose at hb'
      obtain ⟨b, hb, hr⟩ := mem_mapRunners hb'
      exact ⟨b, hb, hr⟩

end WorkerPool

/-! ## Fences -/

/-- The queue stores a declaration of this version or a higher one, and under this
version this limit. -/
def Queue.Fences (q : Queue) (d : QueueConcurrencyLimit) : Prop :=
  ∃ w, q.Stores {} (some w) ∧ d.version ≤ w.version ∧ (w.version = d.version → w.value = d.limit)

/-- The queue stores nothing yet, or one of these declarations. -/
def Queue.StoresOneOf (D : QueueConcurrencyLimit → Prop) (q : Queue) : Prop :=
  ∃ r, q.Stores {} r ∧ ∀ w ∈ r, ∃ d, D d ∧ w = d.write

variable {sha1hex} {q : Queue} {op : Call × RedisTime} {d d' : QueueConcurrencyLimit}
  {D : QueueConcurrencyLimit → Prop} {r : Option (Register.Write ℕ ℕ)}

theorem stores_other (hd : op.1.declares = none) (h : q.Stores {} r) :
    (exec sha1hex op q).2.Stores {} r := by
  have hkeep := exec_other sha1hex hd q
  cases r with
  | none => exact hkeep.trans h
  | some w => exact hkeep.trans h

theorem Queue.Fences.other (h : q.Fences d) (hd : op.1.declares = none) :
    (exec sha1hex op q).2.Fences d := by
  obtain ⟨w, hw, hle, heq⟩ := h
  exact ⟨w, stores_other hd hw, hle, heq⟩

/-- A declaration leaves the fences that stand. -/
theorem Queue.Fences.declare (h : q.Fences d) (d' : QueueConcurrencyLimit) (t : RedisTime) :
    (exec sha1hex (.declareConcurrencyLimit d'.args, t) q).2.Fences d := by
  obtain ⟨w, hw, hle, heq⟩ := h
  obtain ⟨s, -, ho, hs, -⟩ :=
    exec_declares sha1hex (.declareConcurrencyLimit d'.args, t) rfl rfl hw
  refine ⟨s, hs, ?_⟩
  rw [Register.offer_some, Option.some.injEq] at ho
  subst ho
  split
  · rename_i hlt
    have hlt : w.version < d'.version := hlt
    change d.version ≤ d'.version ∧ (d'.version = d.version → d'.limit = d.limit)
    refine ⟨by omega, fun h => ?_⟩
    omega
  · exact ⟨hle, heq⟩

/-- A declaration that is not in conflict stands as a fence. -/
theorem declared_fences (hq : q.StoresOneOf D) {queueId : String} {t : RedisTime}
    (hok : (exec sha1hex (.declareConcurrencyLimit d.args, t) q).1.fenced queueId d = .ok ()) :
    (exec sha1hex (.declareConcurrencyLimit d.args, t) q).2.Fences d := by
  obtain ⟨r, hr, -⟩ := hq
  obtain ⟨s, hreply, ho, hs, -⟩ :=
    exec_declares sha1hex (.declareConcurrencyLimit d.args, t) rfl rfl hr
  refine ⟨s, hs, Register.le_version_of_offer ho, fun hv => ?_⟩
  by_contra hne
  have hconflict := (Register.conflict_iff ho hv).mpr fun h => hne h.symm
  rw [hreply, hconflict] at hok
  cases hok

theorem Queue.StoresOneOf.other (h : q.StoresOneOf D) (hd : op.1.declares = none) :
    (exec sha1hex op q).2.StoresOneOf D := by
  obtain ⟨r, hr, hD⟩ := h
  exact ⟨r, stores_other hd hr, hD⟩

theorem Queue.StoresOneOf.declare (h : q.StoresOneOf D) (hd : D d) (t : RedisTime) :
    (exec sha1hex (.declareConcurrencyLimit d.args, t) q).2.StoresOneOf D := by
  obtain ⟨r, hr, hD⟩ := h
  obtain ⟨s, -, ho, hs, -⟩ :=
    exec_declares sha1hex (.declareConcurrencyLimit d.args, t) rfl rfl hr
  refine ⟨some s, hs, ?_⟩
  intro w hw
  cases hw
  rcases r with _ | w
  · cases ho
    exact ⟨d, hd, rfl⟩
  · rw [Register.offer_some, Option.some.injEq] at ho
    subst ho
    split
    · exact ⟨d, hd, rfl⟩
    · exact hD w rfl

/-- The limit that is stored is one of those that were declared. -/
theorem Queue.StoresOneOf.limit (h : q.StoresOneOf D) {w : Register.Write ℕ ℕ}
    (hw : q.Stores {} (some w)) : ∃ d, D d ∧ w.value = d.limit := by
  obtain ⟨r, hr, hD⟩ := h
  have hlimit := hw.limit
  rcases r with _ | v
  · have hempty : q.concurrency = {} := hr
    unfold Queue.limit at hlimit
    rw [hempty] at hlimit
    cases hlimit
  · rw [hr.limit, Option.some.injEq, Double.ofNat_inj] at hlimit
    obtain ⟨d, hd, hv⟩ := hD v rfl
    refine ⟨d, hd, ?_⟩
    rw [← hlimit, hv]
    rfl

/-! ## The boot of a pool -/

namespace Boot

variable {F : String × QueueConcurrencyLimit → Prop} {o : PoolOptions} {b b' : Boot δ}

/-- The limits that the boot is past are fenced, and all are once it has runners. -/
structure Fenced (F : String × QueueConcurrencyLimit → Prop) (o : PoolOptions) (b : Boot δ) :
    Prop where
  runners : b.runners = [] ∨ ∀ x ∈ o.limits, F x
  declares : ∀ limits, b.phase = .declares limits →
    ∃ declared, o.limits = declared ++ limits ∧ ∀ x ∈ declared, F x

theorem Fenced.mono {F' : String × QueueConcurrencyLimit → Prop} (h : b.Fenced F o)
    (hF : ∀ x, F x → F' x) : b.Fenced F' o := by
  refine ⟨h.runners.imp_right fun hall x hx => hF x (hall x hx), fun limits hp => ?_⟩
  obtain ⟨declared, ho, hall⟩ := h.declares limits hp
  exact ⟨declared, ho, fun x hx => hF x (hall x hx)⟩

theorem Fenced.rests (h : b.Fenced F o) (hr : b.Rests b') : b'.Fenced F o := by
  refine ⟨h.runners.imp_left hr.2, fun limits hp => h.declares limits ?_⟩
  rw [← hr.1]
  exact hp

theorem caught_fenced (h : b.runners = [] ∨ ∀ x ∈ o.limits, F x) (e : PoolError) :
    (b.caught e).Fenced F o := by
  refine ⟨h, fun limits hp => ?_⟩
  cases hp

theorem subscribeNext_fenced (h : b.runners = [] ∨ ∀ x ∈ o.limits, F x) (channels : List String) :
    (b.subscribeNext channels).Fenced F o := by
  cases channels with
  | cons channel channels =>
    refine ⟨h, fun limits hp => ?_⟩
    cases hp
  | nil =>
    have hstarted : (startRunners b.runners).1 = [] ∨ ∀ x ∈ o.limits, F x := by
      refine h.imp_left fun hnil => ?_
      rw [hnil]
      rfl
    simp only [Boot.subscribeNext]
    split
    · rename_i runners heq
      rw [heq] at hstarted
      refine ⟨hstarted, fun limits hp => ?_⟩
      cases hp
    · rename_i runners detail heq
      rw [heq] at hstarted
      exact caught_fenced hstarted _

theorem attach_fenced (h : ∀ x ∈ o.limits, F x) : (b.attach o).Fenced F o := by
  unfold Boot.attach
  split
  · exact subscribeNext_fenced (Or.inr h) _
  · exact caught_fenced (Or.inr h) _

theorem declareNext_fenced (h : b.runners = [] ∨ ∀ x ∈ o.limits, F x)
    {limits : List (String × QueueConcurrencyLimit)}
    (hd : ∃ declared, o.limits = declared ++ limits ∧ ∀ x ∈ declared, F x) :
    (b.declareNext o limits).Fenced F o := by
  cases limits with
  | nil =>
    obtain ⟨declared, ho, hall⟩ := hd
    rw [List.append_nil] at ho
    refine attach_fenced fun x hx => hall x ?_
    rw [← ho]
    exact hx
  | cons limit limits =>
    refine ⟨h, fun ls hp => ?_⟩
    cases hp
    exact hd

end Boot

/-- The step lemma of a boot: it goes on after a declaration only when the limit is fenced. -/
theorem BootStep.fenced {F : String × QueueConcurrencyLimit → Prop} {o : PoolOptions}
    {b b' : Boot δ} (h : BootStep o b b') (hb : b.Fenced F o)
    (hok : ∀ limit limits, b.phase = .declares (limit :: limits) →
      b' = b.afterDeclare o limits (.ok ()) → F limit) : b'.Fenced F o := by
  cases h with
  | connected hphase =>
    refine ⟨hb.runners, fun limits hp => ?_⟩
    cases hp
  | connectFailed hphase detail =>
    unfold Boot.connectFails
    apply Boot.caught_fenced
    exact hb.runners
  | duplicated hphase =>
    unfold Boot.afterDuplicate
    apply Boot.declareNext_fenced
    · exact hb.runners
    · exact ⟨[], rfl, by simp⟩
  | duplicateFailed hphase detail =>
    unfold Boot.duplicateFails
    apply Boot.caught_fenced
    exact hb.runners
  | declared limit limits hphase r =>
    cases r with
    | error e => exact Boot.caught_fenced hb.runners _
    | ok _ =>
      obtain ⟨declared, ho, hall⟩ := hb.declares _ hphase
      refine Boot.declareNext_fenced hb.runners ⟨declared ++ [limit], by simp [ho], ?_⟩
      intro x hx
      rcases List.mem_append.mp hx with hx | hx
      · exact hall x hx
      · rw [List.mem_singleton.mp hx]
        exact hok limit limits hphase rfl
  | subscribed channel channels hphase =>
    unfold Boot.afterSubscribe
    apply Boot.subscribeNext_fenced
    exact hb.runners
  | subscribeFailed channels hphase detail => exact Boot.caught_fenced hb.runners _
  | closed closing e hphase ok =>
    refine ⟨hb.runners, fun limits hp => ?_⟩
    unfold Boot.closeNext at hp
    simp only at hp
    split at hp <;> cases hp

/-! ## The fleet -/

variable {o : ι → PoolOptions} {s s' : Fleet ι δ} {es : List (String × (Call × RedisTime))}

/-- The pools declare the limit for this queue. -/
def Declared (o : ι → PoolOptions) (queueId : String) (d : QueueConcurrencyLimit) : Prop :=
  ∃ k, (queueId, d) ∈ (o k).limits

/-- Every worker of the queue declares a limit, and none above `m`. -/
def LimitedTo (o : ι → PoolOptions) (queueId : String) (m : ℕ) : Prop :=
  ∀ k, ∀ d ∈ (o k).definitions, d.queueId = queueId → ∃ g, d.global = some g ∧ g.limit ≤ m

/-- The queues of a fleet whose pools fence their limits. -/
structure Fleet.Fenced (o : ι → PoolOptions) (s : Fleet ι δ) : Prop where
  pools : ∀ k, WorkerPool.Reachable (o k) (s.pools k)
  readable : ∀ queueId, (s.queues queueId).Readable
  stores : ∀ queueId, (s.queues queueId).StoresOneOf (Declared o queueId)
  fences : ∀ k limit, s.fences k = some (limit, .ok ()) → (s.queues limit.1).Fences limit.2
  boots : ∀ k, ∀ b ∈ (s.pools k).boots,
    b.Fenced (fun limit => (s.queues limit.1).Fences limit.2) (o k)
  within : ∀ queueId m, LimitedTo o queueId m → (s.queues queueId).active.card ≤ m

omit [DecidableEq ι] in
theorem mem_limits {o : PoolOptions} {queueId : String} {g : QueueConcurrencyLimit} :
    (queueId, g) ∈ o.limits ↔ ∃ d ∈ o.definitions, d.queueId = queueId ∧ d.global = some g := by
  unfold PoolOptions.limits
  rw [List.mem_filterMap]
  constructor
  · rintro ⟨d, hd, heq⟩
    obtain ⟨g', hg, heq⟩ := Option.map_eq_some_iff.mp heq
    cases heq
    exact ⟨d, hd, rfl, hg⟩
  · rintro ⟨d, hd, rfl, hg⟩
    exact ⟨d, hd, by rw [hg]; rfl⟩

namespace Fleet

omit [DecidableEq ι] in
/-- A call on one queue of the fleet that keeps what holds of the queue. -/
theorem Fenced.call (h : s.Fenced o) (queueId : String) (op : Call × RedisTime)
    (hs : (Panqueue.exec sha1hex op (s.queues queueId)).2.StoresOneOf (Declared o queueId))
    (hf : ∀ d, (s.queues queueId).Fences d →
      (Panqueue.exec sha1hex op (s.queues queueId)).2.Fences d)
    (hm : ∀ m, LimitedTo o queueId m →
      (Panqueue.exec sha1hex op (s.queues queueId)).2.active.card ≤ m) :
    (s.exec sha1hex queueId op).Fenced o := by
  have hfences : ∀ limit : String × QueueConcurrencyLimit, (s.queues limit.1).Fences limit.2 →
      ((s.exec sha1hex queueId op).queues limit.1).Fences limit.2 := by
    intro limit hl
    unfold Fleet.exec
    by_cases hq : limit.1 = queueId
    · subst hq
      simpa using hf _ hl
    · simpa [hq] using hl
  refine ⟨h.pools, fun i => ?_, fun i => ?_, fun k limit hl => hfences _ (h.fences k limit hl),
    fun k b hb => (h.boots k b hb).mono hfences, fun i m hi => ?_⟩
  · unfold Fleet.exec
    by_cases hq : i = queueId
    · subst hq
      simpa using (exec_flow sha1hex op (h.readable i)).1
    · simpa [hq] using h.readable i
  · unfold Fleet.exec
    by_cases hq : i = queueId
    · subst hq
      simpa using hs
    · simpa [hq] using h.stores i
  · unfold Fleet.exec
    by_cases hq : i = queueId
    · subst hq
      simpa using hm m hi
    · simpa [hq] using h.within i m hi

/-- A step of one pool. -/
theorem Fenced.setPool (h : s.Fenced o) {k : ι} {p : WorkerPool δ}
    (hp : WorkerPool.Step (s.pools k) p)
    (hb : ∀ b ∈ p.boots, b.Fenced (fun limit => (s.queues limit.1).Fences limit.2) (o k)) :
    (s.setPool k p).Fenced o := by
  refine ⟨fun i => ?_, h.readable, h.stores, h.fences, fun i => ?_, h.within⟩
  · unfold Fleet.setPool
    by_cases hi : i = k
    · subst hi
      have hnext : WorkerPool.Reachable (o i) p := (h.pools i).tail hp
      simpa using hnext
    · simpa [hi] using h.pools i
  · unfold Fleet.setPool
    by_cases hi : i = k
    · subst hi
      simpa using hb
    · simpa [hi] using h.boots i

/-- The step lemma. -/
theorem Fenced.step (h : s.Fenced o) (hs : FleetStep sha1hex s es s') : s'.Fenced o := by
  cases hs with
  | call queueId op hc hd =>
    refine h.call queueId op ((h.stores queueId).other hd) (fun d hf => hf.other hd) ?_
    intro m hm
    exact Nat.le_trans (card_le_of_not_claims sha1hex (h.readable queueId) hc)
      (h.within queueId m hm)
  | declare k b hb limit limits hphase hf t =>
    have hdeclared : Declared o limit.1 limit.2 := by
      obtain ⟨declared, ho, -⟩ := (h.boots k b hb).declares _ hphase
      exact ⟨k, by rw [ho]; simp⟩
    have hq := h.stores limit.1
    have hcall : (s.exec sha1hex limit.1 (.declareConcurrencyLimit limit.2.args, t)).Fenced o := by
      refine h.call limit.1 _ (hq.declare hdeclared t) (fun d hf => hf.declare limit.2 t) ?_
      intro m hm
      refine Nat.le_trans (card_le_of_not_claims sha1hex (h.readable limit.1) ?_) (h.within _ m hm)
      exact fun hc => hc
    refine ⟨hcall.pools, hcall.readable, hcall.stores, fun i l hl => ?_, hcall.boots, hcall.within⟩
    by_cases hi : i = k
    · subst hi
      simp only [Function.update_self] at hl
      obtain ⟨rfl, hok⟩ := Prod.mk.inj (Option.some.inj hl)
      simpa [Fleet.exec] using declared_fences hq hok
    · simp only [Function.update_of_ne hi] at hl
      exact hcall.fences i l hl
  | declared k j b hb limit limits hphase hf =>
    have hmem := List.mem_of_getElem? hb
    have hoptions := (h.pools k).options
    have hstep : BootStep (s.pools k).options b
        (b.afterDeclare (s.pools k).options limits (.ok ())) :=
      .declared limit limits hphase _
    refine h.setPool (.turn _ (.boot j b _ hb hstep)) fun b' hb' => ?_
    have hset : b' ∈ (s.pools k).boots.set j
        (b.afterDeclare (s.pools k).options limits (.ok ())) := by
      unfold WorkerPool.afterBoot at hb'
      split at hb' <;> exact hb'
    rcases List.mem_or_eq_of_mem_set hset with hb' | rfl
    · exact h.boots k b' hb'
    · rw [hoptions] at hstep ⊢
      refine hstep.fenced (h.boots k b hmem) fun limit' limits' hphase' _ => ?_
      rw [hphase] at hphase'
      cases hphase'
      exact h.fences k limit hf
  | pool k p hp hno =>
    have hoptions := (h.pools k).options
    refine h.setPool hp fun b' hb' => ?_
    rcases hp.boots hb' with rfl | ⟨b, hb, hrests⟩ | ⟨j, b, hb, hstep, hp'⟩
    · refine ⟨Or.inl rfl, fun limits hl => ?_⟩
      cases hl
    · exact (h.boots k b hb).rests hrests
    · have hfenced := h.boots k b (List.mem_of_getElem? hb)
      rw [hoptions] at hstep hno
      refine hstep.fenced hfenced fun limit limits hphase heq => ?_
      rw [heq] at hp'
      exact absurd hp' (hno j b limit limits hb hphase)
  | claim k b hb i d hd r hr n hl t =>
    have hoptions := (h.pools k).options
    refine h.call d.queueId _ ((h.stores d.queueId).other rfl) (fun g hf => hf.other rfl) ?_
    intro m hm
    -- the runner exists, so its pool is past the fence of this queue
    rw [hoptions] at hd
    have hdmem := List.mem_of_getElem? hd
    obtain ⟨g, hg, -⟩ := hm k d hdmem rfl
    have hall : ∀ x ∈ (o k).limits, (s.queues x.1).Fences x.2 := by
      refine (h.boots k b hb).runners.resolve_left fun hnil => ?_
      rw [hnil] at hr
      cases hr
    obtain ⟨w, hw, -⟩ := hall _ (mem_limits.mpr ⟨d, hdmem, rfl, hg⟩)
    have hle : w.value ≤ m := by
      obtain ⟨g', ⟨k', hk'⟩, hg'⟩ := (h.stores d.queueId).limit hw
      obtain ⟨d', hd', hqueue, hglobal⟩ := mem_limits.mp hk'
      obtain ⟨g'', hsome, hle⟩ := hm k' d' hd' hqueue
      rw [hglobal] at hsome
      cases hsome
      rw [hg']
      exact hle
    rcases card_le_limit sha1hex (.claimGlobalBatch ⟨r.leaseMs, n⟩, t) (h.readable d.queueId)
      hw.limit (by simp [Double.ofNat, Double.ofRat]) with hcard | hcard
    · exact Nat.le_trans hcard (h.within d.queueId m hm)
    · exact Nat.le_trans (Double.ofNat_le.mp hcard) hle

omit [DecidableEq ι] in
theorem fenced_start (o : ι → PoolOptions) : (Fleet.start o : Fleet ι δ).Fenced o where
  pools _ := .refl
  readable _ := Queue.readable_empty
  stores _ := ⟨none, rfl, by simp⟩
  fences k limit hl := by cases hl
  boots k b hb := by cases hb
  within queueId m _ := Nat.zero_le m

end Fleet

variable (sha1hex)

/-- Pools that share the queues of one Redis hold their limits from the boot on, in
every interleaving of their boots, their runners and the calls of all others. Once a
pool has a runner, each of its limits is fenced: its queue stores the declared
version or a higher one, and the declared limit under it. A stored limit is a whole
number from 1 on. When every worker of a queue declares a limit, never more jobs are
active than the highest one allows. -/
theorem a_fleet_holds_its_limits (o : ι → PoolOptions)
    (hs : Reaches (FleetStep sha1hex) (Fleet.start o) es s) :
    (∀ k, ∀ b ∈ (s.pools k).boots, b.runners ≠ [] → ∀ limit ∈ (o k).limits,
      (s.queues limit.1).Fences limit.2) ∧
    (∀ queueId, ∀ limit ∈ (s.queues queueId).limit, ∃ n, 1 ≤ n ∧ limit = .ofNat n) ∧
    ∀ queueId m, LimitedTo o queueId m → (s.queues queueId).active.card ≤ m := by
  have h : s.Fenced o := by
    induction hs with
    | start => exact Fleet.fenced_start o
    | next _ hst ih => exact ih.step hst
  refine ⟨fun k b hb hne => (h.boots k b hb).runners.resolve_left hne, ?_, h.within⟩
  intro queueId limit hlimit
  obtain ⟨r, hr, hD⟩ := h.stores queueId
  rcases r with _ | w
  · have hempty : (s.queues queueId).concurrency = {} := hr
    unfold Queue.limit at hlimit
    rw [hempty] at hlimit
    cases hlimit
  · obtain ⟨d, -, rfl⟩ := hD w rfl
    rw [hr.limit] at hlimit
    cases hlimit
    exact ⟨d.limit, d.one_le_limit, rfl⟩

/-- One worker of three jobs at a time on a queue with the limit 2. -/
def sampleLimited : PoolOptions where
  definitions :=
    [{ queueId := "mail", options := { concurrency := 3 }
       global := some sampleLimit2, one_le_concurrency := Nat.one_le_ofNat }]
  retention := fun _ => .resolve none none
  nonempty := List.cons_ne_nil _ _
  nodup := List.nodup_singleton _

def sampleFleet : Fleet Unit String := .start fun _ => sampleLimited

/-- The boot of the sample pool after each of its awaits. -/
def sampleConnected : Boot String := Boot.afterConnect {}

def sampleDeclaring : Boot String := sampleConnected.afterDuplicate sampleLimited

def sampleSubscribing : Boot String := sampleDeclaring.afterDeclare sampleLimited [] (.ok ())

/-- The pool boots and declares its limit. Of three jobs its runner, which asks for
as many, gets two. -/
theorem sample_fleet_is_fenced : ∃ s : Fleet Unit String,
    (∃ b ∈ (s.pools ()).boots, b.runners.map Runner.loop = [.claiming 3]) ∧
    (s.queues "mail").Fences sampleLimit2 ∧
    (s.queues "mail").waiting = ["l"] ∧ (s.queues "mail").active.members = {"j", "k"} ∧
    (s.queues "mail").active.card ≤ 2 := by
  have h1 : Reaches (FleetStep id) sampleFleet _ _ :=
    Reaches.start.next (.pool _ () _ .start fun j b limit limits hb => by cases hb)
  have h2 := h1.next (.pool _ () _ (.turn _ (.boot 0 ({} : Boot String) _ rfl (.connected rfl)))
    fun j b limit limits hb hphase => by
      obtain rfl := List.mem_singleton.mp (List.mem_of_getElem? hb)
      cases hphase)
  have h3 := h2.next (.pool _ () _ (.turn _ (.boot 0 sampleConnected _ rfl (.duplicated rfl)))
    fun j b limit limits hb hphase => by
      obtain rfl := List.mem_singleton.mp (List.mem_of_getElem? hb)
      cases hphase)
  have h4 := h3.next (.declare _ () sampleDeclaring (List.mem_singleton_self _)
    ("mail", sampleLimit2) [] rfl (fun h => by cases h) ⟨1, 0⟩)
  have hreply : (exec id (.declareConcurrencyLimit ⟨.ofNat 2, .ofNat 1⟩, ⟨1, 0⟩) {}).1 =
      .declareConcurrencyLimit (.written, some (.ofNat 2)) := by decide +kernel
  have h5 := h4.next (.declared _ () 0 sampleDeclaring rfl
    ("mail", sampleLimit2) [] rfl
    (congrArg (fun r : Reply => some (("mail", sampleLimit2), r.fenced "mail" sampleLimit2))
      hreply))
  have h6 := h5.next (.pool _ () _ (.turn _ (.boot 0 sampleSubscribing _ rfl
    (.subscribed (notifyKey "mail") [] rfl))) fun j b limit limits hb hphase => by
      obtain rfl := List.mem_singleton.mp (List.mem_of_getElem? hb)
      cases hphase)
  have h7 := h6.next (.pool _ () _ (.runner 0 0 _ rfl _ rfl .resume trivial trivial)
    fun j b limit limits hb hphase => by
      obtain rfl := List.mem_singleton.mp (List.mem_of_getElem? hb)
      cases hphase)
  have h8 := h7.next (.call _ "mail" (.enqueue sampleJob, ⟨2, 0⟩) id rfl)
  have h9 := h8.next (.call _ "mail" (.enqueue { sampleJob with jobId := "k" }, ⟨2, 0⟩) id rfl)
  have h10 := h9.next (.call _ "mail" (.enqueue { sampleJob with jobId := "l" }, ⟨2, 0⟩) id rfl)
  have h11 := h10.next (.claim _ () _ (List.mem_singleton_self _) 0 _ rfl _ rfl 3 rfl ⟨3, 0⟩)
  obtain ⟨hfences, -, hwithin⟩ := a_fleet_holds_its_limits id (fun _ => sampleLimited) h11
  refine ⟨_, ⟨_, List.mem_singleton_self _, by decide +kernel⟩,
    hfences () _ (List.mem_singleton_self _) ?_ ("mail", _) (List.mem_singleton_self _),
    by decide +kernel, by decide +kernel, hwithin "mail" 2 fun k d hd _ => ?_⟩
  · exact List.ne_nil_of_length_pos (by decide +kernel)
  · obtain rfl := List.mem_singleton.mp hd
    exact ⟨_, rfl, Nat.le_refl 2⟩

end Panqueue
