-- What the scripts do to the queue as a claimer sees it: the waiting list,
-- the active set, the stored limit and the notify channel. From a queue whose
-- job keys can be read, no script but a claim stops halfway.
import Panqueue.Runs

namespace Panqueue

variable {q q' q'' : Queue} {i : String} {s : FinalStatus}

/-! ## Readable job keys -/

/-- The counters of a hash are integers, or absent. -/
structure JobHash.Counts (h : JobHash) : Prop where
  runs : ∀ v ∈ h.runs, ∃ n, v = .int n
  failures : ∀ v ∈ h.failures, ∃ n, v = .int n
  stalls : ∀ v ∈ h.stalls, ∃ n, v = .int n

/-- Every job key is a hash, and its counters are integers. -/
def Queue.Readable (q : Queue) : Prop := ∀ i v, q.jobs i = some v → ∃ h, v = .hash h ∧ h.Counts

theorem JobHash.counts_empty : JobHash.Counts {} := by
  constructor <;> simp

theorem Queue.readable_empty : Queue.Readable {} := by
  intro i v h
  cases h

theorem Queue.Readable.setHash (hq : q.Readable) {h : JobHash} (hh : h.Counts) :
    (q.setHash i h).Readable := by
  intro k v hv
  by_cases hk : k = i
  · subst hk
    simp only [Queue.setHash_jobs, Function.update_self, Option.some.injEq] at hv
    exact ⟨h, hv.symm, hh⟩
  · rw [Queue.setHash_jobs, Function.update_of_ne hk] at hv
    exact hq k v hv

theorem Queue.Readable.del (hq : q.Readable) : (q.setJob i none).Readable := by
  intro k v hv
  by_cases hk : k = i
  · simp [hk] at hv
  · rw [Queue.setJob_jobs, Function.update_of_ne hk] at hv
    exact hq k v hv

/-! ## Commands that the claimers do not see -/

/-- The claimers see no difference. -/
structure SameFlow (q q' : Queue) : Prop where
  waiting : q'.waiting = q.waiting
  active : q'.active = q.active
  concurrency : q'.concurrency = q.concurrency
  notify : q'.notify = q.notify

theorem SameFlow.refl (q : Queue) : SameFlow q q := ⟨rfl, rfl, rfl, rfl⟩

theorem SameFlow.trans (h : SameFlow q q') (h' : SameFlow q' q'') : SameFlow q q'' :=
  ⟨h'.waiting.trans h.waiting, h'.active.trans h.active, h'.concurrency.trans h.concurrency,
    h'.notify.trans h.notify⟩

/-- A script that succeeds, and that the claimers do not see. -/
abbrev Unseen {α : Type} (x : QueueScript α) : Prop := Script.Does Queue.Readable SameFlow x

namespace Unseen

variable {α β : Type}

theorem pure (a : α) : Unseen (Pure.pure a) := Script.Does.pure a SameFlow.refl

theorem bind {x : QueueScript α} {f : α → QueueScript β} (hx : Unseen x)
    (hf : ∀ a, Unseen (f a)) : Unseen (x >>= f) :=
  Script.Does.seq hx hf fun _ _ _ => SameFlow.trans

theorem keyExists (i : String) : Unseen (Redis.keyExists i) := fun q hq =>
  ⟨_, q, rfl, hq, SameFlow.refl q⟩

theorem del (i : String) : Unseen (Redis.del i) := fun _ hq =>
  ⟨_, _, rfl, hq.del, ⟨rfl, rfl, rfl, rfl⟩⟩

theorem hget (i : String) (get : JobHash → Option β) : Unseen (Redis.commands.hget i get) := by
  intro q hq
  rcases hk : q.jobs i with _ | v
  · exact ⟨none, q, by simp only [Redis.hget, hk], hq, SameFlow.refl q⟩
  · obtain ⟨h, rfl, _⟩ := hq i v hk
    exact ⟨get h, q, by simp only [Redis.hget, hk], hq, SameFlow.refl q⟩

theorem hgetall (i : String) : Unseen (Redis.hgetall i) := by
  intro q hq
  rcases hk : q.jobs i with _ | v
  · exact ⟨{}, q, by rw [Redis.hgetall, hk], hq, SameFlow.refl q⟩
  · obtain ⟨h, rfl, _⟩ := hq i v hk
    exact ⟨h, q, by rw [Redis.hgetall, hk], hq, SameFlow.refl q⟩

/-- A write that leaves the counters integers. -/
theorem hset (i : String) {put : JobHash → JobHash}
    (hput : ∀ h, h.Counts → (put h).Counts) : Unseen (Redis.commands.hset i put) := by
  intro q hq
  rcases hk : q.jobs i with _ | v
  · exact ⟨(), q.setHash i (put {}), by simp only [Redis.hset, hk],
      hq.setHash (hput _ JobHash.counts_empty), ⟨rfl, rfl, rfl, rfl⟩⟩
  · obtain ⟨h, rfl, hh⟩ := hq i v hk
    exact ⟨(), q.setHash i (put h), by simp only [Redis.hset, hk], hq.setHash (hput h hh),
      ⟨rfl, rfl, rfl, rfl⟩⟩

theorem hsetnxId (i : String) : Unseen (Redis.hsetnxId i) := by
  intro q hq
  rcases hk : q.jobs i with _ | v
  · refine ⟨true, _, by rw [Redis.hsetnxId, hk], hq.setHash ?_, ⟨rfl, rfl, rfl, rfl⟩⟩
    constructor <;> simp
  · obtain ⟨h, rfl, hh⟩ := hq i v hk
    by_cases hid : h.id.isSome
    · exact ⟨false, q, by simp [Redis.hsetnxId, hk, hid], hq, SameFlow.refl q⟩
    · exact ⟨true, q.setHash i { h with id := some i }, by simp [Redis.hsetnxId, hk, hid],
        hq.setHash ⟨hh.runs, hh.failures, hh.stalls⟩, ⟨rfl, rfl, rfl, rfl⟩⟩

theorem hdelLease (i : String) : Unseen (Redis.hdelLease i) := by
  intro q hq
  rcases hk : q.jobs i with _ | v
  · exact ⟨(), q, by rw [Redis.hdelLease, hk], hq, SameFlow.refl q⟩
  · obtain ⟨h, rfl, hh⟩ := hq i v hk
    refine ⟨(), _, by rw [Redis.hdelLease, hk], ?_, ?_⟩
    · split
      · exact hq.del
      · exact hq.setHash ⟨hh.runs, hh.failures, hh.stalls⟩
    · split
      · exact ⟨rfl, rfl, rfl, rfl⟩
      · exact ⟨rfl, rfl, rfl, rfl⟩

/-- An increment of a counter. -/
theorem hincrby (i : String) {get : JobHash → Option Numeral}
    {put : Numeral → JobHash → JobHash} (hget : ∀ h, h.Counts → ∀ v ∈ get h, ∃ n, v = .int n)
    (hput : ∀ n h, h.Counts → (put (.int n) h).Counts) :
    Unseen (Redis.commands.hincrby i get put) := by
  intro q hq
  rcases hk : q.jobs i with _ | v
  · exact ⟨1, q.setHash i (put (.int 1) {}), by simp only [Redis.hincrbyOf, hk],
      hq.setHash (hput 1 _ JobHash.counts_empty), ⟨rfl, rfl, rfl, rfl⟩⟩
  · obtain ⟨h, rfl, hh⟩ := hq i v hk
    rcases hg : get h with _ | w
    · exact ⟨1, q.setHash i (put (.int 1) h), by simp only [Redis.hincrbyOf, hk, hg],
        hq.setHash (hput 1 h hh), ⟨rfl, rfl, rfl, rfl⟩⟩
    · obtain ⟨n, rfl⟩ := hget h hh w hg
      exact ⟨n + 1, q.setHash i (put (.int (n + 1)) h),
        by simp only [Redis.hincrbyOf, Counters.next, hk, hg],
        hq.setHash (hput (n + 1) h hh), ⟨rfl, rfl, rfl, rfl⟩⟩

/-- A script that reads, and leaves the queue as it is. -/
theorem read {x : QueueScript α} (h : ∀ q, ∃ a, x q = .ok a q) : Unseen x := by
  intro q hq
  obtain ⟨a, ha⟩ := h q
  exact ⟨a, q, ha, hq, SameFlow.refl q⟩

/-- A finished index is written, and nothing else. -/
theorem index {x : QueueScript α} (h : ∀ q, ∃ a z, x q = .ok a (q.setIndex z s)) : Unseen x := by
  intro q hq
  obtain ⟨a, z, hz⟩ := h q
  refine ⟨a, _, hz, ?_, ?_⟩
  · intro k v hv
    rw [Queue.setIndex_jobs] at hv
    exact hq k v hv
  · constructor <;> simp

theorem zrangebyscoreIndex (s : FinalStatus) (lo hi : Score) :
    Unseen (Redis.zrangebyscoreIndex s lo hi) := read fun _ => ⟨_, rfl⟩

theorem zrangeIndex (s : FinalStatus) (k : ℕ) : Unseen (Redis.zrangeIndex s k) :=
  read fun _ => ⟨_, rfl⟩

theorem zcardIndex (s : FinalStatus) : Unseen (Redis.zcardIndex s) := read fun _ => ⟨_, rfl⟩

theorem zaddIndex (s : FinalStatus) (d : Score) (i : String) : Unseen (Redis.zaddIndex s d i) :=
  index fun _ => ⟨_, _, rfl⟩

theorem zremrangebyscoreIndex (s : FinalStatus) (lo hi : Score) :
    Unseen (Redis.zremrangebyscoreIndex s lo hi) := index fun _ => ⟨_, _, rfl⟩

theorem zremrangebyrankIndex (s : FinalStatus) (k : ℕ) :
    Unseen (Redis.zremrangebyrankIndex s k) := index fun _ => ⟨_, _, rfl⟩

theorem forEach_del (ids : List String) : Unseen (Script.forEach ids Redis.del) :=
  Script.Does.forEach del SameFlow.refl (fun _ _ _ => SameFlow.trans) ids

/-! ## Retention -/

theorem trimByTtl (s : FinalStatus) (ttl : ℤ) (now : ℕ) : Unseen (trimByTtl s ttl now) := by
  refine Script.Does.ite (fun _ => ?_) fun _ => pure ()
  apply bind (zrangebyscoreIndex s _ _)
  intro ids
  apply bind (forEach_del ids)
  intro _
  exact zremrangebyscoreIndex s _ _

theorem trimByCount (s : FinalStatus) (count : ℤ) : Unseen (trimByCount s count) := by
  refine Script.Does.ite (fun _ => ?_) fun _ => pure ()
  apply bind (zcardIndex s)
  intro card
  refine Script.Does.ite (fun _ => ?_) fun _ => pure ()
  apply bind (zrangeIndex s _)
  intro ids
  apply bind (forEach_del ids)
  intro _
  exact zremrangebyrankIndex s _

/-- Retention is nothing to the claimers. -/
theorem retentionLua (s : FinalStatus) (r : ResolvedRetention) (now : ℕ) (i : String) :
    Unseen (retentionLua s r now i) := by
  refine Script.Does.ite (fun _ => del i) fun _ => ?_
  refine bind (hset i fun h hh => ⟨hh.runs, hh.failures, hh.stalls⟩) fun _ => ?_
  apply bind (zaddIndex s _ i)
  intro _
  refine Script.Does.ite (fun _ => ?_) fun _ => pure ()
  exact bind (trimByTtl s r.ttl now) fun _ => trimByCount s r.count

end Unseen

/-! ## Freed permits and their messages -/

/-- A job waits, and no limit is stored or the limit exceeds the active jobs. -/
def Queue.Claimable (q : Queue) : Prop :=
  q.waiting ≠ [] ∧ ∀ limit ∈ q.limit, .ofNat q.active.card < limit

instance (q : Queue) : Decidable q.Claimable := instDecidableAnd

/-- Jobs leave the active set, and the rest of the flow stands. -/
structure Loosens (q q' : Queue) : Prop where
  waiting : q'.waiting = q.waiting
  active : q'.active.card ≤ q.active.card
  concurrency : q'.concurrency = q.concurrency
  notify : q'.notify = q.notify

theorem SameFlow.loosens (h : SameFlow q q') : Loosens q q' :=
  ⟨h.waiting, by rw [h.active], h.concurrency, h.notify⟩

theorem Loosens.trans (h : Loosens q q') (h' : Loosens q' q'') : Loosens q q'' :=
  ⟨h'.waiting.trans h.waiting, h'.active.trans h.active, h'.concurrency.trans h.concurrency,
    h'.notify.trans h.notify⟩

/-- The active set does not grow, and a queue that becomes claimable is announced. -/
structure Frees (q q' : Queue) : Prop where
  concurrency : q'.concurrency = q.concurrency
  active : q'.active.card ≤ q.active.card
  notify : ∃ new, q'.notify = q.notify ++ new ∧ (new = [] → q'.Claimable → q.Claimable)

theorem limit_congr (h : q'.concurrency = q.concurrency) : q'.limit = q.limit := by
  rw [Queue.limit, h, Queue.limit]

/-- With the waiting list and the active set as they were, the queue is claimable as it was. -/
theorem SameFlow.claimable (h : SameFlow q q') : q'.Claimable ↔ q.Claimable := by
  unfold Queue.Claimable
  rw [h.waiting, h.active, limit_congr h.concurrency]

theorem SameFlow.frees (h : SameFlow q q') : Frees q q' :=
  ⟨h.concurrency, by rw [h.active], [], by rw [h.notify, List.append_nil],
    fun _ => h.claimable.mp⟩

theorem Frees.refl (q : Queue) : Frees q q := (SameFlow.refl q).frees

theorem Frees.trans (h : Frees q q') (h' : Frees q' q'') : Frees q q'' := by
  obtain ⟨new, hn, hc⟩ := h.notify
  obtain ⟨new', hn', hc'⟩ := h'.notify
  refine ⟨h'.concurrency.trans h.concurrency, h'.active.trans h.active, new ++ new', ?_, ?_⟩
  · rw [hn', hn, List.append_assoc]
  · intro he hq
    obtain ⟨he1, he2⟩ := List.append_eq_nil_iff.mp he
    exact hc he1 (hc' he2 hq)

/-- A script that finds a readable queue succeeds on it and frees. -/
abbrev Freeing {α : Type} (x : QueueScript α) : Prop := Script.Does Queue.Readable Frees x

section scripts

variable {α : Type}

theorem Unseen.loosens {x : QueueScript α} (h : Unseen x) :
    Script.Does Queue.Readable Loosens x := h.mono fun _ _ => SameFlow.loosens

theorem Unseen.frees {x : QueueScript α} (h : Unseen x) : Freeing x :=
  h.mono fun _ _ => SameFlow.frees

theorem zremActive_loosens (i : String) :
    Script.Does Queue.Readable Loosens (Redis.zremActive i) := fun q hq =>
  ⟨_, _, rfl, hq, rfl, SortedSet.card_remove_le q.active i, rfl, rfl⟩

/-- What `publishFreed` does: with a limit and a waiting job there is a message. -/
def Tells (limited : Bool) (q q' : Queue) : Prop :=
  ∃ new, q' = { q with notify := q.notify ++ new } ∧
    (new = [] → limited = true → q.waiting = [])

theorem publishFreed_tells (limited : Bool) (i : String) :
    Script.Does Queue.Readable (Tells limited) (publishFreed limited i) := by
  intro q hq
  by_cases h : limited = true ∧ 0 < q.waiting.length
  · refine ⟨(), q.publish i, ?_, hq, [i], rfl, by simp⟩
    simp only [publishFreed, Lua.publishFreed, Script.run_bind, Redis.llen, if_pos h, Redis.publish]
  · refine ⟨(), q, ?_, hq, [], by simp, ?_⟩
    · simp only [publishFreed, Lua.publishFreed, Script.run_bind, Redis.llen, if_neg h,
        Script.run_pure]
    · intro _ hl
      have h0 : ¬ 0 < q.waiting.length := fun hw => h ⟨hl, hw⟩
      simpa using h0

/-- Permits are freed, then `publishFreed` decides with the limit of this queue. -/
theorem Loosens.tells {limited : Bool} (h : Loosens q q') (h' : Tells limited q' q'')
    (hl : limited = q.limit.isSome) : Frees q q'' := by
  obtain ⟨new, rfl, hn⟩ := h'
  refine ⟨h.concurrency, h.active, new, by rw [h.notify], ?_⟩
  rintro he ⟨hw, hlim⟩
  refine ⟨h.waiting ▸ hw, ?_⟩
  intro limit hs
  have hsome : q.limit = some limit := hs
  exact absurd (hn he (by rw [hl, hsome, Option.isSome_some])) hw

theorem Freeing.bind {β : Type} {x : QueueScript α} {f : α → QueueScript β} (hx : Freeing x)
    (hf : ∀ a, Freeing (f a)) : Freeing (x >>= f) :=
  Script.Does.seq hx hf fun _ _ _ => Frees.trans

/-- What the rest of a script does after permits were freed, when `limited`
tells whether a limit is stored. -/
def Closes (limited : Bool) (q q' : Queue) : Prop :=
  limited = q.limit.isSome → ∀ p, Loosens p q → Frees p q'

abbrev Closing (limited : Bool) (x : QueueScript α) : Prop :=
  Script.Does Queue.Readable (Closes limited) x

/-- Between the freed permit and its message, the rest of the flow stands. -/
theorem Closing.after {β : Type} {limited : Bool} {x : QueueScript α} {f : α → QueueScript β}
    (hx : Script.Does Queue.Readable Loosens x) (hf : ∀ a, Closing limited (f a)) :
    Closing limited (x >>= f) := by
  apply Script.Does.seq hx hf
  intro q q' q'' h hc hl p hp
  exact hc (by rw [hl, limit_congr h.concurrency]) p (hp.trans h)

/-- A message may be followed by reads and hash writes. -/
theorem Closing.before {β : Type} {limited : Bool} {x : QueueScript α} {f : α → QueueScript β}
    (hx : Closing limited x) (hf : ∀ a, Unseen (f a)) : Closing limited (x >>= f) := by
  apply Script.Does.seq hx hf
  intro q q' q'' hc h hl p hp
  exact (hc hl p hp).trans h.frees

theorem closing_publishFreed (limited : Bool) (i : String) :
    Closing limited (publishFreed limited i) := by
  apply (publishFreed_tells limited i).mono
  intro q q' ht hl p hp
  exact hp.tells ht (by rw [hl, limit_congr hp.concurrency])

/-- The end of `complete` and of a terminal `fail`: the limit is read just before it is used. -/
theorem closing_freed (limited : Bool) (i : String) (r : α) :
    Closing limited
      (do
        let limit ← Redis.hgetLimit
        publishFreed limit.isSome i
        pure r) := by
  intro q hq
  obtain ⟨u, q', hrun, hq', hc⟩ := closing_publishFreed q.limit.isSome i q hq
  refine ⟨r, q', ?_, hq', fun _ => hc rfl⟩
  simp only [Script.run_bind, Redis.hgetLimit, hrun, Script.run_pure]

/-- A job is pushed to the waiting list, and announced. -/
theorem closing_push (limited : Bool) (i : String) {rest : QueueScript α} (hrest : Unseen rest) :
    Closing limited
      (do
        Redis.lpush i
        Redis.publish i
        rest) := by
  intro q hq
  obtain ⟨r, q', hrun, hq', hs⟩ := hrest ((q.setWaiting (i :: q.waiting)).publish i) hq
  refine ⟨r, q', hrun, hq', fun _ p hp => ?_⟩
  have hpush : Frees p ((q.setWaiting (i :: q.waiting)).publish i) := by
    refine ⟨hp.concurrency, hp.active, [i], ?_, by simp⟩
    rw [← hp.notify]
    rfl
  exact hpush.trans hs.frees

/-- A write to the hash keeps the counters, and is nothing to the claimers. -/
theorem Closing.hset {limited : Bool} (i : String) {put : JobHash → JobHash}
    {rest : Unit → QueueScript α} (hput : ∀ h, h.Counts → (put h).Counts)
    (hrest : ∀ a, Closing limited (rest a)) :
    Closing limited (Redis.commands.hset i put >>= rest) :=
  Closing.after (Unseen.hset i hput).loosens hrest

theorem Loosens.refl (q : Queue) : Loosens q q := (SameFlow.refl q).loosens

/-- A script that closes whatever the limit is frees on its own. -/
theorem Closing.freeing {x : QueueScript α} (h : ∀ limited, Closing limited x) : Freeing x := by
  intro q hq
  obtain ⟨a, q', hrun, hq', hc⟩ := h q.limit.isSome q hq
  exact ⟨a, q', hrun, hq', hc rfl q (Loosens.refl q)⟩

end scripts

end Panqueue
