-- The rules for showing that a script moves jobs along the steps of the
-- ledger: what each update shows of a job, and how moves compose.
import Panqueue.Ledger

namespace Panqueue

/-! ## One place for each sight -/

/-- The hash of a job tells all of the job. -/
theorem Job.hash_inj {i : String} {j j' : Job} {s s' : JobStatus}
    (h : j.hash i s = j'.hash i s') : j = j' ∧ s = s' := by
  have hmap := Option.map_injective (f := Numeral.ofNat) fun _ _ => Numeral.ofNat_inj.mp
  simp only [Job.hash, JobHash.mk.injEq, Option.some.injEq, Numeral.int.injEq, Nat.cast_inj,
    Numeral.ofDouble_inj, hmap.eq_iff] at h
  cases j
  cases j'
  simp_all

/-- A hash without the fields of a place. -/
def JobHash.bare (h : JobHash) : JobHash :=
  { h with lockToken := none, leaseDeadline := none, finishedAt := none }

def Place.job : Place → Option Job
  | gone => none
  | waiting j => some j
  | active j _ _ => some j
  | finished _ j _ => some j

def Place.status : Place → JobStatus
  | gone => .delayed
  | waiting _ => .waiting
  | active _ _ _ => .active
  | finished s _ _ => s.status

theorem Place.bare_hash (i : String) (p : Place) :
    (p.hash i).map JobHash.bare = p.job.map fun j => j.hash i p.status := by
  cases p <;> rfl

@[simp] theorem FinalStatus.status_inj {s s' : FinalStatus} : s.status = s'.status ↔ s = s' := by
  cases s <;> cases s' <;> decide

/-- A queue shows a job at one place only. -/
theorem Place.hash_inj {i : String} {p p' : Place} (h : p.hash i = p'.hash i) : p = p' := by
  have hb := congrArg (Option.map JobHash.bare) h
  rw [bare_hash, bare_hash] at hb
  cases p <;> cases p' <;>
    simp only [job, status, Option.map_none, Option.map_some, Option.some.injEq, reduceCtorEq]
      at hb ⊢
  all_goals
    obtain ⟨rfl, hs⟩ := Job.hash_inj hb
    simp only [Place.hash, Option.some.injEq, JobHash.mk.injEq] at h
    simp_all [Job.hash]


theorem At.unique {q : Queue} {i : String} {p p' : Place} (h : At q i p) (h' : At q i p') :
    p = p' := by
  have hk : (p.hash i).map JobKey.hash = (p'.hash i).map JobKey.hash :=
    congrArg Sight.key (h.symm.trans h')
  refine Place.hash_inj (i := i) (Option.map_injective (fun _ _ he => ?_) hk)
  cases he
  rfl

/-! ## What an update shows -/

namespace Sight

@[simps] def setKey (x : Sight) (v : Option JobKey) : Sight := { x with key := v }

@[simps] def setWaits (x : Sight) (n : ℕ) : Sight := { x with waits := n }

@[simps] def setLease (x : Sight) (d : Option Score) : Sight := { x with lease := d }

@[simps] def setFinished (x : Sight) (s : FinalStatus) (d : Option Score) : Sight :=
  { x with finishedAt := Function.update x.finishedAt s d }

end Sight

namespace Queue

variable (q : Queue) {i k : String} (v : Option JobKey) (h : JobHash) (l : List String)
  (z : SortedSet Score String) (s : FinalStatus)

@[simp] theorem sight_setJob_self : (q.setJob i v).sight i = (q.sight i).setKey v := by
  simp only [sight, Sight.setKey, setJob, Function.update_self]
  congr 1

@[simp] theorem sight_setJob_ne (hk : k ≠ i) : (q.setJob i v).sight k = q.sight k := by
  simp only [sight, setJob, Function.update_of_ne hk]
  congr 1

@[simp] theorem sight_setHash_self :
    (q.setHash i h).sight i = (q.sight i).setKey (some (.hash h)) := sight_setJob_self q _

@[simp] theorem sight_setHash_ne (hk : k ≠ i) : (q.setHash i h).sight k = q.sight k :=
  sight_setJob_ne q _ hk

@[simp] theorem sight_setActive : (q.setActive z).sight i = (q.sight i).setLease (z.score i) := rfl

@[simp] theorem sight_setWaiting : (q.setWaiting l).sight i = (q.sight i).setWaits (l.count i) :=
  rfl

@[simp] theorem sight_setIndex :
    (q.setIndex z s).sight i = (q.sight i).setFinished s (z.score i) := by
  simp only [sight, Sight.setFinished, setIndex_jobs, setIndex_waiting, setIndex_active,
    setIndex_index]
  congr 1
  funext s'
  by_cases hs : s' = s
  · simp [hs]
  · simp [hs]

end Queue

/-! ## What a place says of the queue -/

namespace At

variable {q : Queue} {i : String} {p : Place}

theorem key (h : At q i p) : q.jobs i = (p.hash i).map .hash := congrArg Sight.key h

theorem waits (h : At q i p) : q.waiting.count i = (p.sight i).waits := congrArg Sight.waits h

theorem lease (h : At q i p) : q.active.score i = (p.sight i).lease := congrArg Sight.lease h

theorem index (h : At q i p) (s : FinalStatus) :
    (q.index s).score i = (p.sight i).finishedAt s := congrFun (congrArg Sight.finishedAt h) s

theorem of_sight {q' : Queue} (h : At q i p) (hs : q'.sight i = q.sight i) : At q' i p :=
  hs.trans h

end At

/-! ## Moves -/

/-- Each job moves from its place in `q` to a place in `q'`, in steps that show its acts. -/
def Moves (sha1hex : String → String) (acts : String → List Act) (q q' : Queue) : Prop :=
  ∀ i p, At q i p → ∃ p', At q' i p' ∧ Reaches (JobStep (issued sha1hex i)) p (acts i) p'

namespace Moves

variable {sha1hex : String → String} {acts acts' : String → List Act} {q q' q'' : Queue}

theorem refl (q : Queue) : Moves sha1hex (fun _ => []) q q := fun _ p hp => ⟨p, hp, .start⟩

theorem trans (h : Moves sha1hex acts q q') (h' : Moves sha1hex acts' q' q'') :
    Moves sha1hex (fun i => acts i ++ acts' i) q q'' := by
  intro i p hp
  obtain ⟨p', hp', hs⟩ := h i p hp
  obtain ⟨p'', hp'', hs'⟩ := h' i p' hp'
  exact ⟨p'', hp'', hs.trans hs'⟩

theorem congr (h : Moves sha1hex acts q q') (he : ∀ i, acts i = acts' i) :
    Moves sha1hex acts' q q' := funext he ▸ h

theorem sound (h : Moves sha1hex acts q q') (hq : Sound q) : Sound q' := by
  intro i
  obtain ⟨p, hp⟩ := hq i
  obtain ⟨p', hp', _⟩ := h i p hp
  exact ⟨p', hp'⟩

/-- Nothing about any job changed. -/
theorem of_sight (h : ∀ i, q'.sight i = q.sight i) : Moves sha1hex (fun _ => []) q q' :=
  fun i p hp => ⟨p, hp.of_sight (h i), .start⟩

/-- One job moves, and the others stay. -/
theorem one {i : String} {p p' : Place} {es : List Act} (hp : At q i p) (hp' : At q' i p')
    (hs : Reaches (JobStep (issued sha1hex i)) p es p') (hne : ∀ k ≠ i, q'.sight k = q.sight k) :
    Moves sha1hex (fun k => if i = k then es else []) q q' := by
  intro k r hr
  by_cases hk : k = i
  · subst hk
    cases hp.unique hr
    exact ⟨p', hp', by simpa using hs⟩
  · refine ⟨r, hr.of_sight (hne k hk), ?_⟩
    simpa [Ne.symm hk] using Reaches.start

end Moves

end Panqueue
