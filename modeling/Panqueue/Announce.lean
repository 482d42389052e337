-- Announcements: a script that makes the queue claimable publishes a message,
-- except a declaration that raises the limit of a saturated queue.
import Panqueue.Limit

namespace Panqueue

variable (sha1hex : String → String) {q q' : Queue}

/-- Some messages were published between two states of the queue. -/
def Announced (q q' : Queue) : Prop := ∃ i new, q'.notify = q.notify ++ i :: new

/-- What an announcing script owes: a queue that becomes claimable is announced. -/
def Announces (q q' : Queue) : Prop := ¬ q.Claimable → q'.Claimable → Announced q q'

theorem Frees.announces (h : Frees q q') : Announces q q' := by
  intro hq hq'
  obtain ⟨new, hn, hc⟩ := h.notify
  cases new with
  | nil => exact absurd (hc rfl hq') hq
  | cons i new => exact ⟨i, new, hn⟩

theorem Takes.announces {n : ℕ} (h : Takes n q q') : Announces q q' := fun hq hq' =>
  absurd (h.claimable hq') hq

theorem not_announced_of_notify (h : q'.notify = q.notify) : ¬ Announced q q' := by
  rintro ⟨i, new, hn⟩
  rw [h] at hn
  simp at hn

/-- A declaration that will be stored, with a limit above the active jobs, on a
queue where jobs wait that the stored limit holds back. -/
def Call.RaisesSilently (q : Queue) : Call → Prop
  | .declareConcurrencyLimit a =>
    a.Newer q ∧ q.waiting ≠ [] ∧ ¬ q.Claimable ∧ .ofNat q.active.card < a.limit
  | _ => False

/-- After a stored declaration, the queue is claimable by the declared limit. -/
theorem claimable_declared (a : DeclareConcurrencyLimitArgs) (q : Queue) :
    Queue.Claimable { q with concurrency := a.declared } ↔
      q.waiting ≠ [] ∧ .ofNat q.active.card < a.limit := by
  unfold Queue.Claimable
  rw [declared_limit]
  simp

theorem declare_announces_iff (a : DeclareConcurrencyLimitArgs) (t : RedisTime) (q : Queue) :
    Announces q (exec sha1hex (.declareConcurrencyLimit a, t) q).2 ↔
      ¬ (Call.declareConcurrencyLimit a).RaisesSilently q := by
  simp only [exec, Lua.exec, runScript_after]
  rcases declare_after a q with ⟨hn, he⟩ | ⟨hn, he⟩
  · rw [he]
    constructor
    · rintro h ⟨_, hw, hc, hlt⟩
      exact not_announced_of_notify rfl (h hc ((claimable_declared a q).mpr ⟨hw, hlt⟩))
    · intro h hc hc'
      obtain ⟨hw, hlt⟩ := (claimable_declared a q).mp hc'
      exact absurd ⟨hn, hw, hc, hlt⟩ h
  · rw [he]
    constructor
    · rintro - ⟨hn', _⟩
      exact hn hn'
    · intro _ hc hc'
      exact absurd hc' hc

/-- A call announces the queue that it makes claimable, unless it is a
declaration that lifts the limit off waiting jobs: that script has no PUBLISH. -/
theorem calls_announce_unless_a_limit_is_raised (ops : List (Call × RedisTime))
    (op : Call × RedisTime) :
    Announces (run sha1hex ops) (exec sha1hex op (run sha1hex ops)).2 ↔
      ¬ op.1.RaisesSilently (run sha1hex ops) := by
  have hf := (exec_flow sha1hex op (readable_run sha1hex ops)).2
  obtain ⟨call, t⟩ := op
  cases call with
  | declareConcurrencyLimit a => exact declare_announces_iff sha1hex a t _
  | claimGlobalBatch a => exact iff_of_true (Takes.announces hf) id
  | _ => exact iff_of_true (Frees.announces hf) id

/-- A second permit for a queue with one active and one waiting job is not announced. -/
theorem raised_limit_is_silent :
    ¬ Announces (run id sampleSaturated)
      (exec id (.declareConcurrencyLimit ⟨.ofNat 2, .ofNat 2⟩, ⟨1, 0⟩)
        (run id sampleSaturated)).2 := by
  intro h
  exact not_announced_of_notify (by decide +kernel) (h (by decide +kernel) (by decide +kernel))

end Panqueue
