-- First in, first out: the contents of a buffer, what came in and what left,
-- and the order in which items leave that stand in the buffer together.
import Mathlib.Data.List.Nodup
import Mathlib.Data.List.Basic

namespace Fifo

variable {α : Type}

/-- The buffer held `s`, then `ins` came in at its end and `outs` left at its
front, and now it holds `s'`. The head of a list is its front. -/
def Step (s outs ins s' : List α) : Prop := s ++ ins = outs ++ s'

theorem Step.refl (s : List α) : Step s [] [] s := List.append_nil s

theorem Step.push (s ins : List α) : Step s [] ins (s ++ ins) := rfl

theorem Step.pop (outs s : List α) : Step (outs ++ s) outs [] s := List.append_nil _

theorem Step.trans {s s' s'' outs outs' ins ins' : List α} (h : Step s outs ins s')
    (h' : Step s' outs' ins' s'') : Step s (outs ++ outs') (ins ++ ins') s'' := by
  unfold Step at *
  rw [← List.append_assoc, h, List.append_assoc, h', List.append_assoc]

/-- What has fewer items before it than have left, has left. -/
theorem Step.has_left {s s' outs ins : List α} (h : Step s outs ins s') {k : ℕ} {a : α}
    (hk : s[k]? = some a) (hlt : k < outs.length) : a ∈ outs := by
  unfold Step at h
  have ha : (s ++ ins)[k]? = some a := by
    rw [List.getElem?_append_left (List.getElem?_eq_some_iff.mp hk).1, hk]
  rw [h, List.getElem?_append_left hlt] at ha
  exact List.mem_of_getElem? ha

/-- All that was in a buffer has left it when it is empty. -/
theorem Step.emptied {s outs ins : List α} (h : Step s outs ins []) {a : α} (ha : a ∈ s) :
    a ∈ outs := by
  unfold Step at h
  rw [List.append_nil] at h
  rw [← h]
  exact List.mem_append_left _ ha

variable [DecidableEq α]

/-- The number of arrivals up to the last one of `a`. -/
def lastArrival (arrived : List α) (a : α) : ℕ := arrived.length - arrived.reverse.idxOf a

/-- An item that stands in a part of the log without repetition came last there. -/
theorem lastArrival_append {l m : List α} (hm : m.Nodup) {a : α} (ha : a ∈ m) :
    lastArrival (l ++ m) a = l.length + m.idxOf a + 1 := by
  obtain ⟨pre, post, rfl⟩ := List.append_of_mem ha
  obtain ⟨-, hcons, hdisj⟩ := List.nodup_append.mp hm
  have hpre : a ∉ pre := fun h => hdisj a h a List.mem_cons_self rfl
  have hpost : a ∉ post.reverse := fun h => (List.nodup_cons.mp hcons).1 (List.mem_reverse.mp h)
  have hrev : (l ++ (pre ++ a :: post)).reverse.idxOf a = post.length := by
    simp [List.idxOf_append_of_notMem hpost, List.append_assoc]
  rw [lastArrival, hrev, List.idxOf_append_of_notMem hpre, List.idxOf_cons_self]
  simp only [List.length_append, List.length_cons]
  omega

/-- Of two items that the buffer holds, the one that came earlier stands before the other. -/
theorem lastArrival_lt {l m : List α} (hm : m.Nodup) {a b : α} (ha : a ∈ m) (hb : b ∈ m) :
    lastArrival (l ++ m) a < lastArrival (l ++ m) b ↔ m.idxOf a < m.idxOf b := by
  rw [lastArrival_append hm ha, lastArrival_append hm hb]
  omega

/-- The buffer holds its items in the order of their last arrivals. -/
theorem pairwise_lastArrival {l m : List α} (hm : m.Nodup) :
    m.Pairwise fun a b => lastArrival (l ++ m) a < lastArrival (l ++ m) b := by
  rw [List.pairwise_iff_getElem]
  intro a b ha hb hab
  rw [lastArrival_lt hm (List.getElem_mem ha) (List.getElem_mem hb), hm.idxOf_getElem,
    hm.idxOf_getElem]
  exact hab

/-- Of two items that the buffer holds, the one before the other leaves first. -/
theorem Step.leaves_first {s outs ins s' : List α} (h : Step s outs ins s') {a b : α}
    (hab : s.idxOf a < s.idxOf b) (hbs : b ∈ s) (hb : b ∈ outs) : outs.idxOf a < outs.idxOf b := by
  have ha : a ∈ s :=
    List.idxOf_lt_length_iff.mp (Nat.lt_trans hab (List.idxOf_lt_length_of_mem hbs))
  have hba : outs.idxOf b = s.idxOf b := by
    rw [← List.idxOf_append_of_mem hb, ← h, List.idxOf_append_of_mem hbs]
  have hlt := List.idxOf_lt_length_of_mem hb
  have hidx : (outs ++ s').idxOf a = s.idxOf a := by
    rw [← h, List.idxOf_append_of_mem ha]
  by_cases hao : a ∈ outs
  · rw [List.idxOf_append_of_mem hao] at hidx
    omega
  · rw [List.idxOf_append_of_notMem hao] at hidx
    omega

end Fifo
