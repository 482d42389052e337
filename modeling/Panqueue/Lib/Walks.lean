-- Walks in a graph that is given by the list of the successors of each node.
import Mathlib.Data.Nat.Notation
import Mathlib.Tactic.ByContra

/-- A walk of `n` edges from one node to another. -/
inductive Walk {V : Type} (next : V → List V) : ℕ → V → V → Prop
  | refl (v : V) : Walk next 0 v v
  | step {n : ℕ} {u v w : V} : v ∈ next u → Walk next n v w → Walk next (n + 1) u w

namespace Walk

variable {V : Type} {next : V → List V} {u v w : V} {m n : ℕ}

theorem single (h : v ∈ next u) : Walk next 1 u v := step h (refl v)

theorem trans (h : Walk next m u v) (h' : Walk next n v w) : Walk next (m + n) u w := by
  induction h with
  | refl v => rwa [Nat.zero_add]
  | step hedge _ ih =>
    rw [Nat.add_right_comm]
    exact step hedge (ih h')

/-- One more edge at the end. -/
theorem snoc (h : Walk next n u v) (hedge : w ∈ next v) : Walk next (n + 1) u w :=
  h.trans (single hedge)

/-- A cycle can be walked any number of times. -/
theorem repeated (h : Walk next n v v) (k : ℕ) : Walk next (k * n) v v := by
  induction k with
  | zero =>
    rw [Nat.zero_mul]
    exact refl v
  | succ k ih =>
    rw [Nat.succ_mul]
    exact ih.trans h

/-- Where all walks from a node are bounded, it reaches no cycle. -/
theorem no_cycle {bound : ℕ} (hb : ∀ n w, Walk next n u w → n ≤ bound) (hv : Walk next m u v)
    (hc : Walk next n v v) : n = 0 := by
  by_contra hn
  have hlong := hb _ v (hv.trans (hc.repeated (bound + 1)))
  have hpos : bound + 1 ≤ (bound + 1) * n := Nat.le_mul_of_pos_right _ (Nat.pos_of_ne_zero hn)
  omega

end Walk
