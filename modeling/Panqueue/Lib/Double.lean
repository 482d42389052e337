-- The numbers of Lua and JavaScript: a double is NaN, an infinity, or a
-- finite value. A finite value is a rational, and a sum is exact: the
-- rounding of a double is not in here.
import Mathlib.Algebra.Order.Floor.Semiring
import Mathlib.Data.Rat.Floor
import Mathlib.Algebra.Order.Ring.WithTop

/-- A double that is not NaN: finite, or an infinity. It orders a ZSET. -/
abbrev Score := WithBot (WithTop ℚ)

namespace Score

def ofRat (q : ℚ) : Score := ((q : WithTop ℚ) : WithBot (WithTop ℚ))

def ofNat (n : ℕ) : Score := ofRat n

@[simp] theorem ofRat_le {a b : ℚ} : ofRat a ≤ ofRat b ↔ a ≤ b := by
  simp [ofRat]

@[simp] theorem ofRat_lt {a b : ℚ} : ofRat a < ofRat b ↔ a < b := by
  simp [ofRat]

@[simp] theorem ofRat_inj {a b : ℚ} : ofRat a = ofRat b ↔ a = b := by
  simp [ofRat]

@[simp] theorem ofNat_le {a b : ℕ} : ofNat a ≤ ofNat b ↔ a ≤ b := by
  simp [ofNat]

@[simp] theorem ofNat_lt {a b : ℕ} : ofNat a < ofNat b ↔ a < b := by
  simp [ofNat]

@[simp] theorem ofNat_inj {a b : ℕ} : ofNat a = ofNat b ↔ a = b := by
  simp [ofNat]

end Score

/-- A double. -/
inductive Double
  | nan
  | val (x : Score)
  deriving DecidableEq

namespace Double

def ofRat (q : ℚ) : Double := val (Score.ofRat q)

def ofInt (n : ℤ) : Double := ofRat n

def ofNat (n : ℕ) : Double := ofRat n

/-- `a + n` for a finite `n`: an infinity stays, and NaN stays. -/
def addRat : Double → ℚ → Double
  | nan, _ => nan
  | val x, q => val (x + Score.ofRat q)

/-- `a ≤ b`, false for NaN. -/
instance : LE Double where
  le
    | val x, val y => x ≤ y
    | _, _ => False

/-- `a < b`, false for NaN. -/
instance : LT Double where
  lt
    | val x, val y => x < y
    | _, _ => False

instance : DecidableRel (α := Double) (· ≤ ·)
  | nan, _ => inferInstanceAs (Decidable False)
  | val _, nan => inferInstanceAs (Decidable False)
  | val x, val y => inferInstanceAs (Decidable (x ≤ y))

instance : DecidableRel (α := Double) (· < ·)
  | nan, _ => inferInstanceAs (Decidable False)
  | val _, nan => inferInstanceAs (Decidable False)
  | val x, val y => inferInstanceAs (Decidable (x < y))

/-- `a == b`, false for NaN. -/
def NumEq : Double → Double → Prop
  | val x, val y => x = y
  | _, _ => False

instance : DecidableRel NumEq
  | nan, _ => inferInstanceAs (Decidable False)
  | val _, nan => inferInstanceAs (Decidable False)
  | val x, val y => inferInstanceAs (Decidable (x = y))

/-- The rounds of a loop that counts from 1 up to a finite number. -/
def rounds : Double → ℕ
  | val (some (some q)) => ⌊q⌋.toNat
  | _ => 0

/-- `Number.isFinite`. -/
def isFinite : Double → Bool
  | val (some (some _)) => true
  | _ => false

/-- `Number.isInteger`. -/
def isInteger : Double → Bool
  | val (some (some q)) => q.isInt
  | _ => false

/-- `a - b`: the difference of two infinities of one sign is NaN. -/
def sub : Double → Double → Double
  | val (some (some p)), val (some (some q)) => ofRat (p - q)
  | val (some (some _)), val (some none) => val ⊥
  | val (some (some _)), val none => val ⊤
  | val (some none), val (some none) => nan
  | val (some none), val _ => val ⊤
  | val none, val none => nan
  | val none, val _ => val ⊥
  | _, _ => nan

/-- `Math.max`: NaN wins. -/
def max : Double → Double → Double
  | val x, val y => val (Max.max x y)
  | _, _ => nan

/-- `Math.min`: NaN wins. -/
def min : Double → Double → Double
  | val x, val y => val (Min.min x y)
  | _, _ => nan

@[simp] theorem val_le {x y : Score} : val x ≤ val y ↔ x ≤ y := Iff.rfl

@[simp] theorem val_lt {x y : Score} : val x < val y ↔ x < y := Iff.rfl

@[simp] theorem not_nan_le (d : Double) : ¬ nan ≤ d := id

@[simp] theorem not_nan_lt (d : Double) : ¬ nan < d := id

@[simp] theorem not_le_nan (d : Double) : ¬ d ≤ nan := by cases d <;> exact id

@[simp] theorem not_lt_nan (d : Double) : ¬ d < nan := by cases d <;> exact id

@[simp] theorem ofRat_le {a b : ℚ} : ofRat a ≤ ofRat b ↔ a ≤ b := Score.ofRat_le

@[simp] theorem ofRat_lt {a b : ℚ} : ofRat a < ofRat b ↔ a < b := Score.ofRat_lt

@[simp] theorem ofNat_le {a b : ℕ} : ofNat a ≤ ofNat b ↔ a ≤ b := by simp [ofNat]

@[simp] theorem ofNat_lt {a b : ℕ} : ofNat a < ofNat b ↔ a < b := by simp [ofNat]

@[simp] theorem ofNat_inj {a b : ℕ} : ofNat a = ofNat b ↔ a = b := by
  simp [ofNat, ofRat]

@[simp] theorem numEq_ofNat {a b : ℕ} : (ofNat a).NumEq (ofNat b) ↔ a = b := by
  change Score.ofRat a = Score.ofRat b ↔ a = b
  simp

/-- The four kinds of double. -/
theorem kinds (d : Double) : d = nan ∨ d = val ⊥ ∨ d = val ⊤ ∨ ∃ q : ℚ, d = ofRat q := by
  rcases d with _ | (_ | _ | q)
  · exact Or.inl rfl
  · exact Or.inr (Or.inl rfl)
  · exact Or.inr (Or.inr (Or.inl rfl))
  · exact Or.inr (Or.inr (Or.inr ⟨q, rfl⟩))

theorem ne_nan_of_le {a b : Double} (h : a ≤ b) : b ≠ nan := by
  rintro rfl
  exact not_le_nan a h

/-- A number up to one of two numbers is up to their maximum. -/
theorem le_max {a b c : Double} (hb : b ≠ nan) (hc : c ≠ nan) (h : a ≤ b ∨ a ≤ c) :
    a ≤ b.max c := by
  rcases b with _ | y
  · exact absurd rfl hb
  rcases c with _ | z
  · exact absurd rfl hc
  rcases a with _ | x
  · exact (h.elim (not_nan_le _) (not_nan_le _)).elim
  exact val_le.mpr (le_max_iff.mpr (h.imp val_le.mp val_le.mp))

theorem le_trans {a b c : Double} (h : a ≤ b) (h' : b ≤ c) : a ≤ c := by
  rcases a with _ | a
  · exact absurd h (not_nan_le b)
  rcases b with _ | b
  · exact absurd h' (not_nan_le c)
  rcases c with _ | c
  · exact absurd h' (not_le_nan _)
  exact (val_le.mp h).trans (val_le.mp h')

theorem lt_of_le_of_lt {a b c : Double} (h : a ≤ b) (h' : b < c) : a < c := by
  rcases a with _ | a
  · exact absurd h (not_nan_le b)
  rcases b with _ | b
  · exact absurd h' (not_nan_lt c)
  rcases c with _ | c
  · exact absurd h' (not_lt_nan _)
  exact (val_le.mp h).trans_lt (val_lt.mp h')

theorem lt_irrefl (a : Double) : ¬ a < a := by
  rcases a with _ | a
  · exact not_nan_lt _
  · exact fun h => (val_lt.mp h).false

theorem addRat_zero (a : Double) : a.addRat 0 = a := by
  rcases a with _ | a
  · rfl
  · exact congrArg val (add_zero a)

@[simp] theorem addRat_ofRat (a b : ℚ) : (ofRat a).addRat b = ofRat (a + b) := rfl

@[simp] theorem rounds_ofRat (q : ℚ) : (ofRat q).rounds = ⌊q⌋.toNat := rfl

theorem rounds_le {d : Double} {n : ℕ} (h : d < ofNat n) : d.rounds ≤ n := by
  rcases d with _ | (_ | _ | q)
  · exact absurd h (not_nan_lt _)
  · exact Nat.zero_le n
  · exact Nat.zero_le n
  · have hq : q < n := by
      have h' : ofRat q < ofRat n := h
      simpa using h'
    have hf : ⌊q⌋ ≤ (n : ℤ) := Int.floor_le_iff.mpr (by push_cast; linarith)
    exact Int.toNat_le.mpr hf

end Double
