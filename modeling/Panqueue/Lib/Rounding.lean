-- The rounding of doubles: 53 binary digits, to the nearest, and of two nearest
-- to the even one. A sum that is too great is an infinity.
import Mathlib.Algebra.Order.Field.Power
import Mathlib.Data.Int.Log
import Mathlib.Tactic.Linarith
import Panqueue.Lib.Double

/-! ## The nearest integer -/

/-- The nearest integer, and of two nearest the even one. -/
def nearest (x : ℚ) : ℤ :=
  if x - ⌊x⌋ < 1 / 2 ∨ x - ⌊x⌋ = 1 / 2 ∧ 2 ∣ ⌊x⌋ then ⌊x⌋ else ⌊x⌋ + 1

theorem floor_le_nearest (x : ℚ) : ⌊x⌋ ≤ nearest x := by
  unfold nearest
  split
  · exact le_refl _
  · omega

theorem nearest_le_floor_add_one (x : ℚ) : nearest x ≤ ⌊x⌋ + 1 := by
  unfold nearest
  split
  · omega
  · exact le_refl _

theorem nearest_intCast (n : ℤ) : nearest n = n := by
  unfold nearest
  rw [Int.floor_intCast, if_pos (Or.inl (by norm_num))]

theorem nearest_mono {x y : ℚ} (h : x ≤ y) : nearest x ≤ nearest y := by
  rcases (Int.floor_mono h).lt_or_eq with hlt | heq
  · calc nearest x ≤ ⌊x⌋ + 1 := nearest_le_floor_add_one x
      _ ≤ ⌊y⌋ := hlt
      _ ≤ nearest y := floor_le_nearest y
  · by_cases hy : y - ⌊y⌋ < 1 / 2 ∨ y - ⌊y⌋ = 1 / 2 ∧ 2 ∣ ⌊y⌋
    · have hx : x - ⌊x⌋ < 1 / 2 ∨ x - ⌊x⌋ = 1 / 2 ∧ 2 ∣ ⌊x⌋ := by
        rw [heq]
        rcases hy with hy | ⟨hy, heven⟩
        · exact Or.inl (by linarith)
        · rcases h.lt_or_eq with hlt | rfl
          · exact Or.inl (by linarith)
          · exact Or.inr ⟨hy, heven⟩
      rw [nearest, if_pos hx, heq]
      exact floor_le_nearest y
    · rw [nearest.eq_1 y, if_neg hy, ← heq]
      exact nearest_le_floor_add_one x

theorem nearest_nonneg {x : ℚ} (h : 0 ≤ x) : 0 ≤ nearest x :=
  (Int.floor_nonneg.mpr h).trans (floor_le_nearest x)

/-! ## Nonnegative numbers -/

/-- The exponent of the last binary digit that a double keeps of `x`. -/
def lastDigit (x : ℚ) : ℤ := max (Int.log 2 x - 52) (-1074)

/-- A nonnegative number with the digits that a double keeps. -/
def keepDigits (x : ℚ) : ℚ := nearest (x / 2 ^ lastDigit x) * 2 ^ lastDigit x

theorem keepDigits_zero : keepDigits 0 = 0 := by
  unfold keepDigits
  rw [zero_div]
  change ((nearest ((0 : ℤ) : ℚ) : ℤ) : ℚ) * _ = 0
  rw [nearest_intCast, Int.cast_zero, zero_mul]

theorem keepDigits_nonneg {x : ℚ} (h : 0 ≤ x) : 0 ≤ keepDigits x := by
  have hpow : (0 : ℚ) < 2 ^ lastDigit x := zpow_pos (by norm_num) _
  exact mul_nonneg (by exact_mod_cast nearest_nonneg (div_nonneg h hpow.le)) hpow.le

/-- A power of two that is whole in units of the last digit is kept from below. -/
theorem keepDigits_le_pow {x : ℚ} {k : ℤ} (hx : x ≤ 2 ^ k) (hk : lastDigit x ≤ k) :
    keepDigits x ≤ 2 ^ k := by
  have hpow : (0 : ℚ) < 2 ^ lastDigit x := zpow_pos (by norm_num) _
  obtain ⟨m, hm⟩ := Int.eq_ofNat_of_zero_le (sub_nonneg.mpr hk)
  have hk : k = m + lastDigit x := by omega
  have hwhole : (2 : ℚ) ^ k = ((2 ^ m : ℤ) : ℚ) * 2 ^ lastDigit x := by
    rw [hk, zpow_add₀ (by norm_num), zpow_natCast]
    norm_num
  have hdiv : x / 2 ^ lastDigit x ≤ ((2 ^ m : ℤ) : ℚ) := by
    rw [div_le_iff₀ hpow, ← hwhole]
    exact hx
  have hnearest : nearest (x / 2 ^ lastDigit x) ≤ 2 ^ m := by
    calc nearest (x / 2 ^ lastDigit x) ≤ nearest ((2 ^ m : ℤ) : ℚ) := nearest_mono hdiv
      _ = 2 ^ m := nearest_intCast _
  rw [keepDigits, hwhole]
  exact mul_le_mul_of_nonneg_right (by exact_mod_cast hnearest) hpow.le

/-- The first digit is kept. -/
theorem pow_log_le_keepDigits {x : ℚ} (hx : 0 < x) (h : lastDigit x = Int.log 2 x - 52) :
    (2 : ℚ) ^ Int.log 2 x ≤ keepDigits x := by
  have hpow : (0 : ℚ) < 2 ^ lastDigit x := zpow_pos (by norm_num) _
  have hlog : Int.log 2 x = (52 : ℕ) + lastDigit x := by
    rw [h]
    push_cast
    ring
  have hwhole : (2 : ℚ) ^ Int.log 2 x = ((2 ^ 52 : ℤ) : ℚ) * 2 ^ lastDigit x := by
    rw [hlog, zpow_add₀ (by norm_num), zpow_natCast]
    norm_num
  have hdiv : ((2 ^ 52 : ℤ) : ℚ) ≤ x / 2 ^ lastDigit x := by
    rw [le_div_iff₀ hpow, ← hwhole]
    exact_mod_cast Int.zpow_log_le_self (by norm_num) hx
  have hnearest : 2 ^ 52 ≤ nearest (x / 2 ^ lastDigit x) := by
    calc (2 ^ 52 : ℤ) = nearest ((2 ^ 52 : ℤ) : ℚ) := (nearest_intCast _).symm
      _ ≤ nearest (x / 2 ^ lastDigit x) := nearest_mono hdiv
  rw [keepDigits, hwhole]
  exact mul_le_mul_of_nonneg_right (by exact_mod_cast hnearest) hpow.le

theorem keepDigits_mono {x y : ℚ} (h0 : 0 ≤ x) (h : x ≤ y) : keepDigits x ≤ keepDigits y := by
  rcases h0.lt_or_eq with hx | rfl
  · have hlog : Int.log 2 x ≤ Int.log 2 y := Int.log_mono_right hx h
    have hdigit : lastDigit x ≤ lastDigit y := by
      unfold lastDigit
      omega
    rcases hdigit.lt_or_eq with hlt | heq
    · -- a power of two lies between the two
      have hy : lastDigit y = Int.log 2 y - 52 := by
        unfold lastDigit at hlt ⊢
        omega
      have hlt' : Int.log 2 x + 1 ≤ Int.log 2 y := by
        unfold lastDigit at hlt
        omega
      have hxk : x ≤ 2 ^ Int.log 2 y := by
        calc x ≤ (2 : ℚ) ^ (Int.log 2 x + 1) := by
              exact_mod_cast (Int.lt_zpow_succ_log_self (by norm_num) x).le
          _ ≤ 2 ^ Int.log 2 y := zpow_le_zpow_right₀ (by norm_num) hlt'
      calc keepDigits x ≤ 2 ^ Int.log 2 y := keepDigits_le_pow hxk (by omega)
        _ ≤ keepDigits y := pow_log_le_keepDigits (hx.trans_le h) hy
    · have hpow : (0 : ℚ) < 2 ^ lastDigit y := zpow_pos (by norm_num) _
      have hdiv : x / 2 ^ lastDigit y ≤ y / 2 ^ lastDigit y := by
        rw [div_le_div_iff_of_pos_right hpow]
        exact h
      rw [keepDigits, keepDigits, heq]
      exact mul_le_mul_of_nonneg_right (by exact_mod_cast nearest_mono hdiv) hpow.le
  · rw [keepDigits_zero]
    exact keepDigits_nonneg h

/-- Whole numbers below 2^53 have few enough digits. -/
theorem keepDigits_natCast {n : ℕ} (h : n < 2 ^ 53) : keepDigits n = n := by
  have hlog : Nat.log 2 n ≤ 52 := by
    rcases Nat.eq_zero_or_pos n with rfl | hn
    · exact Nat.zero_le _
    · exact Nat.lt_succ_iff.mp (Nat.log_lt_of_lt_pow hn.ne' h)
  have hdigit : lastDigit n ≤ 0 := by
    rw [lastDigit, Int.log_natCast]
    omega
  obtain ⟨m, hm⟩ := Int.eq_ofNat_of_zero_le (neg_nonneg.mpr hdigit)
  have hpow : (2 : ℚ) ^ lastDigit n ≠ 0 := zpow_ne_zero _ (by norm_num)
  have hwhole : (n : ℚ) / 2 ^ lastDigit n = ((n * 2 ^ m : ℤ) : ℚ) := by
    rw [show lastDigit n = -(m : ℤ) by omega, zpow_neg, div_inv_eq_mul, zpow_natCast]
    push_cast
    ring
  rw [keepDigits, hwhole, nearest_intCast, ← hwhole]
  exact div_mul_cancel₀ _ hpow

/-! ## Every number -/

namespace Score

/-- The double that is the nearest to a number. -/
def round : Score → Score
  | some (some q) =>
    let a := keepDigits |q|
    if 2 ^ 1024 ≤ a then (if q < 0 then ⊥ else ⊤) else ofRat (if q < 0 then -a else a)
  | s => s

@[simp] theorem round_bot : round ⊥ = ⊥ := rfl

@[simp] theorem round_top : round ⊤ = ⊤ := rfl

theorem round_ofRat (q : ℚ) : round (ofRat q) =
    if 2 ^ 1024 ≤ keepDigits |q| then (if q < 0 then ⊥ else ⊤)
    else ofRat (if q < 0 then -keepDigits |q| else keepDigits |q|) := rfl

theorem round_of_nonneg {q : ℚ} (h : 0 ≤ q) :
    round (ofRat q) = if 2 ^ 1024 ≤ keepDigits q then ⊤ else ofRat (keepDigits q) := by
  rw [round_ofRat, abs_of_nonneg h, if_neg h.not_gt, if_neg h.not_gt]

theorem round_of_neg {q : ℚ} (h : q < 0) :
    round (ofRat q) = if 2 ^ 1024 ≤ keepDigits (-q) then ⊥ else ofRat (-keepDigits (-q)) := by
  rw [round_ofRat, abs_of_neg h, if_pos h, if_pos h]

theorem round_ofRat_mono {p q : ℚ} (h : p ≤ q) : round (ofRat p) ≤ round (ofRat q) := by
  rcases le_or_gt 0 p with hp | hp
  · have hkeep := keepDigits_mono hp h
    rw [round_of_nonneg hp, round_of_nonneg (hp.trans h)]
    by_cases hq : 2 ^ 1024 ≤ keepDigits q
    · rw [if_pos hq]
      exact le_top
    · rw [if_neg hq, if_neg fun hp' => hq (hp'.trans hkeep)]
      exact ofRat_le.mpr hkeep
  · rw [round_of_neg hp]
    by_cases hbig : 2 ^ 1024 ≤ keepDigits (-p)
    · rw [if_pos hbig]
      exact bot_le
    · rw [if_neg hbig]
      have hp' := keepDigits_nonneg (neg_nonneg.mpr hp.le)
      rcases le_or_gt 0 q with hq | hq
      · have hq' := keepDigits_nonneg hq
        rw [round_of_nonneg hq]
        split
        · exact le_top
        · exact ofRat_le.mpr (by linarith)
      · have hkeep := keepDigits_mono (neg_nonneg.mpr hq.le) (neg_le_neg h)
        rw [round_of_neg hq, if_neg fun hq' => hbig (hq'.trans hkeep)]
        exact ofRat_le.mpr (neg_le_neg hkeep)

/-- Rounding keeps the order. -/
theorem round_mono : Monotone round := by
  intro a b h
  rcases a with _ | (_ | p)
  · exact bot_le
  · rcases b with _ | (_ | q)
    · exact h
    · exact le_refl _
    · exact absurd (WithBot.coe_le_coe.mp h) (WithTop.not_top_le_coe q)
  · rcases b with _ | (_ | q)
    · exact absurd h (WithBot.not_coe_le_bot _)
    · exact le_top
    · exact round_ofRat_mono (ofRat_le.mp h)

/-- Whole numbers below 2^53 are doubles. -/
theorem round_ofNat {n : ℕ} (h : n < 2 ^ 53) : round (ofNat n) = ofNat n := by
  have hkeep := keepDigits_natCast h
  have hsmall : ¬ (2 : ℚ) ^ 1024 ≤ n := by
    rw [not_le]
    calc (n : ℚ) < 2 ^ 53 := by exact_mod_cast h
      _ ≤ 2 ^ 1024 := pow_le_pow_right₀ (by norm_num) (by norm_num)
  rw [ofNat, round_of_nonneg (Nat.cast_nonneg n), hkeep, if_neg hsmall]

end Score

namespace Double

/-- `a + n` for a finite `n`, rounded. -/
def plus : Double → ℚ → Double
  | nan, _ => nan
  | val x, q => val (x + Score.ofRat q).round

theorem plus_ofRat (a b : ℚ) : (ofRat a).plus b = val (Score.ofRat (a + b)).round := rfl

end Double
