import Mathlib
import PatternCardinality.Decimal.Literal
import PatternCardinality.Proofs.Decimal.Interval
import PatternCardinality.Proofs.Number.Scientific

/-!
# The double nearest to a decimal

A decimal that identifies a double is read as this double, however it is written: a product or a
quotient of exact factors is rounded once, and far outside the range of doubles the number of digits
tells the result.
-/

namespace PatternCardinality.Decimal.Literal

open Double

variable {d : Literal} {x : Float} {m : ℕ} {e : ℤ}

/-- The digits and the power of ten that they are multiplied by. -/
def numeral (d : Literal) : Numeral := ⟨d.digits, d.scale⟩

/-- A decimal stands for a double: it has the sign of the double, and it is among the numbers that
round to it. -/
structure Denotes (d : Literal) (x : Float) : Prop where
  finite : x.isFinite = true
  sign : d.negative = isNegative x
  magnitude : (Binary.ofBits x.toBits).identifiedBy d.numeral = true

/-- A binary digit counts for less than 31 / 100 of a decimal one. -/
theorem two_pow_le (n : ℕ) : 2 ^ n ≤ 10 ^ (n * 31 / 100 + 1) := by
  refine (Nat.pow_le_pow_iff_left (n := 100) (by decide)).mp ?_
  calc (2 ^ n) ^ 100 = (2 ^ 100) ^ n := by rw [← Nat.pow_mul, ← Nat.pow_mul, Nat.mul_comm]
    _ ≤ (10 ^ 31) ^ n := Nat.pow_le_pow_left (by norm_num) n
    _ = 10 ^ (31 * n) := (Nat.pow_mul _ _ _).symm
    _ ≤ 10 ^ ((n * 31 / 100 + 1) * 100) := Nat.pow_le_pow_right (by decide) (by omega)
    _ = (10 ^ (n * 31 / 100 + 1)) ^ 100 := Nat.pow_mul _ _ _

theorem two_pow_le_ten_pow {n k : ℕ} (h : n * 31 / 100 < k) : (2 : ℚ) ^ n ≤ 10 ^ k := by
  have hnat : 2 ^ n ≤ 10 ^ k := (two_pow_le n).trans (Nat.pow_le_pow_right (by decide) h)
  exact_mod_cast hnat

theorem two_mul_ten_zpow_le {n k : ℕ} (h : (n + 1) * 31 / 100 < k) :
    2 * (10 : ℚ) ^ (-k : ℤ) ≤ 2 ^ (-n : ℤ) := by
  have hpow := two_pow_le_ten_pow h
  rw [zpow_neg, zpow_neg, zpow_natCast, zpow_natCast, ← div_eq_mul_inv, div_le_iff₀ (by positivity),
    inv_mul_eq_div, le_div_iff₀ (by positivity), ← pow_succ']
  exact hpow

/-- A binary digit counts for more than 3 / 10 of a decimal one. -/
theorem ten_pow_le (n : ℕ) : 10 ^ (n * 3 / 10) ≤ 2 ^ n := by
  refine (Nat.pow_le_pow_iff_left (n := 10) (by decide)).mp ?_
  calc (10 ^ (n * 3 / 10)) ^ 10 = 10 ^ (n * 3 / 10 * 10) := (Nat.pow_mul _ _ _).symm
    _ ≤ 10 ^ (3 * n) := Nat.pow_le_pow_right (by decide) (by omega)
    _ = (10 ^ 3) ^ n := Nat.pow_mul _ _ _
    _ ≤ (2 ^ 10) ^ n := Nat.pow_le_pow_left (by norm_num) n
    _ = (2 ^ n) ^ 10 := by rw [← Nat.pow_mul, ← Nat.pow_mul, Nat.mul_comm]

/-- What has its first digit far behind the point is below half of the least double. -/
theorem value_lt (h : (d.digits.log2 * 31 / 100 : ℕ) + d.scale < -350) :
    d.numeral.value < 2 ^ (-1075 : ℤ) := by
  have hdigits : (d.digits : ℚ) < 2 * 10 ^ (d.digits.log2 * 31 / 100 + 1) := by
    have hlog : d.digits < 2 * 2 ^ d.digits.log2 := by
      rw [← Nat.pow_succ']
      exact Nat.lt_log2_self
    have htens := two_pow_le d.digits.log2
    have hnat : d.digits < 2 * 10 ^ (d.digits.log2 * 31 / 100 + 1) := by omega
    exact_mod_cast hnat
  calc (d.digits : ℚ) * 10 ^ d.scale
      < 2 * 10 ^ (d.digits.log2 * 31 / 100 + 1) * 10 ^ d.scale :=
        mul_lt_mul_of_pos_right hdigits (by positivity)
    _ = 2 * 10 ^ ((d.digits.log2 * 31 / 100 + 1 : ℕ) + d.scale) := by
        rw [zpow_add₀ (by norm_num), zpow_natCast, mul_assoc]
    _ ≤ 2 * 10 ^ (-350 : ℤ) :=
        mul_le_mul_of_nonneg_left (zpow_le_zpow_right₀ (by norm_num) (by push_cast at h ⊢; omega))
          two_pos.le
    _ ≤ 2 ^ (-1075 : ℤ) := two_mul_ten_zpow_le (n := 1075) (k := 350) (by decide)

/-- What has its first digit far before the point is beyond all doubles. -/
theorem le_value (hpos : d.digits ≠ 0) (h : 320 < (d.digits.log2 * 3 / 10 : ℕ) + d.scale) :
    (2 : ℚ) ^ 1024 ≤ d.numeral.value := by
  have hdigits : (10 : ℚ) ^ (d.digits.log2 * 3 / 10) ≤ d.digits := by
    exact_mod_cast (ten_pow_le d.digits.log2).trans (Nat.log2_self_le hpos)
  calc (2 : ℚ) ^ 1024 ≤ 10 ^ 320 := two_pow_le_ten_pow (by decide)
    _ = 10 ^ (320 : ℤ) := (zpow_natCast _ _).symm
    _ ≤ 10 ^ ((d.digits.log2 * 3 / 10 : ℕ) + d.scale) :=
      zpow_le_zpow_right₀ (by norm_num) (by omega)
    _ = 10 ^ (d.digits.log2 * 3 / 10) * 10 ^ d.scale := by
      rw [zpow_add₀ (by norm_num), zpow_natCast]
    _ ≤ d.digits * 10 ^ d.scale := mul_le_mul_of_nonneg_right hdigits (by positivity)

theorem magnitude_eq (hm : Canonical m e) (he : e ≤ 971) (h : RoundsTo d.numeral.value m e) :
    d.magnitude = magnitudeOf m e := by
  have hzero : d.numeral.value < 2 ^ (-1075 : ℤ) → 0.0 = magnitudeOf m e := by
    intro hlt
    rw [h.eq_zero hm hlt]
    rfl
  rw [magnitude]
  split
  · next hsmall =>
    refine hzero ?_
    rcases hsmall with hnone | hsmall
    · rw [Numeral.value, numeral, hnone]
      norm_num
    · exact value_lt (by push_cast; exact hsmall)
  · next hsmall =>
    have hpos : d.digits ≠ 0 := fun hnone => hsmall (.inl hnone)
    split
    · next hlarge =>
      exact absurd (h.lt_top hm he) (not_lt.mpr (le_value hpos (by push_cast; exact hlarge)))
    · exact ofScientific_eq (Nat.pos_of_ne_zero hpos) hm he h

/-- A decimal is read as the double that it stands for. -/
theorem Denotes.nearest_eq (h : d.Denotes x) : d.nearest = x := by
  obtain ⟨s, m, e, hparts⟩ := exists_parts h.finite
  have hrounds : RoundsTo d.numeral.value m e := by
    refine roundsTo_of_identifiedBy ?_
    rw [← hparts.binary]
    exact h.magnitude
  rw [nearest, h.sign, magnitude_eq hparts.canonical hparts.top hrounds]
  exact hparts.signed_magnitudeOf

end PatternCardinality.Decimal.Literal
