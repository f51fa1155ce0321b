import Mathlib
import PatternCardinality.Decimal.Shortest
import PatternCardinality.Proofs.Number.Rounding

/-!
# Decimals that identify a double

Decimals are compared with multiples of powers of two as the rational numbers that they are. So a
decimal identifies a double if it is among the numbers that round to it, and its value alone counts,
not how it is written.
-/

namespace PatternCardinality.Decimal

open Double

/-- The number that a numeral stands for. -/
def Numeral.value (d : Numeral) : ℚ := d.digits * 10 ^ d.exponent

theorem compareScaled_eq (a : ℕ) (i : ℤ) (n : ℕ) (j : ℤ) :
    compareScaled a i n j = compare ((a : ℚ) * 10 ^ i) ((n : ℚ) * 2 ^ j) := by
  have hcommon : (0 : ℚ) < 10 ^ (-i).toNat * 2 ^ (-j).toNat := by positivity
  have hleft : ((a * 10 ^ i.toNat * 2 ^ (-j).toNat : ℕ) : ℚ) =
      a * 10 ^ i * (10 ^ (-i).toNat * 2 ^ (-j).toNat) := by
    rw [zpow_eq_div (by norm_num) i]
    push_cast
    field_simp
  have hright : ((n * 2 ^ j.toNat * 10 ^ (-i).toNat : ℕ) : ℚ) =
      n * 2 ^ j * (10 ^ (-i).toNat * 2 ^ (-j).toNat) := by
    rw [zpow_eq_div (by norm_num) j]
    push_cast
    field_simp
  rw [compareScaled, ← cmp_eq_compare, ← cmp_eq_compare,
    ← (Nat.strictMono_cast (α := ℚ)).cmp_map_eq]
  simp only [Nat.pow_eq]
  rw [hleft, hright]
  exact (strictMono_mul_right_of_pos hcommon).cmp_map_eq _ _

variable {x : Binary} {d d' : Numeral} {m : ℕ} {e : ℤ}

/-- Decimals of the same value identify the same doubles. -/
theorem identifiedBy_congr (h : d.value = d'.value) : x.identifiedBy d = x.identifiedBy d' := by
  have hcompare : ∀ n j, compareScaled d.digits d.exponent n j =
      compareScaled d'.digits d'.exponent n j := by
    intro n j
    rw [compareScaled_eq, compareScaled_eq]
    exact congrArg (compare · _) h
  simp only [Binary.identifiedBy, hcompare]

theorem Numeral.value_nonneg (d : Numeral) : 0 ≤ d.value := by
  rw [Numeral.value]
  positivity

/-- What identifies a double rounds to it. -/
theorem roundsTo_of_identifiedBy
    (h : Binary.identifiedBy ⟨m, e, decide (m = 2 ^ 52 ∧ -1074 < e)⟩ d = true) :
    RoundsTo d.value m e := by
  have hunit : (0 : ℚ) < 2 ^ e := by positivity
  have hquarter : (2 : ℚ) ^ (e - 2) = 2 ^ e / 4 := by
    rw [zpow_sub₀ two_ne_zero]
    norm_num
  simp only [Binary.identifiedBy, compareScaled_eq, compare_gt_iff_gt, compare_lt_iff_lt,
    compare_eq_iff_eq, decide_eq_true_eq, hquarter] at h
  obtain ⟨hlow, hhigh⟩ := h
  constructor
  · rcases Nat.eq_zero_or_pos m with rfl | hpos
    · -- a number is above what lies half a unit below zero
      have hreach : reach 0 e = 1 / 2 := if_neg (by simp)
      have hnonneg := d.value_nonneg
      rw [hreach]
      exact .inl (by push_cast; linarith)
    · have hend : ((if m = 2 ^ 52 ∧ -1074 < e then 4 * m - 1 else 4 * m - 2 : ℕ) : ℚ) *
          (2 ^ e / 4) = (m - reach m e) * 2 ^ e := by
        rw [reach]
        split
        · rw [Nat.cast_sub (by omega)]
          push_cast
          ring
        · rw [Nat.cast_sub (by omega)]
          push_cast
          ring
      rw [hend] at hlow
      exact hlow.imp_right (fun h => ⟨h.1, h.2.symm⟩)
  · have hend : ((4 * m + 2 : ℕ) : ℚ) * (2 ^ e / 4) = (m + 1 / 2) * 2 ^ e := by
      push_cast
      ring
    rw [hend] at hhigh
    exact hhigh

section Shortest

variable {tie : Tie}

theorem value_stripped (fuel : ℕ) (d : Numeral) : (d.stripped fuel).value = d.value := by
  induction fuel generalizing d with
  | zero => rfl
  | succ fuel ih =>
    rw [Numeral.stripped]
    split
    · next h =>
      have hdigits : ((d.digits / 10 : ℕ) : ℚ) * 10 = d.digits := by
        exact_mod_cast Nat.div_mul_cancel (Nat.dvd_of_mod_eq_zero h.2)
      rw [ih, Numeral.value, Numeral.value, zpow_add_one₀ (by norm_num), mul_comm _ (10 : ℚ),
        ← mul_assoc, hdigits]
    · rfl

theorem value_exact (x : Binary) : x.exact.value = x.mantissa * 2 ^ x.exponent := by
  have hten : (10 : ℚ) = 2 * 5 := by norm_num
  rw [Numeral.value, Binary.exact, zpow_eq_div two_ne_zero, zpow_neg, zpow_natCast, hten, mul_pow]
  simp only [Nat.pow_eq]
  push_cast
  field_simp

theorem identifiedBy_exact (x : Binary) : x.identifiedBy x.exact = true := by
  have hunit : (0 : ℚ) < 2 ^ (x.exponent - 2) := by positivity
  have hquarter : (2 : ℚ) ^ x.exponent = 4 * 2 ^ (x.exponent - 2) := by
    rw [zpow_sub₀ two_ne_zero]
    ring
  have hvalue : (x.exact.digits : ℚ) * 10 ^ x.exact.exponent =
      (4 * x.mantissa : ℕ) * 2 ^ (x.exponent - 2) := by
    have hexact := value_exact x
    rw [Numeral.value, hquarter] at hexact
    rw [hexact]
    push_cast
    ring
  have hcompare : ∀ n, compareScaled x.exact.digits x.exact.exponent n (x.exponent - 2) =
      compare (4 * x.mantissa) n := by
    intro n
    rw [compareScaled_eq, hvalue, ← cmp_eq_compare, ← cmp_eq_compare,
      (strictMono_mul_right_of_pos hunit).cmp_map_eq, (Nat.strictMono_cast (α := ℚ)).cmp_map_eq]
  simp only [Binary.identifiedBy, hcompare, compare_gt_iff_gt, compare_lt_iff_lt,
    compare_eq_iff_eq, decide_eq_true_eq]
  split <;> omega

theorem identifiedBy_of_onGrid? {k : ℤ} (h : x.onGrid? tie k = some d) :
    x.identifiedBy d = true := by
  simp only [Binary.onGrid?] at h
  split at h
  · cases h
  · next hdown _ =>
    cases h
    exact hdown
  · next hup =>
    cases h
    exact hup
  · next hdown hup =>
    split at h
    · cases h
      exact hdown
    · cases h
      exact hup
    · cases tie with
      | up =>
        cases h
        exact hup
      | even =>
        cases h
        split
        · exact hdown
        · exact hup

/-- The shortest decimal of a double identifies it. -/
theorem identifiedBy_shortest (x : Binary) (tie : Tie) :
    x.identifiedBy (x.shortest tie) = true := by
  rw [Binary.shortest, identifiedBy_congr (value_stripped 800 _)]
  cases hfound : (List.range 17).findSome? (fun (n : ℕ) => x.onGrid? tie (x.scale - 1 - n)) with
  | none => exact identifiedBy_exact x
  | some d =>
    obtain ⟨n, -, hn⟩ := List.exists_of_findSome?_eq_some hfound
    exact identifiedBy_of_onGrid? hn

end Shortest

end PatternCardinality.Decimal
