import Mathlib
import PatternCardinality.Proofs.Number.Scientific

/-!
# Rounding keeps the order

Every number that is not negative rounds to a double, and a larger one to no smaller double: where
the intervals of two doubles meet, the end that they share belongs to the even one.
-/

namespace PatternCardinality.Double

section Existence

variable {v w : ℚ}

theorem exists_nearest (hw : 0 ≤ w) : ∃ n, Nearest w n := by
  have hlow : (⌊w⌋₊ : ℚ) ≤ w := Nat.floor_le hw
  have hhigh : w < ⌊w⌋₊ + 1 := Nat.lt_floor_add_one w
  generalize ⌊w⌋₊ = n at hlow hhigh
  rcases lt_trichotomy w (n + 1 / 2) with hlt | heq | hgt
  · exact ⟨n, .inl (by linarith), .inl hlt⟩
  · rcases Nat.mod_two_eq_zero_or_one n with heven | hodd
    · exact ⟨n, .inl (by linarith), .inr ⟨heven, heq⟩⟩
    · exact ⟨n + 1, .inr ⟨by omega, by push_cast; linarith⟩, .inl (by push_cast; linarith)⟩
  · exact ⟨n + 1, .inl (by push_cast; linarith), .inl (by push_cast; linarith)⟩

theorem exists_placed (hv : 0 ≤ v) : ∃ t, Placed v t := by
  rcases hv.eq_or_lt with rfl | hpos
  · exact ⟨-1074, le_rfl, by positivity, .inl rfl⟩
  · have hhigh : v < 2 ^ (Int.log 2 v + 1) := Int.lt_zpow_succ_log_self one_lt_two v
    have hlow : 2 ^ Int.log 2 v ≤ v := Int.zpow_log_le_self one_lt_two hpos
    refine ⟨max (Int.log 2 v - 52) (-1074), le_max_right _ _, ?_, ?_⟩
    · exact hhigh.trans_le (zpow_le_zpow_right₀ one_le_two (by omega))
    · rcases le_total (Int.log 2 v - 52) (-1074) with hleast | hlarge
      · exact .inl (max_eq_right hleast)
      · rw [max_eq_left hlarge, sub_add_cancel]
        exact .inr hlow

section Nearest

variable {n : ℕ} {t : ℤ} (hn : Nearest (v / 2 ^ t) n) (ht : Placed v t)

include hn ht

/-- The nearest significand makes a double, unless it has a bit too many. -/
theorem Nearest.roundsTo (hlt : n < 2 ^ 53) : Canonical n t ∧ RoundsTo v n t := by
  have hunit : (0 : ℚ) < 2 ^ t := by positivity
  have hlower := hn.lower
  have hupper := hn.upper
  rw [lt_div_iff₀ hunit, eq_div_iff hunit.ne'] at hlower
  rw [div_lt_iff₀ hunit, div_eq_iff hunit.ne'] at hupper
  have hfull : 2 ^ 52 * 2 ^ t ≤ v ∨ t = -1074 := by
    rw [← two_zpow_add t 52]
    exact ht.full.symm
  refine ⟨⟨hlt, ht.least, hfull.imp_left (fun hfull => ?_)⟩, ?_, hupper⟩
  · rw [← le_div_iff₀ hunit] at hfull
    have hcast : ((2 ^ 52 : ℕ) : ℚ) < n + 1 := by
      push_cast
      linarith [hn.bounds.2]
    exact Nat.lt_succ_iff.mp (by exact_mod_cast hcast)
  · by_cases hpower : n = 2 ^ 52 ∧ -1074 < t
    · obtain ⟨rfl, hleast⟩ := hpower
      have hpower : ((2 ^ 52 : ℕ) : ℚ) * 2 ^ t ≤ v := by
        push_cast
        exact hfull.resolve_right hleast.ne'
      rw [reach, if_pos ⟨rfl, hleast⟩]
      exact .inl ((mul_lt_mul_of_pos_right (by norm_num) hunit).trans_le hpower)
    · rw [reach, if_neg hpower]
      exact hlower

/-- With a bit too many it is a power of two, and that is written with the next exponent. -/
theorem Nearest.roundsTo_next (hpower : n = 2 ^ 53) :
    Canonical (2 ^ 52) (t + 1) ∧ RoundsTo v (2 ^ 52) (t + 1) := by
  subst hpower
  have hunit : (0 : ℚ) < 2 ^ t := by positivity
  have hlower := hn.lower
  rw [lt_div_iff₀ hunit, eq_div_iff hunit.ne'] at hlower
  have hleast : -1074 < t + 1 := Int.lt_add_one_iff.mpr ht.least
  have hends : ((2 ^ 52 : ℕ) - reach (2 ^ 52) (t + 1)) * (2 : ℚ) ^ (t + 1) =
      ((2 ^ 53 : ℕ) - 1 / 2) * 2 ^ t := by
    rw [reach, if_pos ⟨rfl, hleast⟩, zpow_add_one₀ two_ne_zero]
    push_cast
    ring
  refine ⟨⟨by decide, hleast.le, .inl le_rfl⟩, ?_, .inl ?_⟩
  · rw [hends]
    exact hlower.imp_right (fun h => ⟨by decide, h.2⟩)
  · have hbelow : v < 2 ^ 53 * 2 ^ t := ht.below.trans_eq (two_zpow_add t 53)
    rw [zpow_add_one₀ two_ne_zero]
    push_cast
    linarith

end Nearest

/-- Every number that is not negative rounds to a double. -/
theorem exists_roundsTo (hv : 0 ≤ v) : ∃ m e, Canonical m e ∧ RoundsTo v m e := by
  obtain ⟨t, ht⟩ := exists_placed hv
  have hunit : (0 : ℚ) < 2 ^ t := by positivity
  obtain ⟨n, hn⟩ := exists_nearest (div_nonneg hv hunit.le)
  have hbelow : v / 2 ^ t < 2 ^ 53 := by
    rw [div_lt_iff₀ hunit, ← two_zpow_add]
    exact ht.below
  have htop : n ≤ 2 ^ 53 := by
    have hcast : (n : ℚ) < (2 ^ 53 + 1 : ℕ) := by
      push_cast
      linarith [hn.bounds.1]
    exact Nat.lt_succ_iff.mp (by exact_mod_cast hcast)
  rcases htop.lt_or_eq with hlt | hpower
  · exact ⟨n, t, hn.roundsTo ht hlt⟩
  · exact ⟨2 ^ 52, t + 1, hn.roundsTo_next ht hpower⟩

end Existence

section Order

variable {v w : ℚ} {m n : ℕ} {d e : ℤ}

theorem Canonical.lt_of_exponent (hn : Canonical n d) (hm : Canonical m e) (h : d < e) :
    (n : ℚ) * 2 ^ d < m * 2 ^ e := by
  have hfull : ((2 ^ 52 : ℕ) : ℚ) ≤ m :=
    Nat.cast_le.mpr (hm.full.resolve_right (by linarith [hn.least]))
  have hbelow : (n : ℚ) < (2 ^ 53 : ℕ) := Nat.cast_lt.mpr hn.below
  push_cast at hfull hbelow
  calc (n : ℚ) * 2 ^ d < 2 ^ 53 * 2 ^ d := mul_lt_mul_of_pos_right hbelow (by positivity)
    _ = 2 ^ (d + 53) := (two_zpow_add d 53).symm
    _ ≤ 2 ^ (e + 52) := zpow_le_zpow_right₀ one_le_two (by omega)
    _ = 2 ^ 52 * 2 ^ e := two_zpow_add e 52
    _ ≤ m * 2 ^ e := mul_le_mul_of_nonneg_right hfull (by positivity)

/-- Doubles are in order as their exponents are, and with equal exponents as their significands. -/
theorem Canonical.lt_iff (hn : Canonical n d) (hm : Canonical m e) :
    (n : ℚ) * 2 ^ d < m * 2 ^ e ↔ d < e ∨ d = e ∧ n < m := by
  rcases lt_trichotomy d e with hlt | rfl | hgt
  · exact iff_of_true (hn.lt_of_exponent hm hlt) (.inl hlt)
  · have hunit : (0 : ℚ) < 2 ^ d := by positivity
    simp [mul_lt_mul_iff_left₀ hunit]
  · exact iff_of_false (hm.lt_of_exponent hn hgt).not_gt (by omega)

theorem Canonical.eq_of_value (hn : Canonical n d) (hm : Canonical m e)
    (h : (n : ℚ) * 2 ^ d = m * 2 ^ e) : n = m ∧ d = e := by
  have hlt := (hn.lt_iff hm).not.mp h.not_lt
  have hgt := (hm.lt_iff hn).not.mp h.not_gt
  omega

/-- The interval of a double ends before that of a larger one begins. They meet only if one of the
significands is odd. -/
theorem Canonical.ends_apart (hn : Canonical n d) (hm : Canonical m e)
    (h : (n : ℚ) * 2 ^ d < m * 2 ^ e) : ((n : ℚ) + 1 / 2) * 2 ^ d ≤ (m - reach m e) * 2 ^ e ∧
      (n % 2 = 0 → m % 2 = 0 → ((n : ℚ) + 1 / 2) * 2 ^ d < (m - reach m e) * 2 ^ e) := by
  have hunit : (0 : ℚ) < 2 ^ d := by positivity
  have hreach := reach_le m e
  rcases (hn.lt_iff hm).mp h with hexponent | ⟨rfl, hlt⟩
  · -- from one exponent to the next
    have hfull : 2 ^ 52 ≤ m := hm.full.resolve_right (by linarith [hn.least])
    have hlow : (2 : ℚ) ^ 52 - 1 / 4 ≤ m - reach m e := by
      rcases hfull.eq_or_lt with rfl | hlt
      · rw [reach, if_pos ⟨rfl, by linarith [hn.least]⟩]
        push_cast
        rfl
      · have hcast : ((2 ^ 52 + 1 : ℕ) : ℚ) ≤ m := Nat.cast_le.mpr hlt
        push_cast at hcast
        linarith
    have hnonneg : (0 : ℚ) ≤ m - reach m e := by linarith
    have hbegins : ((2 : ℚ) ^ 53 - 1 / 2) * 2 ^ d ≤ (m - reach m e) * 2 ^ e :=
      calc ((2 : ℚ) ^ 53 - 1 / 2) * 2 ^ d = (2 ^ 52 - 1 / 4) * 2 ^ (d + 1) := by
            rw [zpow_add_one₀ two_ne_zero]
            ring
        _ ≤ (m - reach m e) * 2 ^ e :=
          mul_le_mul hlow (zpow_le_zpow_right₀ one_le_two (by omega)) (by positivity) hnonneg
    refine ⟨(mul_le_mul_of_nonneg_right ?_ hunit.le).trans hbegins,
      fun heven _ => (mul_lt_mul_of_pos_right ?_ hunit).trans_le hbegins⟩
    · have hcast : ((n + 1 : ℕ) : ℚ) ≤ (2 ^ 53 : ℕ) := Nat.cast_le.mpr hn.below
      push_cast at hcast
      linarith
    · have hbelow := hn.below
      have hcast : ((n + 2 : ℕ) : ℚ) ≤ (2 ^ 53 : ℕ) := Nat.cast_le.mpr (by omega)
      push_cast at hcast
      linarith
  · -- with one exponent
    refine ⟨mul_le_mul_of_nonneg_right ?_ hunit.le,
      fun heven heven' => mul_lt_mul_of_pos_right ?_ hunit⟩
    · have hcast : ((n + 1 : ℕ) : ℚ) ≤ m := Nat.cast_le.mpr hlt
      push_cast at hcast
      linarith
    · have hcast : ((n + 2 : ℕ) : ℚ) ≤ m := Nat.cast_le.mpr (by omega)
      push_cast at hcast
      linarith

/-- A larger number rounds to no smaller double. -/
theorem RoundsTo.mono (h : RoundsTo v m e) (hm : Canonical m e) (h' : RoundsTo w n d)
    (hn : Canonical n d) (hvw : v ≤ w) : (m : ℚ) * 2 ^ e ≤ n * 2 ^ d := by
  by_contra hlt
  obtain ⟨hle, hstrict⟩ := hn.ends_apart hm (not_le.mp hlt)
  -- the ends meet in the one number between them, which both significands keep only if even
  rcases h.lower with hlow | ⟨heven, hlow⟩
  · linarith [h'.bounds.2]
  · rcases h'.upper with hhigh | ⟨heven', hhigh⟩
    · linarith
    · linarith [hstrict heven' heven]

/-- A number rounds to one double only. -/
theorem RoundsTo.unique (h : RoundsTo v m e) (hm : Canonical m e) (h' : RoundsTo v n d)
    (hn : Canonical n d) : m = n ∧ e = d :=
  hm.eq_of_value hn (le_antisymm (h.mono hm h' hn le_rfl) (h'.mono hn h hm le_rfl))

end Order

end PatternCardinality.Double
