import Mathlib
import PatternCardinality.Proofs.Number.Double

/-!
# Rounding to a double

A number is rounded by shifting a significand to the right until it has the width of a double. Two
bits keep what is lost of it: one counts for a half, and one tells whether there is anything below.
So the significand that comes out is the nearest one, the even one of two, and a number is rounded
to the double in whose interval it is.
-/

namespace PatternCardinality.Double

open Float.Model Float.Model.UnpackedFloat

/-- The number that a significand stands for together with the bits that were shifted out of it. -/
def Stands (em : ExtendedMantissa) (w : ℚ) : Prop :=
  ∃ rest : ℚ, 0 ≤ rest ∧ rest < 1 / 2 ∧ (em.stickyBit = true ↔ 0 < rest) ∧
    w = em.mantissa + (if em.roundBit then 1 / 2 else 0) + rest

/-- A natural number is nearest to a number, and even if another one is as near. -/
structure Nearest (w : ℚ) (n : ℕ) : Prop where
  lower : (n : ℚ) - 1 / 2 < w ∨ n % 2 = 0 ∧ (n : ℚ) - 1 / 2 = w
  upper : w < n + 1 / 2 ∨ n % 2 = 0 ∧ w = n + 1 / 2

section Significand

variable {em : ExtendedMantissa} {w : ℚ} {n k : ℕ}

theorem Stands.le (h : Stands em w) : (em.mantissa : ℚ) ≤ w ∧ w < em.mantissa + 1 := by
  obtain ⟨rest, hnonneg, hlt, -, rfl⟩ := h
  split <;> constructor <;> linarith

theorem Stands.shiftRightOne (h : Stands em w) : Stands em.shiftRightOne (w / 2) := by
  obtain ⟨rest, hnonneg, hlt, hsticky, rfl⟩ := h
  obtain ⟨m, round, sticky⟩ := em
  have hhalf : (m : ℚ) = 2 * (m / 2 : ℕ) + (m % 2 : ℕ) := by
    exact_mod_cast (Nat.div_add_mod m 2).symm
  dsimp only at *
  -- what was below the significand and the bit that it loses count for half as much
  refine ⟨((if round = true then 1 / 2 else 0) + rest) / 2, ?_, ?_, ?_, ?_⟩
  · split <;> linarith
  · split <;> linarith
  · cases round <;> simp [ExtendedMantissa.shiftRightOne, hsticky]
    linarith
  · rcases Nat.mod_two_eq_zero_or_one m with hmod | hmod <;>
      simp [ExtendedMantissa.shiftRightOne, hhalf, hmod] <;> ring

theorem Stands.shiftRight (h : Stands em w) (k : ℕ) : Stands (em >>> k) (w / 2 ^ k) := by
  change Stands (Nat.repeat ExtendedMantissa.shiftRightOne k em) (w / 2 ^ k)
  induction k with
  | zero => simpa [Nat.repeat] using h
  | succ k ih =>
    rw [Nat.repeat, pow_succ, ← div_div]
    exact ih.shiftRightOne

theorem Nearest.bounds (h : Nearest w n) : (n : ℚ) - 1 / 2 ≤ w ∧ w ≤ n + 1 / 2 :=
  ⟨h.lower.elim le_of_lt (fun h => h.2.le), h.upper.elim le_of_lt (fun h => h.2.le)⟩

/-- Rounding finds the nearest significand. -/
theorem Stands.roundedMantissa (h : Stands em w) (hn : Nearest w n) : em.roundedMantissa = n := by
  obtain ⟨rest, hnonneg, hlt, hsticky, hw⟩ := h
  obtain ⟨hlow, hhigh⟩ := hn.bounds
  obtain ⟨m, round, sticky⟩ := em
  dsimp only at hsticky hw
  have hle : ∀ {a b : ℕ}, (a : ℚ) < b + 1 → a ≤ b := fun hab =>
    Nat.lt_succ_iff.mp (by exact_mod_cast hab)
  cases round with
  | false =>
    -- less than half is lost
    rw [if_neg Bool.false_ne_true] at hw
    have heq : n = m := le_antisymm (hle (by linarith)) (hle (by linarith))
    cases sticky <;> exact heq.symm
  | true =>
    rw [if_pos rfl] at hw
    cases sticky with
    | false =>
      -- exactly half is lost, and the even neighbour is the nearest one
      have hrest : rest = 0 := le_antisymm (not_lt.mp (by simpa using hsticky)) hnonneg
      have hmn : m ≤ n := hle (by linarith)
      have hnm : n ≤ m + 1 := hle (by push_cast; linarith)
      change m + m % 2 = n
      rcases Nat.lt_or_eq_of_le hmn with hlt' | rfl
      · obtain rfl : n = m + 1 := by omega
        have heven := (hn.lower.resolve_left (by push_cast; linarith)).1
        omega
      · have heven := (hn.upper.resolve_left (by linarith)).1
        omega
    | true =>
      have hpos := hsticky.mp rfl
      have heq : n = m + 1 :=
        le_antisymm (hle (by push_cast; linarith)) (hle (by push_cast; linarith))
      exact heq.symm

theorem stands_exact (m : ℕ) : Stands (.ofMantissaAndAccuracy m .exact) m :=
  ⟨0, le_rfl, by norm_num, by simp [ExtendedMantissa.ofMantissaAndAccuracy],
    by simp [ExtendedMantissa.ofMantissaAndAccuracy]⟩

/-- A quotient stands for itself together with its remainder. -/
theorem stands_quotient (m : ℕ) {d : ℕ} (hd : 0 < d) :
    Stands (.ofMantissaAndAccuracy (m / d) (accuracyOfFraction (m % d) d)) ((m : ℚ) / d) := by
  have hd' : (0 : ℚ) < d := by exact_mod_cast hd
  have hvalue : (m : ℚ) / d = (m / d : ℕ) + ((m % d : ℕ) : ℚ) / d := by
    rw [div_eq_iff hd'.ne', add_mul, div_mul_cancel₀ _ hd'.ne']
    exact_mod_cast (Nat.div_add_mod' m d).symm
  rw [hvalue, accuracyOfFraction]
  split
  · next hzero =>
    rw [hzero, Nat.cast_zero, zero_div, add_zero]
    exact stands_exact _
  · next hpos =>
    have hpos : (0 : ℚ) < ((m % d : ℕ) : ℚ) / d :=
      div_pos (by exact_mod_cast Nat.pos_of_ne_zero hpos) hd'
    have hone : ((m % d : ℕ) : ℚ) / d < 1 := by
      rw [div_lt_one hd']
      exact_mod_cast Nat.mod_lt m hd
    cases hcompare : compare (2 * (m % d)) d with
    | lt =>
      have hhalf : ((m % d : ℕ) : ℚ) / d < 1 / 2 := by
        rw [div_lt_div_iff₀ hd' two_pos, mul_comm, one_mul]
        exact_mod_cast Nat.compare_eq_lt.mp hcompare
      exact ⟨_, hpos.le, hhalf, iff_of_true rfl hpos,
        by simp [ExtendedMantissa.ofMantissaAndAccuracy]⟩
    | eq =>
      have hhalf : ((m % d : ℕ) : ℚ) / d = 1 / 2 := by
        rw [div_eq_div_iff hd'.ne' two_ne_zero, mul_comm, one_mul]
        exact_mod_cast Nat.compare_eq_eq.mp hcompare
      exact ⟨0, le_rfl, by norm_num, by simp [ExtendedMantissa.ofMantissaAndAccuracy],
        by simp [ExtendedMantissa.ofMantissaAndAccuracy, hhalf]⟩
    | gt =>
      have hhalf : 1 / 2 < ((m % d : ℕ) : ℚ) / d := by
        rw [div_lt_div_iff₀ two_pos hd', one_mul, mul_comm]
        exact_mod_cast Nat.compare_eq_gt.mp hcompare
      exact ⟨((m % d : ℕ) : ℚ) / d - 1 / 2, by linarith, by linarith,
        iff_of_true rfl (by linarith), by simp [ExtendedMantissa.ofMantissaAndAccuracy]⟩

end Significand

/-- How far the reals that round to a double reach below it, in units of its last place. Below a
power of two the next double is only half a unit away. -/
def reach (m : ℕ) (e : ℤ) : ℚ := if m = 2 ^ 52 ∧ -1074 < e then 1 / 4 else 1 / 2

/-- A number is among the reals that round to `m * 2 ^ e`; the ends are if the significand is
even. -/
structure RoundsTo (v : ℚ) (m : ℕ) (e : ℤ) : Prop where
  lower : (m - reach m e) * 2 ^ e < v ∨ m % 2 = 0 ∧ (m - reach m e) * 2 ^ e = v
  upper : v < (m + 1 / 2) * 2 ^ e ∨ m % 2 = 0 ∧ v = (m + 1 / 2) * 2 ^ e

section Places

variable {v : ℚ} {m : ℕ} {e t : ℤ}

theorem RoundsTo.bounds (h : RoundsTo v m e) :
    (m - reach m e) * 2 ^ e ≤ v ∧ v ≤ (m + 1 / 2) * 2 ^ e :=
  ⟨h.lower.elim le_of_lt (fun h => h.2.le), h.upper.elim le_of_lt (fun h => h.2.le)⟩

theorem reach_le (m : ℕ) (e : ℤ) : reach m e ≤ 1 / 2 := by
  rw [reach]
  split <;> norm_num

/-- In units of its own last place a double is nearest to what rounds to it. -/
theorem RoundsTo.nearest (h : RoundsTo v m e) : Nearest (v / 2 ^ e) m := by
  have hunit : (0 : ℚ) < 2 ^ e := by positivity
  have hreach := reach_le m e
  refine ⟨?_, ?_⟩
  · rcases h.lower with hlt | ⟨heven, heq⟩
    · rw [← lt_div_iff₀ hunit] at hlt
      exact .inl (by linarith)
    · rw [← eq_div_iff hunit.ne'] at heq
      rcases hreach.lt_or_eq with hlt | hhalf
      · exact .inl (by linarith)
      · exact .inr ⟨heven, by rw [← heq, hhalf]⟩
  · rcases h.upper with hlt | ⟨heven, heq⟩
    · exact .inl (by rwa [div_lt_iff₀ hunit])
    · exact .inr ⟨heven, by rwa [div_eq_iff hunit.ne']⟩

/-- The place where the last digit of a number is kept: as many places as a double has are enough,
and all of them are used unless it is the last place of all. -/
structure Placed (v : ℚ) (t : ℤ) : Prop where
  least : -1074 ≤ t
  below : v < 2 ^ (t + 53)
  full : t = -1074 ∨ 2 ^ (t + 52) ≤ v

theorem two_zpow_add (i : ℤ) (k : ℕ) : (2 : ℚ) ^ (i + k) = 2 ^ k * 2 ^ i := by
  rw [zpow_add₀ two_ne_zero, zpow_natCast, mul_comm]

theorem zpow_eq_div {b : ℚ} (hb : b ≠ 0) (i : ℤ) : b ^ i = b ^ i.toNat / b ^ (-i).toNat := by
  have hsplit : i = (i.toNat : ℤ) - ((-i).toNat : ℤ) := by omega
  conv_lhs => rw [hsplit, zpow_sub₀ hb, zpow_natCast, zpow_natCast]

theorem RoundsTo.place_le (h : RoundsTo v m e) (hm : Canonical m e) (ht : Placed v t) : t ≤ e := by
  rcases ht.full with hleast | hfull
  · exact hleast ▸ hm.least
  · have hmantissa : (m : ℚ) + 1 / 2 < 2 ^ 53 := by
      have hcast : (m : ℚ) + 1 ≤ 2 ^ 53 := by exact_mod_cast hm.below
      linarith
    have hlt : (2 : ℚ) ^ (t + 52) < 2 ^ (e + 53) :=
      calc (2 : ℚ) ^ (t + 52) ≤ (m + 1 / 2) * 2 ^ e := hfull.trans h.bounds.2
        _ < 2 ^ 53 * 2 ^ e := mul_lt_mul_of_pos_right hmantissa (by positivity)
        _ = 2 ^ (e + 53) := (two_zpow_add e 53).symm
    have hexponents := (zpow_lt_zpow_iff_right₀ one_lt_two).mp hlt
    omega

/-- What is kept to a further place than the double has that it rounds to is below a power of
two. -/
theorem RoundsTo.eq_power (h : RoundsTo v m e) (hm : Canonical m e) (ht : Placed v t)
    (hlt : t < e) : m = 2 ^ 52 ∧ e = t + 1 := by
  have hunit : (0 : ℚ) < 2 ^ e := by positivity
  have hlow := h.bounds.1
  have hleast := ht.least
  have hfull : 2 ^ 52 ≤ m := hm.full.resolve_right (by omega)
  have hbelow : v < 2 ^ 52 * 2 ^ e :=
    calc v < 2 ^ (t + 53) := ht.below
      _ ≤ 2 ^ (e + 52) := zpow_le_zpow_right₀ one_le_two (by omega)
      _ = 2 ^ 52 * 2 ^ e := two_zpow_add e 52
  have hpower : m = 2 ^ 52 := by
    have hmantissa : (m : ℚ) - reach m e < 2 ^ 52 :=
      lt_of_mul_lt_mul_right (hlow.trans_lt hbelow) hunit.le
    have hreach := reach_le m e
    have hcast : (m : ℚ) < (2 ^ 52 + 1 : ℕ) := by push_cast; linarith
    have hnat : m < 2 ^ 52 + 1 := by exact_mod_cast hcast
    omega
  have hhalf : (2 : ℚ) ^ 51 ≤ m - reach m e := by
    have hreach := reach_le m e
    have hcast : (m : ℚ) = 2 ^ 52 := by exact_mod_cast hpower
    linarith
  have hexponents : (2 : ℚ) ^ (e + 51) < 2 ^ (t + 53) :=
    calc (2 : ℚ) ^ (e + 51) = 2 ^ 51 * 2 ^ e := two_zpow_add e 51
      _ ≤ (m - reach m e) * 2 ^ e := mul_le_mul_of_nonneg_right hhalf hunit.le
      _ < 2 ^ (t + 53) := hlow.trans_lt ht.below
  have hexponents := (zpow_lt_zpow_iff_right₀ one_lt_two).mp hexponents
  exact ⟨hpower, by omega⟩

/-- The last digit is kept at the place of the double that a number rounds to, or one place further
if the number is just below a power of two. -/
theorem RoundsTo.placed (h : RoundsTo v m e) (hm : Canonical m e) (ht : Placed v t) :
    t = e ∨ m = 2 ^ 52 ∧ e = t + 1 ∧ Nearest (v / 2 ^ t) (2 ^ 53) := by
  rcases (h.place_le hm ht).lt_or_eq with hlt | heq
  · obtain ⟨rfl, rfl⟩ := h.eq_power hm ht hlt
    have hunit : (0 : ℚ) < 2 ^ t := by positivity
    have hreach : reach (2 ^ 52) (t + 1) = 1 / 4 :=
      if_pos ⟨rfl, Int.lt_add_one_iff.mpr ht.least⟩
    have hbelow : v / 2 ^ t < 2 ^ 53 := by
      rw [div_lt_iff₀ hunit, ← two_zpow_add t 53]
      exact ht.below
    have hhalf : (2 : ℚ) ^ 53 - 1 / 2 ≤ v / 2 ^ t := by
      rw [le_div_iff₀ hunit]
      calc ((2 : ℚ) ^ 53 - 1 / 2) * 2 ^ t
          = ((2 ^ 52 : ℕ) - reach (2 ^ 52) (t + 1)) * 2 ^ (t + 1) := by
            rw [hreach, zpow_add_one₀ two_ne_zero]
            push_cast
            ring
        _ ≤ v := h.bounds.1
    refine .inr ⟨rfl, rfl, ?_, .inl (by push_cast; linarith)⟩
    push_cast
    exact hhalf.lt_or_eq.imp_right (fun heq => ⟨by decide, heq⟩)
  · exact .inl heq

/-- A significand that has enough bits tells the place where the last digit is kept. -/
theorem placed_targetExponent {em : ExtendedMantissa} (hem : Stands em (v / 2 ^ e))
    (he : e ≤ Format.binary64.targetExponent (totalExponent em.mantissa e)) :
    Placed v (Format.binary64.targetExponent (totalExponent em.mantissa e)) := by
  obtain ⟨hlow, hhigh⟩ := hem.le
  have hunit : (0 : ℚ) < 2 ^ e := by positivity
  rw [le_div_iff₀ hunit] at hlow
  rw [div_lt_iff₀ hunit] at hhigh
  have htarget : Format.binary64.targetExponent (totalExponent em.mantissa e) =
      max (em.mantissa.log2 + 1 + e - 53) (-1074) := rfl
  rw [htarget] at he ⊢
  refine ⟨le_max_right _ _, ?_, ?_⟩
  · have hlog : (em.mantissa : ℚ) + 1 ≤ 2 ^ (em.mantissa.log2 + 1) := by
      exact_mod_cast (Nat.lt_log2_self : em.mantissa < 2 ^ (em.mantissa.log2 + 1))
    calc v < (em.mantissa + 1) * 2 ^ e := hhigh
      _ ≤ 2 ^ (em.mantissa.log2 + 1) * 2 ^ e := mul_le_mul_of_nonneg_right hlog hunit.le
      _ = 2 ^ (e + (em.mantissa.log2 + 1 : ℕ)) := (two_zpow_add e _).symm
      _ ≤ 2 ^ (max (em.mantissa.log2 + 1 + e - 53) (-1074) + 53) :=
        zpow_le_zpow_right₀ one_le_two (by push_cast; omega)
  · by_cases hleast : max (em.mantissa.log2 + 1 + e - 53) (-1074) = -1074
    · exact .inl hleast
    · have hzero : em.mantissa ≠ 0 := by
        intro hzero
        rw [hzero, Nat.log2_zero] at he hleast
        omega
      have hlog : (2 : ℚ) ^ em.mantissa.log2 ≤ em.mantissa := by
        exact_mod_cast Nat.log2_self_le hzero
      right
      calc (2 : ℚ) ^ (max (em.mantissa.log2 + 1 + e - 53) (-1074) + 52)
          = 2 ^ (e + em.mantissa.log2) := by congr 1; omega
        _ = 2 ^ em.mantissa.log2 * 2 ^ e := two_zpow_add e _
        _ ≤ em.mantissa * 2 ^ e := mul_le_mul_of_nonneg_right hlog hunit.le
        _ ≤ v := hlow

end Places

section Rounded

variable {v : ℚ} {m : ℕ} {e : ℤ}

/-- A significand that was rounded up to a power of two loses the bit that it has too many. -/
theorem shift_carried (he : -1074 ≤ e) :
    shiftToTargetExponent Format.binary64 (2 ^ 53) e .exact = (⟨2 ^ 52, false, false⟩, e + 1) := by
  have htarget : Format.binary64.targetExponent (totalExponent (2 ^ 53) e) = e + 1 := by
    rw [Format.targetExponent, totalExponent, Nat.log2_two_pow]
    change max (((53 : ℕ) : ℤ) + 1 + e - 53) (-1074) = e + 1
    omega
  have hamount : (e + 1 - e).toNat = 1 := by omega
  rw [shiftToTargetExponent, htarget, shiftToExponent, hamount]
  rfl

/-- A number that rounds to a double is rounded to it. -/
theorem roundWithAccuracy_eq {M : ℕ} {E : ℤ} {acc : Accuracy} (s : Sign)
    (hem : Stands (.ofMantissaAndAccuracy M acc) (v / 2 ^ E))
    (hE : E ≤ Format.binary64.targetExponent (totalExponent M E)) (hm : Canonical m e)
    (h : RoundsTo v m e) :
    roundWithAccuracy Format.binary64 s M E acc = finiteOf s m e := by
  have hmantissa : (ExtendedMantissa.ofMantissaAndAccuracy M acc).mantissa = M := by
    cases acc with
    | exact => rfl
    | inexact o => cases o <;> rfl
  have hplaced := placed_targetExponent hem (by rwa [hmantissa])
  rw [hmantissa] at hplaced
  rw [roundWithAccuracy, shiftToTargetExponent]
  generalize Format.binary64.targetExponent (totalExponent M E) = t at *
  have hshifted : Stands (ExtendedMantissa.ofMantissaAndAccuracy M acc >>> (t - E).toNat)
      (v / 2 ^ t) := by
    have hplace : t = E + (t - E).toNat := by omega
    have hunits : v / 2 ^ t = v / 2 ^ E / 2 ^ (t - E).toNat := by
      conv_lhs => rw [hplace, two_zpow_add, mul_comm, ← div_div]
    rw [hunits]
    exact hem.shiftRight _
  have hplace : E + (t - E).toNat = t := by omega
  rw [shiftToExponent, hplace]
  dsimp only
  rcases h.placed hm hplaced with rfl | ⟨rfl, rfl, hnearest⟩
  · rw [hshifted.roundedMantissa h.nearest]
    by_cases hzero : m = 0
    · subst hzero
      rw [hm.full.resolve_left (by decide)]
      rfl
    · rw [shift_canonical (Nat.pos_of_ne_zero hzero) hm, finiteOf]
  · rw [hshifted.roundedMantissa hnearest, shift_carried hplaced.least]
    rfl

end Rounded

end PatternCardinality.Double
