import Mathlib
import PatternCardinality.Proofs.Number.Parts

/-!
# Numbers in scientific notation

The double for `n * 10 ^ k` is one product or one quotient. If the factors are exact, the result is
the double that the number rounds to. For a short significand and a small power of ten the factors
are doubles themselves; otherwise they are natural numbers of any size.
-/

namespace PatternCardinality.Double

open Float.Model Float.Model.UnpackedFloat

section Operations

variable {v : ℚ} {a b m : ℕ} {i j e : ℤ} {ha : 0 < a} {hb : 0 < b}

/-- A product with as many bits as a double has is rounded to the double it rounds to. -/
theorem mul_eq_finiteOf (s t : Sign) (hwide : 2 ^ 52 ≤ a * b) (hm : Canonical m e)
    (h : RoundsTo v m e) (hv : a * 2 ^ i * (b * 2 ^ j) = v) :
    UnpackedFloat.mul Format.binary64 (.finite s a i ha) (.finite t b j hb) =
      finiteOf (s * t) m e := by
  have hpos : a * b ≠ 0 := (Nat.mul_pos ha hb).ne'
  rw [UnpackedFloat.mul]
  refine roundWithAccuracy_eq _ ?_ ?_ hm h
  · have hvalue : v / 2 ^ (i + j) = (a * b : ℕ) := by
      rw [← hv, zpow_add₀ two_ne_zero]
      push_cast
      field_simp
    rw [hvalue]
    exact stands_exact _
  · have hlog : 52 ≤ (a * b).log2 := (Nat.le_log2 hpos).mpr hwide
    have htarget : Format.binary64.targetExponent (totalExponent (a * b) (i + j)) =
      max ((a * b).log2 + 1 + (i + j) - 53) (-1074) := rfl
    omega

/-- The quotient is taken so far that it has as many bits as a double, unless its last place is
beyond those of a double anyway. -/
theorem quotient_wide (ha : 0 < a) (hb : 0 < b) {p : ℤ} {k : ℕ}
    (hp : p ≤ max ((a.log2 + 1 + i) - (b.log2 + 1 + j) - 53) (-1074)) (hk : i - j - p = k) :
    p ≤ Format.binary64.targetExponent (totalExponent (a * 2 ^ k / b) p) := by
  have htarget : Format.binary64.targetExponent (totalExponent (a * 2 ^ k / b) p) =
    max ((a * 2 ^ k / b).log2 + 1 + p - 53) (-1074) := rfl
  rw [htarget]
  by_cases hleast : p ≤ -1074
  · omega
  · have hbits : b.log2 + 53 ≤ a.log2 + k := by omega
    have hwide : 2 ^ 52 ≤ a * 2 ^ k / b := by
      rw [Nat.le_div_iff_mul_le hb]
      calc 2 ^ 52 * b ≤ 2 ^ 52 * 2 ^ (b.log2 + 1) :=
            Nat.mul_le_mul_left _ Nat.lt_log2_self.le
        _ = 2 ^ (b.log2 + 53) := by rw [← Nat.pow_add]; congr 1; omega
        _ ≤ 2 ^ (a.log2 + k) := Nat.pow_le_pow_right (by decide) hbits
        _ = 2 ^ a.log2 * 2 ^ k := Nat.pow_add _ _ _
        _ ≤ a * 2 ^ k := Nat.mul_le_mul_right _ (Nat.log2_self_le ha.ne')
    have hlog := (Nat.le_log2 (by omega)).mpr hwide
    omega

/-- A quotient is rounded to the double it rounds to. -/
theorem div_eq_finiteOf (s t : Sign) (hm : Canonical m e) (h : RoundsTo v m e)
    (hv : a * 2 ^ i / (b * 2 ^ j) = v) :
    UnpackedFloat.div Format.binary64 (.finite s a i ha) (.finite t b j hb) =
      finiteOf (s / t) m e := by
  have htarget : Format.binary64.targetExponent (totalExponent a i - totalExponent b j) =
    max ((a.log2 + 1 + i) - (b.log2 + 1 + j) - 53) (-1074) := rfl
  rw [UnpackedFloat.div, divCore]
  dsimp only
  rw [htarget, Nat.shiftLeft_eq]
  generalize hp : min (i - j) (max ((a.log2 + 1 + i) - (b.log2 + 1 + j) - 53) (-1074)) = p
  generalize hk : (i - j - p).toNat = k
  have hwide := quotient_wide ha hb (i := i) (j := j) (p := p) (k := k) (by omega) (by omega)
  refine roundWithAccuracy_eq _ ?_ hwide hm h
  have hvalue : v / 2 ^ p = ((a * 2 ^ k : ℕ) : ℚ) / b := by
    have hplace : i = k + p + j := by omega
    rw [← hv, hplace, zpow_add₀ two_ne_zero, zpow_add₀ two_ne_zero, zpow_natCast]
    push_cast
    field_simp
  rw [hvalue]
  exact stands_quotient _ hb

end Operations

section Factors

variable {n k : ℕ}

/-- A natural number that is a double, with all its bits in use. -/
def Exact (x : Float) (n : ℕ) : Prop :=
  ∃ p q, ∃ hp : 0 < p, x.toModel.unpack = .finite .positive p q hp ∧ 2 ^ 52 ≤ p ∧
    (p : ℚ) * 2 ^ q = n

theorem roundsTo_self (m : ℕ) (e : ℤ) : RoundsTo (m * 2 ^ e) m e := by
  have hunit : (0 : ℚ) < 2 ^ e := by positivity
  have hreach : 0 < reach m e := by
    rw [reach]
    split <;> norm_num
  exact ⟨.inl (mul_lt_mul_of_pos_right (by linarith) hunit),
    .inl (mul_lt_mul_of_pos_right (by linarith) hunit)⟩

/-- With zeros behind it a natural number fills the significand of a double. -/
theorem canonical_filled {j : ℕ} (hpos : 0 < n) (hj : n.log2 + j = 52) :
    Canonical (n * 2 ^ j) (-j) := by
  obtain ⟨hle, hlt⟩ := (Nat.log2_eq_iff hpos.ne').mp rfl
  refine ⟨?_, by omega, .inl ?_⟩
  · have hwidth : 53 = n.log2 + 1 + j := by omega
    rw [hwidth, Nat.pow_add]
    exact Nat.mul_lt_mul_of_pos_right hlt (Nat.two_pow_pos j)
  · rw [← hj, Nat.pow_add]
    exact Nat.mul_le_mul_right _ hle

/-- A natural number is converted by putting zeros behind it. -/
theorem ofUInt64_eq {j : ℕ} (hpos : 0 < n) (hj : n.log2 + j = 52) :
    UnpackedFloat.ofUInt64 Format.binary64 n.toUInt64 = finiteOf .positive (n * 2 ^ j) (-j) := by
  have hcanonical := canonical_filled hpos hj
  have hbelow : n < 2 ^ 53 := (Nat.log2_lt hpos.ne').mp (by omega)
  have hcast : n.toUInt64.toNat = n := Nat.mod_eq_of_lt (by omega)
  have htarget : Format.binary64.targetExponent (totalExponent n 0) = -j := by
    change max ((n.log2 : ℤ) + 1 + 0 - 53) (-1074) = -j
    omega
  have hshift : (0 - (-j : ℤ)).toNat = j := by omega
  rw [UnpackedFloat.ofUInt64, UnpackedFloat.ofNat, UnpackedFloat.ofInt, UnpackedFloat.normalize,
    hcast, Int.compare_eq_gt.mpr (by omega)]
  dsimp only
  rw [Int.toNat_natCast, UnpackedFloat.round, htarget, decreaseExponent, hshift, Int.zero_sub,
    Nat.shiftLeft_eq]
  refine roundWithAccuracy_eq (v := ((n * 2 ^ j : ℕ) : ℚ) * 2 ^ (-j : ℤ)) _ ?_ ?_ hcanonical
    (roundsTo_self _ _)
  · rw [mul_div_cancel_right₀ _ (by positivity)]
    exact stands_exact _
  · have hfull : 2 ^ 52 ≤ n * 2 ^ j := hcanonical.full.resolve_right (by omega)
    have hbits := (Nat.le_log2 (by omega)).mpr hfull
    change -(j : ℤ) ≤ max (((n * 2 ^ j).log2 : ℤ) + 1 + -(j : ℤ) - 53) (-1074)
    omega

/-- A natural number with at most as many bits as a double is one. -/
theorem exact_toFloat (hpos : 0 < n) (hn : n < 2 ^ 53) : Exact n.toUInt64.toFloat n := by
  have hlog : n.log2 < 53 := (Nat.log2_lt hpos.ne').mpr hn
  obtain ⟨j, hj⟩ : ∃ j : ℕ, n.log2 + j = 52 := ⟨52 - n.log2, by omega⟩
  have hcanonical := canonical_filled hpos hj
  have hfull : 2 ^ 52 ≤ n * 2 ^ j := hcanonical.full.resolve_right (by omega)
  refine ⟨n * 2 ^ j, -j, by omega, ?_, hfull, ?_⟩
  · change UnpackedFloat.unpack Format.binary64 (UnpackedFloat.pack Format.binary64
      (UnpackedFloat.ofUInt64 Format.binary64 n.toUInt64)) = _
    rw [ofUInt64_eq hpos hj, unpack_pack_finiteOf _ hcanonical (by omega), finiteOf,
      dif_neg (by omega)]
  · rw [zpow_neg, zpow_natCast]
    push_cast
    field_simp

/-- The place of the last bit of a power of ten that is a double. -/
def lastPlace (k : ℕ) : ℤ := (10 ^ k).log2 - 52

/-- A power of ten in units of its last place. -/
def significandOf (k : ℕ) : ℕ := 10 ^ k * 2 ^ (-lastPlace k).toNat / 2 ^ (lastPlace k).toNat

theorem powers_of_ten : ∀ k : Fin Float.exactlyRepresentablePowersOfTen.size,
    Float.exactlyRepresentablePowersOfTen[k].toBits =
        (magnitudeOf (significandOf k) (lastPlace k)).toBits ∧
      significandOf k * 2 ^ (lastPlace k).toNat = 10 ^ k.val * 2 ^ (-lastPlace k).toNat ∧
      2 ^ 52 ≤ significandOf k ∧ significandOf k < 2 ^ 53 ∧ -1074 ≤ lastPlace k ∧
      lastPlace k ≤ 971 := by
  decide +kernel

theorem exact_powerOfTen (hk : k < Float.exactlyRepresentablePowersOfTen.size) :
    Exact Float.exactlyRepresentablePowersOfTen[k] (10 ^ k) := by
  obtain ⟨hbits, hvalue, hfull, hbelow, hleast, htop⟩ := powers_of_ten ⟨k, hk⟩
  have hdouble := Float.toBits_inj.mp hbits
  have hpos : significandOf k ≠ 0 := by
    change significandOf (⟨k, hk⟩ : Fin _) ≠ 0
    omega
  refine ⟨significandOf k, lastPlace k, Nat.pos_of_ne_zero hpos, ?_, hfull, ?_⟩
  · change (Float.exactlyRepresentablePowersOfTen[(⟨k, hk⟩ : Fin _)]).toModel.unpack = _
    rw [hdouble, unpack_magnitudeOf ⟨hbelow, hleast, .inl hfull⟩ htop, finiteOf, dif_neg hpos]
  · have hvalue : (significandOf k : ℚ) * 2 ^ (lastPlace k).toNat =
        (10 ^ k : ℕ) * 2 ^ (-lastPlace k).toNat := by exact_mod_cast hvalue
    rw [zpow_eq_div two_ne_zero, ← mul_div_assoc, hvalue]
    exact mul_div_cancel_right₀ _ (by positivity)

variable {x y : Float} {a b m : ℕ} {e : ℤ}

/-- The product of exact doubles is the double that the product rounds to. -/
theorem Exact.mul (hx : Exact x a) (hy : Exact y b) (hm : Canonical m e)
    (h : RoundsTo (a * b) m e) : x * y = magnitudeOf m e := by
  obtain ⟨p, i, hp, hleft, hpfull, hpvalue⟩ := hx
  obtain ⟨q, j, hq, hright, -, hqvalue⟩ := hy
  have hwide : 2 ^ 52 ≤ p * q := hpfull.trans (Nat.le_mul_of_pos_right p hq)
  change Float.ofModel (Float.Model.pack (UnpackedFloat.mul Format.binary64 _ _)) = _
  rw [hleft, hright, mul_eq_finiteOf _ _ hwide hm h (by rw [hpvalue, hqvalue])]
  rfl

/-- The quotient of exact doubles is the double that the quotient rounds to. -/
theorem Exact.div (hx : Exact x a) (hy : Exact y b) (hm : Canonical m e)
    (h : RoundsTo (a / b) m e) : x / y = magnitudeOf m e := by
  obtain ⟨p, i, hp, hleft, -, hpvalue⟩ := hx
  obtain ⟨q, j, hq, hright, -, hqvalue⟩ := hy
  change Float.ofModel (Float.Model.pack (UnpackedFloat.div Format.binary64 _ _)) = _
  rw [hleft, hright, div_eq_finiteOf _ _ hm h (by rw [hpvalue, hqvalue])]
  rfl

end Factors

section Scientific

variable {v : ℚ} {n m : ℕ} {k e : ℤ}

/-- Below half of the least double a number rounds to zero. -/
theorem RoundsTo.eq_zero (h : RoundsTo v m e) (hm : Canonical m e) (hv : v < 2 ^ (-1075 : ℤ)) :
    m = 0 := by
  by_contra hpos
  have hcast : (1 : ℚ) ≤ m := by exact_mod_cast Nat.pos_of_ne_zero hpos
  have hreach := reach_le m e
  have hlow : (2 : ℚ) ^ (-1075 : ℤ) ≤ v :=
    calc (2 : ℚ) ^ (-1075 : ℤ) = 1 / 2 * 2 ^ (-1074 : ℤ) := by
          rw [show (-1075 : ℤ) = -1074 - 1 from rfl, zpow_sub_one₀ two_ne_zero]
          ring
      _ ≤ (m - reach m e) * 2 ^ e :=
        mul_le_mul (by linarith) (zpow_le_zpow_right₀ one_le_two hm.least) (by positivity)
          (by linarith)
      _ ≤ v := h.bounds.1
  exact absurd hv (not_lt.mpr hlow)

/-- What rounds to a double is not beyond all of them. -/
theorem RoundsTo.lt_top (h : RoundsTo v m e) (hm : Canonical m e) (he : e ≤ 971) :
    v < 2 ^ 1024 := by
  have hcast : (m : ℚ) + 1 ≤ 2 ^ 53 := by exact_mod_cast hm.below
  calc v ≤ (m + 1 / 2) * 2 ^ e := h.bounds.2
    _ < 2 ^ 53 * 2 ^ e := mul_lt_mul_of_pos_right (by linarith) (by positivity)
    _ ≤ 2 ^ 53 * 2 ^ (971 : ℤ) :=
      mul_le_mul_of_nonneg_left (zpow_le_zpow_right₀ one_le_two he) (by positivity)
    _ = 2 ^ 1024 := by
      rw [← two_zpow_add]
      rfl

theorem two_pow_le_ten_zpow {j : ℕ} (h : (j : ℤ) ≤ k) : (2 : ℚ) ^ j ≤ 10 ^ k :=
  calc (2 : ℚ) ^ j ≤ 10 ^ j := pow_le_pow_left₀ (by norm_num) (by norm_num) j
    _ = 10 ^ (j : ℤ) := (zpow_natCast _ j).symm
    _ ≤ 10 ^ k := zpow_le_zpow_right₀ (by norm_num) h

/-- A decimal whose digits come far behind the point is below half of the least double. -/
theorem lt_of_exponent_lt (hk : k < -(2048 + n.log2)) : (n : ℚ) * 10 ^ k < 2 ^ (-1075 : ℤ) := by
  have hlog : (n : ℚ) < 2 ^ (n.log2 + 1 : ℤ) := by exact_mod_cast Nat.lt_log2_self
  have htens : (10 : ℚ) ^ k ≤ 2 ^ k := by
    have hpow := two_pow_le_ten_zpow (k := -k) (j := (-k).toNat) (by omega)
    rw [← neg_neg k, zpow_neg, zpow_neg _ (-k)]
    refine inv_anti₀ (by positivity) (le_of_eq_of_le ?_ hpow)
    rw [← zpow_natCast, Int.toNat_of_nonneg (by omega)]
  calc (n : ℚ) * 10 ^ k < 2 ^ (n.log2 + 1 : ℤ) * 2 ^ k :=
        mul_lt_mul hlog htens (by positivity) (by positivity)
    _ = 2 ^ (n.log2 + 1 + k : ℤ) := (zpow_add₀ two_ne_zero _ _).symm
    _ ≤ 2 ^ (-1075 : ℤ) := zpow_le_zpow_right₀ one_le_two (by omega)

/-- A decimal whose digits come far before the point is beyond all doubles. -/
theorem le_of_exponent_gt (hn : 0 < n) (hk : 1024 ≤ k) : (2 : ℚ) ^ 1024 ≤ n * 10 ^ k := by
  have hcast : (1 : ℚ) ≤ n := by exact_mod_cast hn
  exact (two_pow_le_ten_zpow hk).trans (le_mul_of_one_le_left (by positivity) hcast)

theorem ofScientific_unpacked (hn : 0 < n) (hm : Canonical m e) (he : e ≤ 971)
    (h : RoundsTo (n * 10 ^ k) m e) :
    UnpackedFloat.ofScientific Format.binary64 n k = finiteOf .positive m e := by
  have hbits : (2 : ℤ) ^ Format.binary64.exponentBits = 2048 := rfl
  rw [UnpackedFloat.ofScientific, dif_neg hn.ne', hbits]
  split
  · next hlarge =>
    exact absurd (h.lt_top hm he) (not_lt.mpr (le_of_exponent_gt hn (by omega)))
  · split
    · next hsmall =>
      obtain rfl := h.eq_zero hm (lt_of_exponent_lt hsmall)
      rfl
    · split
      · next hnonneg =>
        obtain ⟨j, rfl⟩ : ∃ j : ℕ, k = j := ⟨k.toNat, by omega⟩
        refine mul_eq_finiteOf _ _ ?_ hm h ?_
        · calc 2 ^ 52 ≤ n * 2 ^ 53 * 1 := by omega
            _ ≤ n <<< 53 * 10 ^ j := by
              rw [Nat.shiftLeft_eq]
              exact Nat.mul_le_mul_left _ (Nat.one_le_pow _ _ (by decide))
        · change ((n <<< 53 : ℕ) : ℚ) * 2 ^ (-((53 : ℕ) : ℤ)) * ((10 ^ j : ℕ) * 2 ^ (0 : ℤ)) = _
          rw [Nat.shiftLeft_eq, zpow_neg, zpow_natCast, zpow_natCast, zpow_zero]
          push_cast
          field_simp
          norm_num
      · next hneg =>
        obtain ⟨j, rfl⟩ : ∃ j : ℕ, k = -j := ⟨(-k).toNat, by omega⟩
        refine div_eq_finiteOf _ _ hm h ?_
        rw [Int.neg_neg, Int.toNat_natCast, zpow_neg, zpow_natCast, zpow_zero]
        push_cast
        field_simp

/-- A number in scientific notation becomes the double that it rounds to. -/
theorem ofScientific_eq (hn : 0 < n) (hm : Canonical m e) (he : e ≤ 971)
    (h : RoundsTo (n * 10 ^ k) m e) :
    Float.ofScientific n (decide (k < 0)) k.natAbs = magnitudeOf m e := by
  rw [Float.ofScientific]
  simp only [decide_eq_true_eq]
  split
  · next hfast =>
    have hleft := exact_toFloat hn hfast.1
    have hright := exact_powerOfTen (k := k.natAbs) (Nat.lt_succ_of_le hfast.2)
    split
    · next hneg =>
      obtain ⟨j, rfl⟩ : ∃ j : ℕ, k = -j := ⟨k.natAbs, by omega⟩
      refine hleft.div hright hm ?_
      rw [zpow_neg, zpow_natCast, ← div_eq_mul_inv] at h
      rw [Int.natAbs_neg, Int.natAbs_natCast]
      exact_mod_cast h
    · next hnonneg =>
      obtain ⟨j, rfl⟩ : ∃ j : ℕ, k = j := ⟨k.natAbs, by omega⟩
      refine hleft.mul hright hm ?_
      rw [zpow_natCast] at h
      rw [Int.natAbs_natCast]
      exact_mod_cast h
  · have hexponent : (if k < 0 then Int.negOfNat k.natAbs else Int.ofNat k.natAbs) = k := by
      rw [Int.negOfNat_eq, Int.ofNat_eq_natCast]
      split <;> omega
    change Float.ofModel (Float.Model.pack (UnpackedFloat.ofScientific Format.binary64 n _)) = _
    rw [hexponent, ofScientific_unpacked hn hm he h]
    rfl

end Scientific

end PatternCardinality.Double
