import Mathlib
import PatternCardinality.Number.Double

/-!
# Unpacked doubles and the product with one

A double that is unpacked has its significand where rounding puts it. Multiplied by one it is
shifted by the width of the significand and rounded back to where it was, so nothing is lost.
-/

namespace PatternCardinality.Double

open Float.Model Float.Model.UnpackedFloat

/-- A significand and an exponent as a double stores them: all bits are used unless the exponent is
the least. -/
structure Canonical (m : ℕ) (e : ℤ) : Prop where
  below : m < 2 ^ 53
  least : -1074 ≤ e
  full : 2 ^ 52 ≤ m ∨ e = -1074

/-- The double with a sign, a significand and an exponent, before it is packed. -/
def finiteOf (s : Sign) (m : ℕ) (e : ℤ) : UnpackedFloat :=
  if hzero : m = 0 then .zero s else .finite s m e (Nat.pos_of_ne_zero hzero)

/-- A pattern of bits is unpacked by its exponent. -/
theorem unpack_eq (b : BitVec Format.binary64.numBits) :
    UnpackedFloat.unpack Format.binary64 b =
      if unpackExponent b = -1#_ then
        if unpackMantissa b = 0#_ then .infinity (.ofBitVec (unpackSign b)) else .notANumber
      else if (unpackExponent b).toNat = 0 then
        finiteOf (.ofBitVec (unpackSign b)) (unpackMantissa b).toNat (-1074)
      else
        finiteOf (.ofBitVec (unpackSign b)) (2 ^ 52 + (unpackMantissa b).toNat)
          ((unpackExponent b).toNat - 1075) := by
  have hunit : ((Format.binary64.exponentBias : ℤ) +
    (Format.binary64.mantissaBitsWithoutImplicit : ℤ)) = 1075 := rfl
  have hsum : (1#1 ++ unpackMantissa b).toNat = 2 ^ 52 + (unpackMantissa b).toNat := by
    rw [BitVec.toNat_append, ← Nat.shiftLeft_add_eq_or_of_lt (unpackMantissa b).isLt]
    rfl
  have hnone : ∀ {k : ℕ} (v : BitVec k), v = 0#k ↔ v.toNat = 0 := fun v =>
    ⟨fun h => by rw [h]; rfl, fun h => BitVec.eq_of_toNat_eq h⟩
  rw [UnpackedFloat.unpack, hunit]
  split
  · rfl
  · split
    · next hzero =>
      rw [if_pos ((hnone _).mp hzero), finiteOf]
      have hleast : ((unpackExponent b).toNat : ℤ) - 1075 + 1 = -1074 := by
        rw [(hnone _).mp hzero]
        rfl
      simp only [hnone, hleast]
    · next hnormal =>
      rw [if_neg (fun h => hnormal ((hnone _).mpr h)), finiteOf, dif_neg (by omega)]
      simp only [hsum]

/-- A finite pattern is unpacked to a significand that is where rounding puts it. -/
theorem canonical_of_unpack {b : BitVec Format.binary64.numBits} {s : Sign} {m : ℕ} {e : ℤ}
    {hm : 0 < m} (h : UnpackedFloat.unpack Format.binary64 b = .finite s m e hm) :
    Canonical m e := by
  have hmantissa : (unpackMantissa b).toNat < 2 ^ 52 := (unpackMantissa b).isLt
  rw [unpack_eq] at h
  split at h
  · split at h <;> cases h
  · split at h
    · rw [finiteOf] at h
      split at h
      · cases h
      · cases h
        exact ⟨by omega, le_rfl, .inr rfl⟩
    · rw [finiteOf, dif_neg (by omega)] at h
      cases h
      exact ⟨by omega, by omega, .inl (by omega)⟩

section Rounding

variable {m : ℕ} {e : ℤ}

/-- Zero bits may be shifted out. -/
theorem shiftRight_mul (m k : ℕ) :
    (⟨m * 2 ^ k, false, false⟩ : ExtendedMantissa) >>> k = ⟨m, false, false⟩ := by
  change Nat.repeat ExtendedMantissa.shiftRightOne k ⟨m * 2 ^ k, false, false⟩ = _
  induction k generalizing m with
  | zero => simp [Nat.repeat]
  | succ k ih =>
    have hdouble : m * 2 ^ (k + 1) = m * 2 * 2 ^ k := by
      rw [Nat.pow_succ']
      exact (Nat.mul_assoc m 2 (2 ^ k)).symm
    rw [Nat.repeat, hdouble, ih]
    simp [ExtendedMantissa.shiftRightOne]

/-- A significand with zeros behind it counts in places as much smaller. -/
theorem totalExponent_shifted (hm : 0 < m) (e : ℤ) (k : ℕ) :
    totalExponent (m * 2 ^ k) (e - k) = totalExponent m e := by
  have hlog : (m * 2 ^ k).log2 = m.log2 + k := by
    obtain ⟨hle, hlt⟩ := (Nat.log2_eq_iff hm.ne').mp rfl
    refine (Nat.log2_eq_iff (Nat.mul_pos hm (Nat.two_pow_pos k)).ne').mpr ⟨?_, ?_⟩
    · rw [Nat.pow_add]
      exact Nat.mul_le_mul_right _ hle
    · rw [Nat.add_right_comm, Nat.pow_add]
      exact Nat.mul_lt_mul_of_pos_right hlt (Nat.two_pow_pos k)
  rw [totalExponent, totalExponent, hlog]
  push_cast
  omega

variable (hm : 0 < m) (h : Canonical m e)

include hm h

theorem targetExponent_of_canonical :
    Format.binary64.targetExponent (totalExponent m e) = e := by
  obtain ⟨hbelow, hleast, hfull⟩ := h
  have hlog : m.log2 < 53 := (Nat.log2_lt hm.ne').mpr hbelow
  have hfull : 52 ≤ m.log2 ∨ e = -1074 := hfull.imp_left (Nat.le_log2 hm.ne').mpr
  have hmin : Format.binary64.minExponent = -1074 := rfl
  have hbits : (Format.binary64.mantissaBits : ℤ) = 53 := rfl
  rw [Format.targetExponent, totalExponent, hmin, hbits]
  omega

theorem shift_canonical :
    shiftToTargetExponent Format.binary64 m e .exact = (⟨m, false, false⟩, e) := by
  rw [shiftToTargetExponent, targetExponent_of_canonical hm h, shiftToExponent, Int.sub_self]
  simp [ExtendedMantissa.ofMantissaAndAccuracy, HShiftRight.hShiftRight, Nat.repeat]

theorem shift_shifted :
    shiftToTargetExponent Format.binary64 (m * 2 ^ 52) (e + -52) .exact =
      (⟨m, false, false⟩, e) := by
  have hamount : (e - (e + -52)).toNat = 52 := by omega
  have htotal : totalExponent (m * 2 ^ 52) (e + -52) = totalExponent m e :=
    totalExponent_shifted hm e 52
  rw [shiftToTargetExponent, htotal, targetExponent_of_canonical hm h,
    shiftToExponent, hamount, ExtendedMantissa.ofMantissaAndAccuracy, shiftRight_mul]
  exact congrArg (_, ·) (Int.neg_add_cancel_right e 52)

/-- Rounding undoes the shift by the width of the significand. -/
theorem roundWithAccuracy_shifted (s : Sign) :
    roundWithAccuracy Format.binary64 s (m * 2 ^ 52) (e + -52) .exact = .finite s m e hm := by
  have hrounded : (⟨m, false, false⟩ : ExtendedMantissa).roundedMantissa = m := rfl
  simp only [roundWithAccuracy, shift_shifted hm h, hrounded, shift_canonical hm h, hm.ne',
    ↓reduceDIte]

end Rounding

variable (x : Float)

theorem unpack_mul_one :
    UnpackedFloat.mul Format.binary64 x.toModel.unpack (1.0 : Float).toModel.unpack =
      x.toModel.unpack := by
  have hone : (1.0 : Float).toModel.unpack = .finite .positive (2 ^ 52) (-52) (by decide) := rfl
  have hsign : ∀ s : Sign, s * .positive = s := by
    intro s
    cases s <;> rfl
  rw [hone]
  cases hx : x.toModel.unpack with
  | notANumber => rfl
  | infinity s => rw [UnpackedFloat.mul, hsign]
  | zero s => rw [UnpackedFloat.mul, hsign]
  | finite s m e hm =>
    rw [UnpackedFloat.mul, hsign]
    exact roundWithAccuracy_shifted hm (canonical_of_unpack hx) s

/-- A double is packed again to what it was. -/
theorem pack_unpack : Float.ofModel (Float.Model.pack x.toModel.unpack) = x := by
  have hmodel : Float.Model.pack x.toModel.unpack = x.toModel := by
    rw [Float.Model.pack, Float.Model.mk.injEq]
    exact congrArg UInt64.ofBitVec (pack_unpack_of_valid x.toModel.valid)
  rw [hmodel]

/-- Multiplying by one changes no double, not even what is not a number. -/
theorem mul_one : x * 1.0 = x := by
  change Float.ofModel (Float.Model.pack (UnpackedFloat.mul Format.binary64 x.toModel.unpack
    (1.0 : Float).toModel.unpack)) = x
  rw [unpack_mul_one, pack_unpack]

end PatternCardinality.Double
