import Mathlib
import PatternCardinality.Decimal.Shortest
import PatternCardinality.Proofs.Number.Rounding

/-!
# The parts of a double

A finite double has a sign, a significand and an exponent. They are read from its bits, and they are
read again after they were packed, so that a double is known by them and its negative differs from
it in the sign alone.
-/

namespace PatternCardinality.Double

open Float.Model Float.Model.UnpackedFloat

section Patterns

variable {s : Sign} {m : ℕ} {e : ℤ}

/-- What is where rounding puts it, and not too large, is unpacked again after it was packed. -/
theorem unpack_pack_finiteOf (s : Sign) (hm : Canonical m e) (he : e ≤ 971) :
    UnpackedFloat.unpack Format.binary64 (UnpackedFloat.pack Format.binary64 (finiteOf s m e)) =
      finiteOf s m e := by
  obtain ⟨hbelow, hleast, hfull⟩ := hm
  rw [finiteOf]
  split
  · exact unpack_packedZero
  · next hpos =>
    have hbias : (e + (Format.binary64.exponentBias : ℤ) +
        (Format.binary64.mantissaBitsWithoutImplicit : ℤ)).toNat = (e + 1075).toNat := by
      rw [Int.add_assoc]
      rfl
    have hsmall : ¬2 ^ Format.binary64.exponentBits ≤ (e + 1075).toNat + 1 := by
      change ¬2048 ≤ (e + 1075).toNat + 1
      omega
    have hwidth : m.log2 + 1 = Format.binary64.mantissaBits ↔ 2 ^ 52 ≤ m := by
      have hlog : m.log2 < 53 := (Nat.log2_lt hpos).mpr hbelow
      have hnormal : 52 ≤ m.log2 ↔ 2 ^ 52 ≤ m := Nat.le_log2 hpos
      change m.log2 + 1 = 53 ↔ _
      omega
    rw [UnpackedFloat.pack, hbias, if_neg hsmall, unpack_eq]
    simp only [hwidth]
    split
    · next hnormal =>
      have hexponent : (BitVec.ofNat Format.binary64.exponentBits (e + 1075).toNat).toNat =
          (e + 1075).toNat := Nat.mod_eq_of_lt (by change _ < 2048; omega)
      have hmantissa : (BitVec.ofNat Format.binary64.mantissaBitsWithoutImplicit m).toNat =
          m - 2 ^ 52 := by
        change m % 2 ^ 52 = m - 2 ^ 52
        omega
      have hfinite : BitVec.ofNat Format.binary64.exponentBits (e + 1075).toNat ≠ -1#_ := by
        intro h
        have htop : (e + 1075).toNat = 2047 := hexponent.symm.trans (congrArg BitVec.toNat h)
        omega
      have hplace : ((e + 1075).toNat : ℤ) - 1075 = e := by omega
      rw [unpackExponent_packComponents, unpackMantissa_packComponents, unpackSign_packComponents,
        if_neg hfinite, hexponent, if_neg (by omega), hmantissa, hplace,
        Nat.add_sub_cancel' hnormal, Sign.ofBitVec_toBitVec, finiteOf, dif_neg hpos]
    · next hsubnormal =>
      have hmantissa : (BitVec.ofNat Format.binary64.mantissaBitsWithoutImplicit m).toNat = m :=
        Nat.mod_eq_of_lt (not_le.mp hsubnormal)
      obtain rfl : e = -1074 := hfull.resolve_left hsubnormal
      rw [unpackExponent_packComponents, unpackMantissa_packComponents, unpackSign_packComponents,
        if_neg (by decide), if_pos (show (0#11).toNat = 0 from rfl), hmantissa,
        Sign.ofBitVec_toBitVec, finiteOf, dif_neg hpos]

end Patterns

/-- The double with a significand and an exponent. -/
def magnitudeOf (m : ℕ) (e : ℤ) : Float := Float.ofModel (Float.Model.pack (finiteOf .positive m e))

/-- What a finite double is made of. -/
structure Parts (x : Float) (s : Sign) (m : ℕ) (e : ℤ) : Prop where
  unpacked : x.toModel.unpack = finiteOf s m e
  canonical : Canonical m e
  top : e ≤ 971
  sign : isNegative x = true ↔ s = .negative
  binary : Decimal.Binary.ofBits x.toBits = ⟨m, e, decide (m = 2 ^ 52 ∧ -1074 < e)⟩

section Bits

variable {x : Float}

/-- The bits of a double are its sign, its exponent and its significand without the leading bit. -/
theorem toNat_fields (x : Float) :
    (@unpackSign Format.binary64 x.toModel.toBits.toBitVec).toNat = x.toBits.toNat / 2 ^ 63 ∧
      (@unpackExponent Format.binary64 x.toModel.toBits.toBitVec).toNat =
        x.toBits.toNat / 2 ^ 52 % 2 ^ 11 ∧
      (@unpackMantissa Format.binary64 x.toModel.toBits.toBitVec).toNat =
        x.toBits.toNat % 2 ^ 52 := by
  have hbits : x.toModel.toBits.toBitVec.toNat = x.toBits.toNat := rfl
  refine ⟨?_, ?_, ?_⟩
  · have hlt := x.toBits.toNat_lt
    rw [unpackSign_def, BitVec.extractLsb'_toNat, hbits, Nat.shiftRight_eq_div_pow]
    simp only
    omega
  · rw [unpackExponent_def, BitVec.extractLsb'_toNat, hbits, Nat.shiftRight_eq_div_pow]
  · rw [unpackMantissa_def, BitVec.extractLsb'_toNat, hbits]
    rfl

theorem isNegative_iff : isNegative x = true ↔
    Sign.ofBitVec (@unpackSign Format.binary64 x.toModel.toBits.toBitVec) = .negative := by
  have hbit : isNegative x = true ↔ x.toBits.toNat / 2 ^ 63 = 1 := by
    rw [isNegative, beq_iff_eq, ← UInt64.toNat_inj, UInt64.toNat_shiftRight,
      Nat.shiftRight_eq_div_pow]
    rfl
  rw [hbit, ← (toNat_fields x).1]
  rcases BitVec.eq_zero_or_eq_one (@unpackSign Format.binary64 x.toModel.toBits.toBitVec) with h | h
  · simp [h, Sign.ofBitVec]
  · simp [h, Sign.ofBitVec]

theorem ofBits_eq (bits : UInt64) : Decimal.Binary.ofBits bits =
    if bits.toNat / 2 ^ 52 % 2 ^ 11 = 0 then ⟨bits.toNat % 2 ^ 52, -1074, false⟩
    else ⟨2 ^ 52 + bits.toNat % 2 ^ 52, (bits.toNat / 2 ^ 52 % 2 ^ 11 : ℕ) - 1075,
      decide (bits.toNat % 2 ^ 52 = 0 ∧ 1 < bits.toNat / 2 ^ 52 % 2 ^ 11)⟩ := by
  have hfield : ((bits >>> 52) &&& 0x7FF).toNat = bits.toNat / 2 ^ 52 % 2 ^ 11 := by
    rw [UInt64.toNat_and, UInt64.toNat_shiftRight, Nat.shiftRight_eq_div_pow]
    exact Nat.and_two_pow_sub_one_eq_mod _ 11
  have hfraction : (bits &&& 0xFFFFFFFFFFFFF).toNat = bits.toNat % 2 ^ 52 := by
    rw [UInt64.toNat_and]
    exact Nat.and_two_pow_sub_one_eq_mod _ 52
  rw [Decimal.Binary.ofBits, hfield, hfraction]
  rfl

theorem exists_parts (h : x.isFinite = true) : ∃ s m e, Parts x s m e := by
  obtain ⟨-, hexponent, hmantissa⟩ := toNat_fields x
  have hsign := isNegative_iff (x := x)
  have hbinary := ofBits_eq x.toBits
  have hunpack : x.toModel.unpack = _ := unpack_eq x.toModel.toBits.toBitVec
  change x.toModel.unpack.isFinite = true at h
  rw [← hexponent, ← hmantissa] at hbinary
  clear hexponent hmantissa
  generalize Sign.ofBitVec (@unpackSign Format.binary64 x.toModel.toBits.toBitVec) = s at *
  generalize @unpackExponent Format.binary64 x.toModel.toBits.toBitVec = exponent at *
  generalize @unpackMantissa Format.binary64 x.toModel.toBits.toBitVec = mantissa at *
  have hbelow : mantissa.toNat < 2 ^ 52 := mantissa.isLt
  have hfield : exponent.toNat < 2 ^ 11 := exponent.isLt
  split at hunpack
  · split at hunpack <;> (rw [hunpack] at h; cases h)
  · next hfinite =>
    have htop : exponent.toNat ≠ 2047 := fun htop => hfinite (BitVec.eq_of_toNat_eq htop)
    split at hunpack
    · next hzero =>
      rw [if_pos hzero] at hbinary
      exact ⟨s, mantissa.toNat, -1074, hunpack, ⟨by omega, le_rfl, .inr rfl⟩, by decide, hsign,
        by simpa using hbinary⟩
    · next hnormal =>
      rw [if_neg hnormal] at hbinary
      refine ⟨s, 2 ^ 52 + mantissa.toNat, exponent.toNat - 1075, hunpack,
        ⟨by omega, by omega, .inl (by omega)⟩, by omega, hsign, ?_⟩
      rw [hbinary, Decimal.Binary.mk.injEq]
      refine ⟨rfl, rfl, decide_eq_decide.mpr ?_⟩
      omega

theorem not_isNaN_of_isFinite (h : x.isFinite = true) : x.isNaN = false ∧ x.isInf = false := by
  obtain ⟨s, m, e, hparts⟩ := exists_parts h
  change x.toModel.unpack.isNaN = false ∧ x.toModel.unpack.isInf = false
  rw [hparts.unpacked, finiteOf]
  split <;> exact ⟨rfl, rfl⟩

end Bits

section Sign

variable {x : Float} {s : Sign} {m : ℕ} {e : ℤ}

theorem neg_finiteOf (s : Sign) (m : ℕ) (e : ℤ) : (finiteOf s m e).neg = finiteOf (-s) m e := by
  rw [finiteOf, finiteOf]
  split <;> rfl

theorem unpack_magnitudeOf (hm : Canonical m e) (he : e ≤ 971) :
    (magnitudeOf m e).toModel.unpack = finiteOf .positive m e :=
  unpack_pack_finiteOf .positive hm he

/-- A double is its magnitude with its sign. -/
theorem Parts.signed_magnitudeOf (h : Parts x s m e) :
    (if isNegative x then -magnitudeOf m e else magnitudeOf m e) = x := by
  have hx := pack_unpack x
  rw [h.unpacked] at hx
  cases s with
  | negative =>
    rw [if_pos (h.sign.mpr rfl)]
    change Float.ofModel (Float.Model.pack (magnitudeOf m e).toModel.unpack.neg) = x
    rw [unpack_magnitudeOf h.canonical h.top, neg_finiteOf]
    exact hx
  | positive =>
    rw [if_neg (fun hneg => by cases h.sign.mp hneg)]
    exact hx

end Sign

end PatternCardinality.Double
