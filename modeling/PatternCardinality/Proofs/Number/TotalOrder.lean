import Mathlib
import PatternCardinality.Proofs.Number.Addition

/-!
# The total order of doubles

The bits of doubles that are numbers are in the order of the numbers, and of the two zeros, which
are equal, the negative one comes first. So numbers that this order does not tell apart are the
same. With the larger ones in front and what is no number before all others, every two doubles are
in order.
-/

namespace PatternCardinality.Double

open Float.Model Float.Model.UnpackedFloat

/-- Magnitudes with a sign in front, counted downwards below zero. -/
def signed : Sign → ℤ → ℤ
  | .positive, k => k
  | .negative, k => -1 - k

/-- The bits of a number as its place among all numbers. -/
def unpackedKey : UnpackedFloat → ℤ
  | .infinity s => signed s (2047 * 2 ^ 52)
  | .finite s m e _ => signed s ((e + 1074) * 2 ^ 52 + m)
  | .zero s => signed s 0
  | .notANumber => 0

theorem unpackedKey_finiteOf (s : Sign) {m : ℕ} {e : ℤ} (h : m = 0 → e = -1074) :
    unpackedKey (finiteOf s m e) = signed s ((e + 1074) * 2 ^ 52 + m) := by
  rw [finiteOf]
  split
  · next hzero =>
    rw [h hzero, hzero]
    rfl
  · rfl

variable {x y : Float}

/-- The bits behind the sign are the exponent and the significand. -/
theorem toNat_magnitude (x : Float) : (x.toBits &&& 0x7FFFFFFFFFFFFFFF).toNat =
    x.toBits.toNat / 2 ^ 52 % 2 ^ 11 * 2 ^ 52 + x.toBits.toNat % 2 ^ 52 := by
  have hmod : (x.toBits &&& 0x7FFFFFFFFFFFFFFF).toNat = x.toBits.toNat % 2 ^ 63 := by
    rw [UInt64.toNat_and]
    exact Nat.and_two_pow_sub_one_eq_mod _ 63
  omega

theorem orderKey_eq (hx : (x == x) = true) : orderKey x = unpackedKey x.toModel.unpack := by
  have hmagnitude := toNat_magnitude x
  have hnegative := isNegative_iff (x := x)
  obtain ⟨-, hexponent, hmantissa⟩ := toNat_fields x
  have hunpack : x.toModel.unpack = _ := unpack_eq x.toModel.toBits.toBitVec
  rw [beq_self_iff] at hx
  rw [← hexponent, ← hmantissa] at hmagnitude
  rw [orderKey, hmagnitude]
  clear hexponent hmantissa hmagnitude
  generalize Sign.ofBitVec (@unpackSign Format.binary64 x.toModel.toBits.toBitVec) = s at *
  generalize @unpackExponent Format.binary64 x.toModel.toBits.toBitVec = exponent at *
  generalize @unpackMantissa Format.binary64 x.toModel.toBits.toBitVec = mantissa at *
  have hsigned : ∀ k : ℤ, (if isNegative x = true then -1 - k else k) = signed s k := by
    intro k
    cases s with
    | positive => exact if_neg (fun h => by cases hnegative.mp h)
    | negative => exact if_pos (hnegative.mpr rfl)
  dsimp only
  rw [hsigned]
  split at hunpack
  · next hinfinite =>
    have hall : exponent.toNat = 2047 := congrArg BitVec.toNat hinfinite
    split at hunpack
    · next hnone =>
      have hzero : mantissa.toNat = 0 := congrArg BitVec.toNat hnone
      rw [hunpack, hall, hzero]
      rfl
    · exact absurd hunpack hx
  · split at hunpack
    · next hzero =>
      rw [hunpack, hzero, unpackedKey_finiteOf s (fun _ => rfl)]
      congr 1
    · next hnormal =>
      rw [hunpack, unpackedKey_finiteOf s (fun h => by omega)]
      congr 1
      push_cast
      omega

/-- A number whose significand and exponent are as doubles have them. -/
def Stored (a : UnpackedFloat) : Prop :=
  a ≠ .notANumber ∧ ∀ s m e hm, a = .finite s m e hm → Canonical m e ∧ e ≤ 971

theorem stored_unpack (hx : (x == x) = true) : Stored x.toModel.unpack :=
  ⟨beq_self_iff.mp hx, fun _ _ _ _ h => canonical_of_finite h⟩

/-- Bits are in order as signs, exponents and significands are, but that zero has a sign. -/
theorem unpackedKey_lt_iff {a b : UnpackedFloat} (ha : Stored a) (hb : Stored b) :
    unpackedKey a < unpackedKey b ↔
      unpackedPlace a < unpackedPlace b ∨ a = .zero .negative ∧ b = .zero .positive := by
  obtain ⟨hanumber, hafinite⟩ := ha
  obtain ⟨hbnumber, hbfinite⟩ := hb
  rcases a with s | _ | s | ⟨s, m, e, hm⟩ <;> rcases b with t | _ | t | ⟨t, n, d, hn⟩ <;>
    try cases s <;> try cases t
  all_goals try contradiction
  -- a significand stays below one of the next exponent, so exponents decide before significands
  all_goals
    try obtain ⟨⟨ha1, ha2, ha3⟩, ha4⟩ := hafinite _ _ _ _ rfl
    try obtain ⟨⟨hb1, hb2, hb3⟩, hb4⟩ := hbfinite _ _ _ _ rfl
    simp [unpackedKey, signed, unpackedPlace, Prod.Lex.lt_iff]
    try omega

theorem unpack_eq_zero_iff (s : Sign) : x.toModel.unpack = .zero s ↔
    x = match s with | .positive => 0.0 | .negative => -0.0 := by
  constructor
  · intro h
    cases s <;> exact eq_of_unpack h
  · rintro rfl
    cases s <;> rfl

section Numbers

variable (hx : (x == x) = true) (hy : (y == y) = true)

include hx hy

/-- Numbers are in the total order as they compare, with negative zero below zero. -/
theorem orderKey_lt_iff : orderKey x < orderKey y ↔ x < y ∨ x = -0.0 ∧ y = 0.0 := by
  rw [orderKey_eq hx, orderKey_eq hy, unpackedKey_lt_iff (stored_unpack hx) (stored_unpack hy),
    unpack_eq_zero_iff, unpack_eq_zero_iff, lt_iff_place]
  simp only [hx, hy, true_and, place]

/-- Only the same number is at the same place. -/
theorem orderKey_inj : orderKey x = orderKey y ↔ x = y := by
  refine ⟨fun h => ?_, fun h => by rw [h]⟩
  have hlt := (orderKey_lt_iff hx hy).not.mp h.not_lt
  have hgt := (orderKey_lt_iff hy hx).not.mp h.not_gt
  have hequal := (beq_iff_not_lt hx hy).mpr ⟨fun h => hlt (.inl h), fun h => hgt (.inl h)⟩
  rcases compare_eq_eq_iff.mp (beq_iff.mp hequal) with ⟨s, t, hs, ht⟩ | ⟨hsame, -⟩
  · rw [unpack_eq_zero_iff] at hs ht
    cases s with
    | positive =>
      cases t with
      | positive => rw [hs, ht]
      | negative => exact absurd (.inr ⟨ht, hs⟩) hgt
    | negative =>
      cases t with
      | positive => exact absurd (.inr ⟨hs, ht⟩) hlt
      | negative => rw [hs, ht]
  · exact eq_of_unpack hsame

end Numbers

/-- In front of a number are larger ones and what is no number, and zero stands in front of negative
zero. -/
def Ahead (x y : Float) : Prop :=
  (y == y) = true ∧ ((x == x) = false ∨ y < x ∨ y = -0.0 ∧ x = 0.0)

/-- Doubles are level if they are the same or none of them is a number. -/
def Level (x y : Float) : Prop := x = y ∨ (x == x) = false ∧ (y == y) = false

/-- Larger numbers have smaller ranks, and what is no number has none. -/
def rank? (x : Float) : Option ℤ := if x == x then some (-orderKey x) else none

theorem compareDescending_eq (x y : Float) :
    Scalar.compareDescending x y = compare (rank? x) (rank? y) := by
  have hneg : compare (orderKey y) (orderKey x) = compare (-orderKey x) (-orderKey y) := by
    have hanti : StrictAnti (fun n : ℤ => -n) := fun _ _ h => neg_lt_neg h
    rw [← cmp_eq_compare, ← cmp_eq_compare, hanti.cmp_map_eq]
  simp only [Scalar.compareDescending, Scalar.isNaN, rank?]
  cases x == x <;> cases y == y
  · rfl
  · rfl
  · rfl
  · exact hneg

instance : Std.TransCmp (Scalar.compareDescending (α := Float)) := by
  have hrank : Scalar.compareDescending (α := Float) = compareOn rank? :=
    funext₂ compareDescending_eq
  rw [hrank]
  infer_instance

theorem compareDescending_eq_lt_iff : Scalar.compareDescending x y = .lt ↔ Ahead x y := by
  rw [Ahead, Scalar.compareDescending, Scalar.isNaN, Scalar.isNaN]
  cases hx : x == x <;> cases hy : y == y
  · simp
  · simp
  · simp
  · have horder : Scalar.order y x = .lt ↔ orderKey y < orderKey x := compare_lt_iff_lt
    simpa [horder] using orderKey_lt_iff hy hx

theorem compareDescending_eq_eq_iff : Scalar.compareDescending x y = .eq ↔ Level x y := by
  rw [Level, Scalar.compareDescending, Scalar.isNaN, Scalar.isNaN]
  by_cases hsame : x = y
  · subst hsame
    have hself : Scalar.order x x = .eq := compare_eq_iff_eq.mpr rfl
    cases x == x <;> simp [hself]
  · cases hx : x == x <;> cases hy : y == y
    · simp
    · simp [hsame]
    · simp [hsame]
    · have horder : Scalar.order y x = .eq ↔ orderKey y = orderKey x := compare_eq_iff_eq
      simp [horder, hsame, orderKey_inj hy hx, eq_comm]

end PatternCardinality.Double
