import Mathlib
import PatternCardinality.Proofs.Number.Monotone
import PatternCardinality.Proofs.Number.Order

/-!
# Sums of doubles

Doubles that are not negative stand for rational numbers, infinity for the least power of two
beyond the others, and they are in order as these are. Their sum is the double that the exact sum
rounds to, so that adding more gives no less.
-/

namespace PatternCardinality.Double

open Float.Model Float.Model.UnpackedFloat

section Magnitudes

variable {m : ℕ} {e : ℤ}

theorem unpack_packedInfinity (s : Sign) :
    UnpackedFloat.unpack Format.binary64 (packedInfinity Format.binary64 s) = .infinity s := by
  rw [packedInfinity, unpack_eq, unpackExponent_packComponents, unpackMantissa_packComponents,
    unpackSign_packComponents, if_pos rfl, Sign.ofBitVec_toBitVec]
  exact if_pos rfl

/-- What is beyond all doubles is packed as infinity. -/
theorem unpack_magnitudeOf_top (hm : Canonical m e) (he : 971 < e) :
    (magnitudeOf m e).toModel.unpack = .infinity .positive := by
  have hfull : 2 ^ 52 ≤ m := hm.full.resolve_right (by omega)
  have hbias : (e + (Format.binary64.exponentBias : ℤ) +
      (Format.binary64.mantissaBitsWithoutImplicit : ℤ)).toNat = (e + 1075).toNat := by
    rw [Int.add_assoc]
    rfl
  have hlarge : 2 ^ Format.binary64.exponentBits ≤ (e + 1075).toNat + 1 := by
    change 2048 ≤ (e + 1075).toNat + 1
    omega
  change UnpackedFloat.unpack Format.binary64 (UnpackedFloat.pack Format.binary64 _) = _
  rw [finiteOf, dif_neg (by omega), UnpackedFloat.pack, hbias, if_pos hlarge,
    unpack_packedInfinity]

theorem eq_of_unpack {x y : Float} (h : x.toModel.unpack = y.toModel.unpack) : x = y := by
  rw [← pack_unpack x, h, pack_unpack]

end Magnitudes

section Extents

/-- The least power of two that is beyond all finite doubles. -/
def beyond : ℚ := 2 ^ 1024

/-- The number that an unpacked double stands for, as far as it is not negative. -/
def unpackedExtent : UnpackedFloat → ℚ
  | .finite _ m e _ => m * 2 ^ e
  | .infinity _ => beyond
  | _ => 0

def extent (x : Float) : ℚ := unpackedExtent x.toModel.unpack

/-- A double that is a number and has no sign in front of it. -/
inductive Unsigned (x : Float) : Prop
  | zero (h : x.toModel.unpack = .zero .positive)
  | finite {m : ℕ} {e : ℤ} (hm : 0 < m) (h : x.toModel.unpack = .finite .positive m e hm)
  | infinity (h : x.toModel.unpack = .infinity .positive)

variable {x y : Float} {m : ℕ} {e : ℤ}

theorem nonneg_iff : 0 ≤ x ↔ Unsigned x ∨ x.toModel.unpack = .zero .negative := by
  have hzero : place 0 = toLex (0, toLex (0, 0)) := rfl
  rw [le_iff_place, hzero, beq_self_iff (x := x), place]
  constructor
  · rintro ⟨-, hnumber, hle⟩
    cases h : x.toModel.unpack with
    | notANumber => exact absurd h hnumber
    | zero s =>
      cases s with
      | positive => exact .inl (.zero h)
      | negative => exact .inr rfl
    | finite s m e hm =>
      cases s with
      | positive => exact .inl (.finite hm h)
      | negative => simp [h, unpackedPlace, Prod.Lex.le_iff] at hle
    | infinity s =>
      cases s with
      | positive => exact .inl (.infinity h)
      | negative => simp [h, unpackedPlace, Prod.Lex.le_iff] at hle
  · rintro ((h | ⟨hm, h⟩ | h) | h) <;> rw [h] <;>
      exact ⟨by decide, by simp, by simp [unpackedPlace, Prod.Lex.le_iff]⟩

theorem Unsigned.nonneg (h : Unsigned x) : 0 ≤ x := nonneg_iff.mpr (.inl h)

/-- A finite double is where rounding puts it, and not beyond the largest one. -/
theorem canonical_of_finite {s : Sign} {hm : 0 < m} (h : x.toModel.unpack = .finite s m e hm) :
    Canonical m e ∧ e ≤ 971 := by
  have hfinite : x.isFinite = true := by
    change x.toModel.unpack.isFinite = true
    rw [h]
    rfl
  obtain ⟨t, n, d, hparts⟩ := exists_parts hfinite
  have hunpacked := hparts.unpacked
  rw [h, finiteOf] at hunpacked
  split at hunpacked
  · cases hunpacked
  · cases hunpacked
    exact ⟨hparts.canonical, hparts.top⟩

theorem value_lt_beyond (hm : Canonical m e) (he : e ≤ 971) : (m : ℚ) * 2 ^ e < beyond :=
  (roundsTo_self m e).lt_top hm he

theorem beyond_eq : beyond = 2 ^ 52 * 2 ^ (972 : ℤ) := two_zpow_add 972 52

theorem beyond_le_value (hm : Canonical m e) (he : 971 < e) : beyond ≤ (m : ℚ) * 2 ^ e := by
  have hfull : ((2 ^ 52 : ℕ) : ℚ) ≤ m := Nat.cast_le.mpr (hm.full.resolve_right (by omega))
  push_cast at hfull
  calc beyond = 2 ^ 52 * 2 ^ (972 : ℤ) := beyond_eq
    _ ≤ m * 2 ^ e := mul_le_mul hfull (zpow_le_zpow_right₀ one_le_two he) (by positivity)
      (by positivity)

theorem beyond_pos : 0 < beyond := by
  rw [beyond]
  positivity

/-- The kinds of doubles that are not negative, with their places. -/
theorem nonneg_cases (h : 0 ≤ x) : place x = toLex (0, toLex (0, 0)) ∧ extent x = 0 ∨
    (∃ m e, 0 < m ∧ Canonical m e ∧ e ≤ 971 ∧ place x = toLex (1, toLex (e, (m : ℤ))) ∧
      extent x = m * 2 ^ e) ∨ place x = toLex (2, toLex (0, 0)) ∧ extent x = beyond := by
  rcases nonneg_iff.mp h with (h | ⟨hm, h⟩ | h) | h
  · exact .inl (by simp [place, extent, h, unpackedPlace, unpackedExtent])
  · obtain ⟨hcanonical, htop⟩ := canonical_of_finite h
    exact .inr (.inl ⟨_, _, hm, hcanonical, htop,
      by simp [place, extent, h, unpackedPlace, unpackedExtent]⟩)
  · exact .inr (.inr (by simp [place, extent, h, unpackedPlace, unpackedExtent]))
  · exact .inl (by simp [place, extent, h, unpackedPlace, unpackedExtent])

/-- The number of a double has a significand and an exponent, infinity the next after all. -/
theorem exists_canonical (h : 0 ≤ x) :
    ∃ m e, Canonical m e ∧ extent x = m * 2 ^ e ∧ extent x ≤ beyond := by
  rcases nonneg_cases h with ⟨-, hx⟩ | ⟨m, e, -, hm, htop, -, hx⟩ | ⟨-, hx⟩
  · exact ⟨0, -1074, ⟨by decide, le_rfl, .inr rfl⟩, by simp [hx], hx.trans_le beyond_pos.le⟩
  · exact ⟨m, e, hm, hx, hx.trans_le (value_lt_beyond hm htop).le⟩
  · refine ⟨2 ^ 52, 972, ⟨by decide, by decide, .inl le_rfl⟩, hx.trans ?_, hx.le⟩
    rw [beyond_eq, Nat.cast_pow, Nat.cast_ofNat]

theorem extent_nonneg (h : 0 ≤ x) : 0 ≤ extent x := by
  obtain ⟨m, e, -, hvalue, -⟩ := exists_canonical h
  rw [hvalue]
  positivity

theorem place_lt_iff (hx : 0 ≤ x) (hy : 0 ≤ y) : place x < place y ↔ extent x < extent y := by
  have hpos : ∀ {m : ℕ} {e : ℤ}, 0 < m → (0 : ℚ) < m * 2 ^ e := by
    intro m e hm
    positivity
  rcases nonneg_cases hx with ⟨hpx, hex⟩ | ⟨m, e, hm, hmc, hme, hpx, hex⟩ | ⟨hpx, hex⟩ <;>
    rcases nonneg_cases hy with ⟨hpy, hey⟩ | ⟨n, d, hn, hnc, hnd, hpy, hey⟩ | ⟨hpy, hey⟩ <;>
    rw [hpx, hpy, hex, hey, Prod.Lex.toLex_lt_toLex, Prod.Lex.toLex_lt_toLex]
  case inr.inl.inr.inl =>
    rw [hmc.lt_iff hnc]
    simp
  case inl.inr.inl => simp [hpos hn]
  case inl.inr.inr => simp [beyond_pos]
  case inr.inl.inl => simp [(hpos hm).le]
  case inr.inl.inr.inr => simp [value_lt_beyond hmc hme]
  case inr.inr.inl => simp [beyond_pos.le]
  case inr.inr.inr.inl => simp [(value_lt_beyond hnc hnd).le]
  all_goals simp

theorem beq_self_of_nonneg (h : 0 ≤ x) : (x == x) = true := (le_iff_place.mp h).2.1

/-- Doubles that are not negative are in order as the numbers that they stand for. -/
theorem le_iff_extent (hx : 0 ≤ x) (hy : 0 ≤ y) : x ≤ y ↔ extent x ≤ extent y := by
  rw [le_iff_place, ← not_lt, place_lt_iff hy hx, not_lt]
  simp [beq_self_of_nonneg hx, beq_self_of_nonneg hy]

theorem le_self_of_nonneg (h : 0 ≤ x) : x ≤ x := (le_iff_extent h h).mpr le_rfl

theorem Unsigned.antisymm (hx : Unsigned x) (hy : Unsigned y) (h : x ≤ y) (h' : y ≤ x) :
    x = y := by
  obtain ⟨hnx, hny, hle⟩ := le_iff_place.mp h
  have hplace : place x = place y := le_antisymm hle (le_iff_place.mp h').2.2
  rcases compare_eq_eq_iff.mp (beq_iff.mp (beq_iff_place.mpr ⟨hnx, hny, hplace⟩)) with
    ⟨s, t, hzx, hzy⟩ | ⟨hsame, -⟩
  · have hsign : ∀ {z : Float} {s : Sign}, Unsigned z → z.toModel.unpack = .zero s →
        s = .positive := by
      rintro z s (h | ⟨_, h⟩ | h) hz <;> rw [h] at hz <;> cases hz
      rfl
    rw [hsign hx hzx] at hzx
    rw [hsign hy hzy] at hzy
    exact eq_of_unpack (hzx.trans hzy.symm)
  · exact eq_of_unpack hsame

/-- Of two doubles in order the smaller one is the first. -/
theorem least_eq_left (hx : Unsigned x) (hy : Unsigned y) (h : x ≤ y) :
    Scalar.least x y = x := by
  rw [Scalar.least]
  split
  · rfl
  · next hlt =>
    simp only [Bool.or_eq_true, decide_eq_true_eq, not_or] at hlt
    have hyx := le_of_not_lt (beq_self_of_nonneg hx.nonneg) (beq_self_of_nonneg hy.nonneg) hlt.1
    exact hy.antisymm hx hyx h

theorem least_eq_right (hy : Unsigned y) (h : y ≤ x) : Scalar.least x y = y := by
  have hlt : ¬x < y := fun hlt => by
    have hle := (le_iff_place.mp h).2.2
    exact hle.not_gt (lt_iff_place.mp hlt).2.2
  simp [Scalar.least, Scalar.isNaN, hlt, beq_self_of_nonneg hy.nonneg]

end Extents

section Sums

variable {x y : Float} {a b m : ℕ} {i j e : ℤ} {v : ℚ}

/-- A significand of any width is rounded to the double that its number rounds to. -/
theorem round_eq_finiteOf (s : Sign) (ha : 0 < a) (hm : Canonical m e)
    (h : RoundsTo (a * 2 ^ i) m e) : UnpackedFloat.round Format.binary64 s a i = finiteOf s m e := by
  rw [UnpackedFloat.round, decreaseExponent]
  dsimp only
  generalize ht : Format.binary64.targetExponent (totalExponent a i) = t
  generalize hk : (i - t).toNat = k
  rw [Nat.shiftLeft_eq]
  refine roundWithAccuracy_eq s ?_ ?_ hm h
  · have hvalue : (a * 2 ^ i : ℚ) / 2 ^ (i - k) = (a * 2 ^ k : ℕ) := by
      rw [mul_div_assoc, ← zpow_sub₀ two_ne_zero, sub_sub_cancel, zpow_natCast]
      push_cast
      rfl
    rw [hvalue]
    exact stands_exact _
  · rw [totalExponent_shifted ha, ht]
    omega

theorem normalize_natCast (ha : 0 < a) (s : Sign) :
    UnpackedFloat.normalize Format.binary64 a i s =
      UnpackedFloat.round Format.binary64 .positive a i := by
  rw [UnpackedFloat.normalize, Int.compare_eq_gt.mpr (by omega)]
  rfl

/-- The sum of two positive doubles is rounded to the double that the exact sum rounds to. -/
theorem add_eq_finiteOf (ha : 0 < a) (hb : 0 < b) (hm : Canonical m e)
    (h : RoundsTo (a * 2 ^ i + b * 2 ^ j) m e) :
    UnpackedFloat.add Format.binary64 (.finite .positive a i ha) (.finite .positive b j hb) =
      finiteOf .positive m e := by
  rw [UnpackedFloat.add]
  simp only [decreaseExponent, Sign.apply, Nat.shiftLeft_eq]
  generalize hp : min i j = p
  -- both significands in units of the smaller exponent
  obtain ⟨k, rfl⟩ : ∃ k : ℕ, i = p + k := ⟨(i - p).toNat, by omega⟩
  obtain ⟨l, rfl⟩ : ∃ l : ℕ, j = p + l := ⟨(j - p).toNat, by omega⟩
  rw [add_sub_cancel_left, add_sub_cancel_left, Int.toNat_natCast, Int.toNat_natCast,
    ← Nat.cast_add, normalize_natCast (by positivity)]
  refine round_eq_finiteOf _ (by positivity) hm ?_
  rw [two_zpow_add, two_zpow_add, ← mul_assoc, ← mul_assoc, ← add_mul] at h
  exact_mod_cast h

/-- What rounds beyond the finite doubles becomes infinity. -/
theorem unpack_magnitudeOf_of_beyond_le (hm : Canonical m e) (h : RoundsTo v m e)
    (hv : beyond ≤ v) : (magnitudeOf m e).toModel.unpack = .infinity .positive :=
  unpack_magnitudeOf_top hm (not_le.mp (fun he => (h.lt_top hm he).not_ge hv))

/-- A positive double is made of its own parts. -/
theorem eq_magnitudeOf (ha : 0 < a) (hx : x.toModel.unpack = .finite .positive a i ha)
    (hm : Canonical m e) (h : RoundsTo (a * 2 ^ i) m e) : x = magnitudeOf m e := by
  obtain ⟨hcanonical, htop⟩ := canonical_of_finite hx
  obtain ⟨rfl, rfl⟩ := h.unique hm (roundsTo_self a i) hcanonical
  refine eq_of_unpack ?_
  rw [hx, unpack_magnitudeOf hm htop, finiteOf, dif_neg ha.ne']

/-- A sum is the double that the exact sum rounds to. -/
theorem add_eq_magnitudeOf (hx : Unsigned x) (hy : 0 ≤ y) (hm : Canonical m e)
    (h : RoundsTo (extent x + extent y) m e) : x + y = magnitudeOf m e := by
  have hunpacked : x + y = Float.ofModel (Float.Model.pack
    (UnpackedFloat.add Format.binary64 x.toModel.unpack y.toModel.unpack)) := rfl
  have hinfinite : beyond ≤ extent x + extent y →
      UnpackedFloat.add Format.binary64 x.toModel.unpack y.toModel.unpack = .infinity .positive →
        x + y = magnitudeOf m e := by
    intro hbeyond hadd
    refine eq_of_unpack ?_
    rw [unpack_magnitudeOf_of_beyond_le hm h hbeyond, hunpacked, hadd]
    exact unpack_packedInfinity .positive
  have hx0 := extent_nonneg hx.nonneg
  have hy0 := extent_nonneg hy
  have hkinds : (∃ s, y.toModel.unpack = .zero s) ∨
      (∃ b j, ∃ hb : 0 < b, y.toModel.unpack = .finite .positive b j hb) ∨
        y.toModel.unpack = .infinity .positive := by
    rcases nonneg_iff.mp hy with (h | ⟨hb, h⟩ | h) | h
    · exact .inl ⟨_, h⟩
    · exact .inr (.inl ⟨_, _, hb, h⟩)
    · exact .inr (.inr h)
    · exact .inl ⟨_, h⟩
  rcases hx with hx | ⟨ha, hx⟩ | hx <;> rcases hkinds with ⟨s, hy⟩ | ⟨b, j, hb, hy⟩ | hy <;>
    simp only [extent, hx, hy, unpackedExtent, zero_add, add_zero] at h hinfinite hunpacked hx0 hy0
  · -- zero and zero
    obtain rfl := h.eq_zero hm (by positivity)
    rw [hunpacked]
    cases s <;> rfl
  · -- zero and a positive number
    have hsum : x + y = y := by
      rw [hunpacked, ← pack_unpack y, hy]
      rfl
    rw [hsum]
    exact eq_magnitudeOf hb hy hm h
  · exact hinfinite le_rfl rfl
  · have hsum : x + y = x := by
      rw [hunpacked, ← pack_unpack x, hx]
      rfl
    rw [hsum]
    exact eq_magnitudeOf ha hx hm h
  · rw [hunpacked, add_eq_finiteOf ha hb hm h]
    rfl
  · exact hinfinite (le_add_of_nonneg_left hx0) rfl
  · exact hinfinite le_rfl rfl
  · exact hinfinite (le_add_of_nonneg_right hy0) rfl
  · exact hinfinite (le_add_of_nonneg_right hy0) rfl

theorem unsigned_magnitudeOf (hm : Canonical m e) : Unsigned (magnitudeOf m e) := by
  rcases lt_or_ge 971 e with htop | htop
  · exact .infinity (unpack_magnitudeOf_top hm htop)
  · have h := unpack_magnitudeOf hm htop
    rw [finiteOf] at h
    split at h
    · exact .zero h
    · exact .finite _ h

theorem extent_magnitudeOf (hm : Canonical m e) :
    extent (magnitudeOf m e) = min ((m : ℚ) * 2 ^ e) beyond := by
  rcases lt_or_ge 971 e with htop | htop
  · rw [extent, unpack_magnitudeOf_top hm htop, min_eq_right (beyond_le_value hm htop)]
    rfl
  · rw [extent, unpack_magnitudeOf hm htop, min_eq_left (value_lt_beyond hm htop).le, finiteOf]
    split
    · next hzero => simp [unpackedExtent, hzero]
    · rfl

/-- The sum of doubles that are not negative, by what it rounds. -/
theorem exists_add (hx : Unsigned x) (hy : 0 ≤ y) : ∃ m e, Canonical m e ∧
    RoundsTo (extent x + extent y) m e ∧ x + y = magnitudeOf m e := by
  obtain ⟨m, e, hm, h⟩ := exists_roundsTo (add_nonneg (extent_nonneg hx.nonneg) (extent_nonneg hy))
  exact ⟨m, e, hm, h, add_eq_magnitudeOf hx hy hm h⟩

theorem Unsigned.add (hx : Unsigned x) (hy : 0 ≤ y) : Unsigned (x + y) := by
  obtain ⟨m, e, hm, -, hsum⟩ := exists_add hx hy
  exact hsum ▸ unsigned_magnitudeOf hm

/-- Adding what is not negative gives no less. -/
theorem le_add (hx : Unsigned x) (hy : 0 ≤ y) : x ≤ x + y := by
  obtain ⟨m, e, hm, hrounds, hsum⟩ := exists_add hx hy
  obtain ⟨n, d, hn, hvalue, htop⟩ := exists_canonical hx.nonneg
  have hself : RoundsTo (extent x) n d := hvalue ▸ roundsTo_self n d
  have hgrows := hself.mono hn hrounds hm (le_add_of_nonneg_right (extent_nonneg hy))
  rw [le_iff_extent hx.nonneg (hx.add hy).nonneg, hsum, extent_magnitudeOf hm]
  exact le_min (hvalue.trans_le hgrows) htop

/-- Larger summands have no smaller sum. -/
theorem add_mono {x' y' : Float} (hx : Unsigned x) (hy : 0 ≤ y) (hx' : Unsigned x')
    (hy' : 0 ≤ y') (hxx' : x ≤ x') (hyy' : y ≤ y') : x + y ≤ x' + y' := by
  obtain ⟨m, e, hm, hrounds, hsum⟩ := exists_add hx hy
  obtain ⟨n, d, hn, hrounds', hsum'⟩ := exists_add hx' hy'
  have hexact : extent x + extent y ≤ extent x' + extent y' :=
    add_le_add ((le_iff_extent hx.nonneg hx'.nonneg).mp hxx')
      ((le_iff_extent hy hy').mp hyy')
  rw [le_iff_extent (hx.add hy).nonneg (hx'.add hy').nonneg, hsum, hsum', extent_magnitudeOf hm,
    extent_magnitudeOf hn]
  exact min_le_min_right _ (hrounds.mono hm hrounds' hn hexact)

/-- A natural number of 64 bits becomes a double that is not negative. -/
theorem unsigned_ofNat {n : ℕ} (h : n < 2 ^ 64) : Unsigned (Float.ofNat n) := by
  rcases Nat.eq_zero_or_pos n with rfl | hpos
  · exact .zero rfl
  · obtain ⟨m, e, hm, hrounds⟩ := exists_roundsTo (v := n * 10 ^ (0 : ℤ)) (by positivity)
    have htop : e ≤ 971 := by
      by_contra htop
      have hpower : Canonical (2 ^ 52) 12 := ⟨by decide, by decide, .inl le_rfl⟩
      have hbound : (n : ℚ) * 10 ^ (0 : ℤ) ≤ (2 ^ 52 : ℕ) * 2 ^ (12 : ℤ) := by
        have hle : (n : ℚ) ≤ 2 ^ 64 := by exact_mod_cast h.le
        norm_num at hle ⊢
        exact hle
      exact (hpower.lt_of_exponent hm (by omega)).not_ge
        (hrounds.mono hm (roundsTo_self _ _) hpower hbound)
    have hdouble : Float.ofNat n = magnitudeOf m e := ofScientific_eq hpos hm htop hrounds
    exact hdouble ▸ unsigned_magnitudeOf hm

end Sums

end PatternCardinality.Double
