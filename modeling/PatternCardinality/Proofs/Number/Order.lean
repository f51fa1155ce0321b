import Mathlib
import PatternCardinality.Proofs.Number.Comparison

/-!
# Doubles in order

Every double that is a number has a place in one linear order, by its sign, then its exponent, then
its significand, and numbers compare as their places do. So the order of numbers is total and
transitive, as far as equal numbers count as one, and the ends of ranges are ordered as the numbers
that they are made of.
-/

namespace PatternCardinality

namespace Double

open Float.Model Float.Model.UnpackedFloat

/-- Where a number stands among all numbers; both zeros stand in the middle. -/
def unpackedPlace : UnpackedFloat → ℤ ×ₗ ℤ ×ₗ ℤ
  | .infinity .positive => toLex (2, toLex (0, 0))
  | .finite .positive m e _ => toLex (1, toLex (e, m))
  | .finite .negative m e _ => toLex (-1, toLex (-e, -m))
  | .infinity .negative => toLex (-2, toLex (0, 0))
  | _ => toLex (0, toLex (0, 0))

theorem compare_unpackedPlace {a b : UnpackedFloat} (ha : a ≠ .notANumber)
    (hb : b ≠ .notANumber) : a.compare b = some (compare (unpackedPlace a) (unpackedPlace b)) := by
  have hcast : ∀ m n : ℕ, compare (m : ℤ) (n : ℤ) = compare m n := by
    intro m n
    rw [← cmp_eq_compare, ← cmp_eq_compare, Int.natCast_strictMono.cmp_map_eq]
  have hneg : ∀ d e : ℤ, compare (-d) (-e) = compare e d := by
    intro d e
    have hanti : StrictAnti (fun x : ℤ => -x) := fun _ _ h => neg_lt_neg h
    rw [← cmp_eq_compare, ← cmp_eq_compare, hanti.cmp_map_eq]
  simp only [Prod.Lex.compare_def, compareLex, compareOn]
  rcases a with s | _ | s | ⟨s, m, e, hm⟩ <;> rcases b with t | _ | t | ⟨t, n, d, hn⟩ <;>
    try cases s <;> try cases t
  all_goals try contradiction
  all_goals simp [UnpackedFloat.compare, unpackedPlace, hneg, hcast, Ordering.swap_then,
    Int.compare_swap, Nat.compare_swap]
  all_goals rfl

def place (x : Float) : ℤ ×ₗ ℤ ×ₗ ℤ := unpackedPlace x.toModel.unpack

variable {x y z : Float}

/-- Numbers compare as their places, and nothing else compares. -/
theorem compare_eq_some_iff {o : Ordering} : x.toModel.unpack.compare y.toModel.unpack = some o ↔
    (x == x) = true ∧ (y == y) = true ∧ compare (place x) (place y) = o := by
  rw [beq_self_iff, beq_self_iff]
  by_cases hnumbers : x.toModel.unpack ≠ .notANumber ∧ y.toModel.unpack ≠ .notANumber
  · simp [compare_unpackedPlace hnumbers.1 hnumbers.2, hnumbers, place]
  · have hnone : x.toModel.unpack.compare y.toModel.unpack = none := by
      rw [compare_eq_none_iff]
      tauto
    rw [hnone]
    tauto

theorem beq_iff_place : (x == y) = true ↔
    (x == x) = true ∧ (y == y) = true ∧ place x = place y := by
  rw [beq_iff, compare_eq_some_iff, compare_eq_iff_eq]

theorem lt_iff_place : x < y ↔ (x == x) = true ∧ (y == y) = true ∧ place x < place y := by
  rw [lt_iff, compare_eq_some_iff, compare_lt_iff_lt]

theorem le_iff : x ≤ y ↔ x < y ∨ (x == y) = true := by
  have hle : x ≤ y ↔
      (x.toModel.unpack.compare y.toModel.unpack).any Ordering.isLE = true := by
    change decide (x.toModel ≤ y.toModel) = true ↔ _
    exact decide_eq_true_iff
  rw [hle, lt_iff, beq_iff]
  cases h : x.toModel.unpack.compare y.toModel.unpack with
  | none => simp
  | some o => cases o <;> simp

theorem le_iff_place : x ≤ y ↔ (x == x) = true ∧ (y == y) = true ∧ place x ≤ place y := by
  rw [le_iff, lt_iff_place, @beq_iff_place x y, le_iff_lt_or_eq]
  tauto

theorem le_trans (h : x ≤ y) (h' : y ≤ z) : x ≤ z := by
  obtain ⟨hx, -, hxy⟩ := le_iff_place.mp h
  obtain ⟨-, hz, hyz⟩ := le_iff_place.mp h'
  exact le_iff_place.mpr ⟨hx, hz, hxy.trans hyz⟩

theorem le_of_not_lt (hx : (x == x) = true) (hy : (y == y) = true) (h : ¬x < y) : y ≤ x := by
  rw [lt_iff_place] at h
  exact le_iff_place.mpr ⟨hy, hx, not_lt.mp (fun hlt => h ⟨hx, hy, hlt⟩)⟩

/-- No number is above infinity or below its negative. -/
theorem place_bounds (x : Float) : place (-infinity) ≤ place x ∧ place x ≤ place infinity := by
  have hlow : place (-infinity) = toLex (-2, toLex (0, 0)) := rfl
  have hhigh : place infinity = toLex (2, toLex (0, 0)) := rfl
  rw [hlow, hhigh, place]
  rcases x.toModel.unpack with s | _ | s | ⟨s, m, e, hm⟩ <;> try cases s
  all_goals simp [unpackedPlace, Prod.Lex.le_iff]

section Extremes

variable (hx : (x == x) = true) (hy : (y == y) = true)

include hx hy

theorem greatest_le_iff : Scalar.greatest x y ≤ z ↔ x ≤ z ∧ y ≤ z := by
  have hnumber : Scalar.isNaN y = false := by simp [Scalar.isNaN, hy]
  rw [Scalar.greatest, hnumber, Bool.or_false]
  split
  · next h =>
    have hyx : y ≤ x := le_iff.mpr (.inl (of_decide_eq_true h))
    exact ⟨fun hxz => ⟨hxz, le_trans hyx hxz⟩, And.left⟩
  · next h =>
    have hxy : x ≤ y := le_of_not_lt hy hx (fun hlt => h (decide_eq_true hlt))
    exact ⟨fun hyz => ⟨le_trans hxy hyz, hyz⟩, And.right⟩

theorem le_least_iff : z ≤ Scalar.least x y ↔ z ≤ x ∧ z ≤ y := by
  have hnumber : Scalar.isNaN y = false := by simp [Scalar.isNaN, hy]
  rw [Scalar.least, hnumber, Bool.or_false]
  split
  · next h =>
    have hxy : x ≤ y := le_iff.mpr (.inl (of_decide_eq_true h))
    exact ⟨fun hzx => ⟨hzx, le_trans hzx hxy⟩, And.left⟩
  · next h =>
    have hyx : y ≤ x := le_of_not_lt hx hy (fun hlt => h (decide_eq_true hlt))
    exact ⟨fun hzy => ⟨le_trans hzy hyx, hzy⟩, And.right⟩

end Extremes

end Double

namespace Bound

variable (x y : Float)

/-- Ends made of numbers are in order as the numbers are. -/
theorem lt_toBound : (Double.toBound x).lt (Double.toBound y) = decide (x < y) := by
  rw [Bool.eq_iff_iff, decide_eq_true_iff]
  obtain ⟨hxlow, hxhigh⟩ := Double.place_bounds x
  obtain ⟨hylow, hyhigh⟩ := Double.place_bounds y
  have hends : Double.place (-Double.infinity) < Double.place Double.infinity := by decide
  rcases toBound_cases x with ⟨hx, hbx⟩ | ⟨hx, hbx⟩ | ⟨hxh, hxl, hbx⟩ <;>
    rcases toBound_cases y with ⟨hy, hby⟩ | ⟨hy, hby⟩ | ⟨hyh, hyl, hby⟩ <;>
    rw [hbx, hby] <;> simp only [lt]
  all_goals grind [Double.beq_iff_place, Double.lt_iff_place, Scalar.isNaN]

theorem greatest_toBound : (Double.toBound x).greatest (Double.toBound y) =
    Double.toBound (Scalar.greatest x y) := by
  rw [greatest, lt_toBound, isNaN_toBound, Scalar.greatest, Scalar.isNaN,
    apply_ite Double.toBound]

theorem least_toBound : (Double.toBound x).least (Double.toBound y) =
    Double.toBound (Scalar.least x y) := by
  rw [least, lt_toBound, isNaN_toBound, Scalar.least, Scalar.isNaN, apply_ite Double.toBound]

/-- The number of an end is the one that it was made of. -/
theorem ofBound_toBound {x : Float} (hx : (x == x) = true) :
    (Double.ofBound (Double.toBound x) == x) = true := by
  rcases toBound_cases x with ⟨h, hb⟩ | ⟨h, hb⟩ | ⟨-, -, hb⟩ <;> rw [hb]
  · exact Double.beq_symm h
  · exact Double.beq_symm h
  · exact hx

end Bound

end PatternCardinality
