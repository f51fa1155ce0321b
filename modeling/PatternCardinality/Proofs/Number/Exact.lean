import Mathlib.Data.Rat.Defs
import Mathlib.Algebra.Order.Ring.Rat
import Mathlib.Algebra.Order.Ring.Unbundled.Rat
import Mathlib.Algebra.BigOperators.Group.List.Basic
import Mathlib.Algebra.Order.BigOperators.Group.List
import Mathlib.Tactic.Linarith
import Mathlib.Tactic.Positivity
import PatternCardinality.Number.Scalar

/-!
# Exact numbers

Estimates over the rational numbers: no rounding, and every number is one. The operations that pass
over what is not a number become the familiar ones.
-/

namespace PatternCardinality

/-- Exact arithmetic. No calculation uses an unlimited end of a range, for which zero stands. -/
instance : Scalar ℚ where
  decidableLT := inferInstance
  decidableLE := inferInstance
  emptySum := 0
  order := compare
  toBound := .number
  ofBound
    | .number x => x
    | _ => 0

namespace Scalar

@[simp] theorem isNaN_rat (x : ℚ) : isNaN x = false := by
  simp [isNaN]

theorem least_rat (x y : ℚ) : least x y = min x y := by
  simp only [least, isNaN_rat, Bool.or_false, decide_eq_true_eq, min_def_lt]

theorem greatest_rat (x y : ℚ) : greatest x y = max x y := by
  simp only [greatest, isNaN_rat, Bool.or_false, decide_eq_true_eq, max_comm x, max_def_lt]

theorem nonNegative_rat (x : ℚ) : nonNegative x = max 0 x := by
  rw [nonNegative, max_def_lt]

theorem clampUnit_rat (x : ℚ) : clampUnit x = min 1 (max 0 x) := by
  have hlow : (if x < 0 then 0 else x) = max 0 x := by
    rw [max_comm, max_def_lt]
  simp only [clampUnit, hlow, min_def_lt]

theorem sum_rat (xs : List ℚ) : sum xs = xs.sum := (List.sum_eq_foldl).symm

theorem product_rat (xs : List ℚ) : product xs = xs.prod := (List.prod_eq_foldl).symm

/-- Squaring takes half of an exponent at a time, and its last binary digit goes to what is gathered.
-/
theorem powerFrom_rat {fuel n : Nat} (h : n < fuel) (acc x : ℚ) :
    powerFrom fuel acc x n = acc * x ^ n := by
  induction fuel generalizing acc x n with
  | zero => exact absurd h (Nat.not_lt_zero n)
  | succ fuel ih =>
    have hdigit : (if n % 2 = 1 then acc * x else acc) = acc * x ^ (n % 2) := by
      rcases Nat.mod_two_eq_zero_or_one n with hn | hn <;> simp [hn]
    simp only [powerFrom, hdigit]
    split
    · next hlast => rw [Nat.mod_eq_of_lt (by omega : n < 2)]
    · rw [ih (by omega), ← pow_two, ← pow_mul, mul_assoc, ← pow_add, Nat.mod_add_div]

theorem power_rat (x : ℚ) (n : Nat) : power x n = x ^ n := by
  rw [power, powerFrom_rat n.lt_succ_self, one_mul]

theorem power_nonneg {x : ℚ} (hx : 0 ≤ x) (n : Nat) : 0 ≤ power x n := by
  rw [power_rat]
  exact pow_nonneg hx n

theorem compareDescending_rat (x y : ℚ) : compareDescending x y = compare y x := by
  simp only [compareDescending, isNaN_rat]
  rfl

/-- Larger numbers first is an order. -/
instance : Std.TransCmp (compareDescending (α := ℚ)) := by
  have hflip : compareDescending (α := ℚ) = fun x y => compare y x :=
    funext fun x => funext fun y => compareDescending_rat x y
  rw [hflip]
  exact inferInstance

end Scalar

end PatternCardinality
