import PatternCardinality.Proofs.Number.Exact

/-!
# Arithmetic that extends the exact one

Numbers of another kind may have the exact ones among them, with the same arithmetic but for two
things: a quotient by zero may be anything, and so may an unlimited end of a range that enters a
calculation. What is computed alike in all such numbers depends on neither.
-/

namespace PatternCardinality

/-- The exact numbers among others. Nothing is said of quotients by zero, of unlimited ends in
calculations, or of numbers that are not exact ones. -/
structure Extension (α : Type) [Scalar α] where
  of : ℚ → α
  of_zero : of 0 = 0
  of_one : of 1 = 1
  of_add : ∀ x y, of x + of y = of (x + y)
  of_sub : ∀ x y, of x - of y = of (x - y)
  of_mul : ∀ x y, of x * of y = of (x * y)
  of_div : ∀ x y, y ≠ 0 → of x / of y = of (x / y)
  of_lt : ∀ x y, of x < of y ↔ x < y
  of_le : ∀ x y, of x ≤ of y ↔ x ≤ y
  of_beq : ∀ x y, (of x == of y) = (x == y)
  of_natCast : ∀ n : Nat, ((n : Nat) : α) = of n
  of_emptySum : Scalar.emptySum = of 0
  of_order : ∀ x y, Scalar.order (of x) (of y) = compare x y
  of_toBound : ∀ x, Scalar.toBound (of x) = .number (of x)
  of_ofBound : ∀ x, Scalar.ofBound (.number (of x)) = of x

attribute [simp] Extension.of_add Extension.of_sub Extension.of_mul Extension.of_lt Extension.of_le
  Extension.of_beq Extension.of_order Extension.of_toBound Extension.of_ofBound

/-- The end of a range with another number. -/
def Bound.map {α β : Type} (f : α → β) : Bound α → Bound β
  | lowest => lowest
  | number x => number (f x)
  | highest => highest

namespace Extension

variable {α : Type} [Scalar α] (ι : Extension α) (x y : ℚ)

section Constants

@[simp] theorem of_le_zero : ι.of x ≤ 0 ↔ x ≤ 0 := by
  rw [← ι.of_zero, ι.of_le]

@[simp] theorem zero_lt_of : 0 < ι.of x ↔ 0 < x := by
  rw [← ι.of_zero, ι.of_lt]

@[simp] theorem of_lt_zero : ι.of x < 0 ↔ x < 0 := by
  rw [← ι.of_zero, ι.of_lt]

@[simp] theorem one_le_of : 1 ≤ ι.of x ↔ 1 ≤ x := by
  rw [← ι.of_one, ι.of_le]

@[simp] theorem of_lt_one : ι.of x < 1 ↔ x < 1 := by
  rw [← ι.of_one, ι.of_lt]

@[simp] theorem one_lt_of : 1 < ι.of x ↔ 1 < x := by
  rw [← ι.of_one, ι.of_lt]

@[simp] theorem of_beq_zero : (ι.of x == 0) = (x == 0) := by
  rw [← ι.of_zero, ι.of_beq]

@[simp] theorem one_sub_of : 1 - ι.of x = ι.of (1 - x) := by
  rw [← ι.of_one, ι.of_sub]

@[simp] theorem ite_of (c : Prop) [Decidable c] :
    (if c then ι.of x else ι.of y) = ι.of (if c then x else y) := (apply_ite ι.of c x y).symm

@[simp] theorem ite_of_zero (c : Prop) [Decidable c] :
    (if c then ι.of x else 0) = ι.of (if c then x else 0) := by
  rw [← ι.of_zero, ite_of]

@[simp] theorem ite_zero_of (c : Prop) [Decidable c] :
    (if c then 0 else ι.of x) = ι.of (if c then 0 else x) := by
  rw [← ι.of_zero, ite_of]

@[simp] theorem ite_one_of (c : Prop) [Decidable c] :
    (if c then 1 else ι.of x) = ι.of (if c then 1 else x) := by
  rw [← ι.of_one, ite_of]

theorem one_div_of {x : ℚ} (hx : x ≠ 0) : 1 / ι.of x = ι.of (1 / x) := by
  rw [← ι.of_one, ι.of_div _ _ hx]

end Constants

section Guarded

/-! Quotients that are made for a positive divisor only. -/

theorem ite_pos_div : (if 0 < y then ι.of x / ι.of y else 0) = ι.of (if 0 < y then x / y else 0) := by
  by_cases hy : 0 < y
  · rw [if_pos hy, if_pos hy, ι.of_div _ _ hy.ne']
  · rw [if_neg hy, if_neg hy, ι.of_zero]

theorem ite_nonpos_div :
    (if y ≤ 0 then 0 else ι.of x / ι.of y) = ι.of (if y ≤ 0 then 0 else x / y) := by
  by_cases hy : y ≤ 0
  · rw [if_pos hy, if_pos hy, ι.of_zero]
  · rw [if_neg hy, if_neg hy, ι.of_div _ _ (not_le.mp hy).ne']

theorem ite_pos_add_div (z : ℚ) :
    (if 0 < y then ι.of z + ι.of x / ι.of y else ι.of z) = ι.of (if 0 < y then z + x / y else z) := by
  by_cases hy : 0 < y
  · rw [if_pos hy, if_pos hy, ι.of_div _ _ hy.ne', ι.of_add]
  · rw [if_neg hy, if_neg hy]

end Guarded

section Operations

open Scalar

@[simp] theorem isNaN_of : isNaN (ι.of x) = false := by
  simp [isNaN]

@[simp] theorem least_of : least (ι.of x) (ι.of y) = ι.of (least x y) := by
  simp only [least, isNaN_of, isNaN_rat, of_lt, ite_of]

@[simp] theorem least_one : least (ι.of x) 1 = ι.of (least x 1) := by
  rw [← ι.of_one, least_of]

@[simp] theorem greatest_of : greatest (ι.of x) (ι.of y) = ι.of (greatest x y) := by
  simp only [greatest, isNaN_of, isNaN_rat, of_lt, ite_of]

@[simp] theorem nonNegative_of : nonNegative (ι.of x) = ι.of (nonNegative x) := by
  simp only [nonNegative, zero_lt_of, ite_of_zero]

@[simp] theorem clampUnit_of : clampUnit (ι.of x) = ι.of (clampUnit x) := by
  simp only [clampUnit, of_lt_zero, ite_zero_of, one_lt_of, ite_one_of]

theorem foldl_add_of (xs : List ℚ) (s : ℚ) :
    (xs.map ι.of).foldl (· + ·) (ι.of s) = ι.of (xs.foldl (· + ·) s) := by
  rw [List.foldl_map]
  exact List.foldl_hom ι.of (fun s x => ι.of_add s x)

@[simp] theorem sum_of (xs : List ℚ) : sum (xs.map ι.of) = ι.of (sum xs) := by
  rw [sum, ι.of_emptySum, foldl_add_of]
  rfl

@[simp] theorem product_of (xs : List ℚ) : product (xs.map ι.of) = ι.of (product xs) := by
  have hfold : (xs.map ι.of).foldl (· * ·) (ι.of 1) = ι.of (xs.foldl (· * ·) 1) := by
    rw [List.foldl_map]
    exact List.foldl_hom ι.of (fun s x => ι.of_mul s x)
  rw [product, ← ι.of_one, hfold]
  rfl

theorem sum_map {β : Type} (f : β → ℚ) (xs : List β) :
    sum (xs.map (fun b => ι.of (f b))) = ι.of (sum (xs.map f)) := by
  rw [← sum_of, List.map_map]
  rfl

theorem product_map {β : Type} (f : β → ℚ) (xs : List β) :
    product (xs.map (fun b => ι.of (f b))) = ι.of (product (xs.map f)) := by
  rw [← product_of, List.map_map]
  rfl

theorem powerFrom_of (fuel : Nat) (acc x : ℚ) (n : Nat) :
    powerFrom fuel (ι.of acc) (ι.of x) n = ι.of (powerFrom fuel acc x n) := by
  induction fuel generalizing acc x n with
  | zero => rfl
  | succ fuel ih =>
    simp only [powerFrom, of_mul, ite_of, ih]

@[simp] theorem power_of (n : Nat) : power (ι.of x) n = ι.of (power x n) := by
  rw [power, power, ← ι.of_one, powerFrom_of]

@[simp] theorem compareDescending_of :
    compareDescending (ι.of x) (ι.of y) = compareDescending x y := by
  simp only [compareDescending, isNaN_of, isNaN_rat, of_order]
  rfl

end Operations

section Bounds

@[simp] theorem isNaN_map (b : Bound ℚ) : (b.map ι.of).isNaN = b.isNaN := by
  cases b <;> simp [Bound.map, Bound.isNaN]

@[simp] theorem lt_map (b c : Bound ℚ) : (b.map ι.of).lt (c.map ι.of) = b.lt c := by
  cases b <;> cases c <;> simp [Bound.map, Bound.lt]

@[simp] theorem eq_map (b c : Bound ℚ) : (b.map ι.of).eq (c.map ι.of) = b.eq c := by
  cases b <;> cases c <;> simp [Bound.map, Bound.eq]

@[simp] theorem least_map (b c : Bound ℚ) :
    (b.map ι.of).least (c.map ι.of) = (b.least c).map ι.of := by
  rw [Bound.least, Bound.least, lt_map, isNaN_map, apply_ite (Bound.map ι.of)]

@[simp] theorem greatest_map (b c : Bound ℚ) :
    (b.map ι.of).greatest (c.map ι.of) = (b.greatest c).map ι.of := by
  rw [Bound.greatest, Bound.greatest, lt_map, isNaN_map, apply_ite (Bound.map ι.of)]

end Bounds

end Extension

end PatternCardinality
