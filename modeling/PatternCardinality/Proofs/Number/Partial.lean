import Mathlib.Data.Option.NAry
import PatternCardinality.Proofs.Number.Extension

/-!
# Exact numbers with quotients that have no value

A quotient by zero has no value here, and neither has anything that is calculated from it; like an
unlimited end of a range, it is no number.
-/

namespace PatternCardinality

/-- An exact number, or what a calculation without a value leaves. -/
structure Partial where
  value : Option ℚ

namespace Partial

def lift (f : ℚ → ℚ → ℚ) (x y : Partial) : Partial := ⟨Option.map₂ f x.value y.value⟩

/-- A comparison fails where a value is missing. -/
def holds (r : ℚ → ℚ → Bool) (x y : Partial) : Bool :=
  (Option.map₂ r x.value y.value).getD false

instance : Scalar Partial where
  zero := ⟨some 0⟩
  one := ⟨some 1⟩
  add := lift (· + ·)
  sub := lift (· - ·)
  mul := lift (· * ·)
  div x y := if y.value = some 0 then ⟨none⟩ else lift (· / ·) x y
  lt x y := holds (fun a b => decide (a < b)) x y = true
  le x y := holds (fun a b => decide (a ≤ b)) x y = true
  beq := holds (· == ·)
  natCast n := ⟨some n⟩
  decidableLT _ _ := inferInstanceAs (Decidable (_ = true))
  decidableLE _ _ := inferInstanceAs (Decidable (_ = true))
  emptySum := ⟨some 0⟩
  order x y := (Option.map₂ compare x.value y.value).getD .eq
  toBound := .number
  ofBound
    | .number x => x
    | _ => ⟨none⟩

/-- The exact numbers among those that may lack a value. -/
def exact : Extension Partial where
  of x := ⟨some x⟩
  of_zero := rfl
  of_one := rfl
  of_add _ _ := rfl
  of_sub _ _ := rfl
  of_mul _ _ := rfl
  of_div _ y hy := if_neg (fun h : some y = some 0 => hy (Option.some_inj.mp h))
  of_lt _ _ := decide_eq_true_iff
  of_le _ _ := decide_eq_true_iff
  of_beq _ _ := rfl
  of_natCast _ := rfl
  of_emptySum := rfl
  of_order _ _ := rfl
  of_toBound _ := rfl
  of_ofBound _ := rfl

example (x : Partial) : (x / 0).value = none := rfl

end Partial

end PatternCardinality
