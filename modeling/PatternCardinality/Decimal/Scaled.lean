import PatternCardinality.Decimal.Literal

/-! Doubles for numbers written in decimal, found by one product or quotient: the leading digits
become a whole number below 2 ^ 64 and then a double, which is multiplied or divided by a double
that stands for a power of ten. Each step rounds, so that the result may lie beside the nearest
double. -/

namespace PatternCardinality.Decimal

/-- Whole numbers of leading digits stay below this. -/
def digitLimit : Nat := Nat.pow 2 64

/-- Puts digits behind a number while it stays below the limit. Returns the digits left over. -/
def appendDigits : Nat → List Nat → Nat × List Nat
  | n, [] => (n, [])
  | n, k :: rest =>
    if n * 10 + k < digitLimit then appendDigits (n * 10 + k) rest else (n, k :: rest)

/-- The greatest power of ten that is a double. -/
def greatestPower : Nat := 308

def powerOfTen (n : Nat) : Float := Float.ofScientific 1 false n

/-- The quotient by a power of ten, a greatest power at a time. -/
def shrunk (x : Float) (n : Nat) : Float :=
  if n ≤ greatestPower then x / powerOfTen n
  else if x == 0 then x
  else shrunk (x / powerOfTen greatestPower) (n - greatestPower)
termination_by n
decreasing_by simp only [greatestPower] at *; omega

/-- The product with a power of ten. Of the powers that are no doubles only the multiples of zero
are finite. -/
def grown (x : Float) (n : Nat) : Float :=
  if n ≤ greatestPower then x * powerOfTen n
  else if x == 0 then x
  else Double.infinity

namespace Literal

/-- The leading digits and the power of ten that they are multiplied by. Digits left over count for
their places only. -/
def leading (d : Literal) : Nat × Int :=
  let (n, wholeLeft) := appendDigits 0 d.whole
  let (n, fractionLeft) := appendDigits n d.fraction
  (n, d.exponent + wholeLeft.length - (d.fraction.length - fractionLeft.length : Nat))

/-- Infinite for numbers beyond every double. -/
def scaled (d : Literal) : Float :=
  let (n, scale) := d.leading
  let magnitude :=
    if scale < 0 then shrunk (Float.ofNat n) scale.natAbs else grown (Float.ofNat n) scale.natAbs
  if d.negative then -magnitude else magnitude

end Literal

end PatternCardinality.Decimal
