/-! The fewest decimal digits that identify a double. A double stands for the interval of reals that
round to it; of the decimals in the interval those with the fewest digits are taken, and of these
the one nearest to the double. -/

namespace PatternCardinality.Decimal

/-- The value `mantissa * 2 ^ exponent` of a double without its sign. Below a power of two the gap
to the next double is half as wide. -/
structure Binary where
  mantissa : Nat
  exponent : Int
  narrowBelow : Bool
  deriving DecidableEq

/-- For doubles other than infinities and NaN. -/
def Binary.ofBits (bits : UInt64) : Binary :=
  let field := ((bits >>> 52) &&& 0x7FF).toNat
  let fraction := (bits &&& 0xFFFFFFFFFFFFF).toNat
  if field = 0 then ⟨fraction, -1074, false⟩
  else ⟨Nat.pow 2 52 + fraction, (field : Int) - 1075, fraction = 0 ∧ 1 < field⟩

/-- The number `digits * 10 ^ exponent`. -/
structure Numeral where
  digits : Nat
  exponent : Int
  deriving DecidableEq

/-- Compares `a * 10 ^ i` with `n * 2 ^ j`. -/
def compareScaled (a : Nat) (i : Int) (n : Nat) (j : Int) : Ordering :=
  compare (a * Nat.pow 10 i.toNat * Nat.pow 2 (-j).toNat)
    (n * Nat.pow 2 j.toNat * Nat.pow 10 (-i).toNat)

/-- The decimal is among the reals that round to the value; the ends of the interval belong to it
if the mantissa is even. -/
def Binary.identifiedBy (x : Binary) (d : Numeral) : Bool :=
  let low := if x.narrowBelow then 4 * x.mantissa - 1 else 4 * x.mantissa - 2
  let high := 4 * x.mantissa + 2
  let closed := x.mantissa % 2 = 0
  let toLow := compareScaled d.digits d.exponent low (x.exponent - 2)
  let toHigh := compareScaled d.digits d.exponent high (x.exponent - 2)
  (toLow = .gt ∨ (closed ∧ toLow = .eq)) ∧ (toHigh = .lt ∨ (closed ∧ toHigh = .eq))

/-- The least power of ten above a positive value. -/
def Binary.scale (x : Binary) : Int :=
  let guess := ((x.mantissa.log2 : Int) + x.exponent) * 30103 / 100000
  ([guess - 1, guess, guess + 1, guess + 2].find?
    (fun k => compareScaled 1 k x.mantissa x.exponent = .gt)).getD (guess + 3)

/-- The value on the grid of multiples of `10 ^ k`, rounded down. -/
def Binary.floorOn (x : Binary) (k : Int) : Nat :=
  (x.mantissa * Nat.pow 2 x.exponent.toNat * Nat.pow 10 (-k).toNat) /
    (Nat.pow 10 k.toNat * Nat.pow 2 (-x.exponent).toNat)

/-- Which of two decimals at the same distance is written. -/
inductive Tie where
  | up
  | even
  deriving DecidableEq

/-- One of the two neighbours on the grid that identifies the value, the nearer if both do. -/
def Binary.onGrid? (x : Binary) (tie : Tie) (k : Int) : Option Numeral :=
  let n := x.floorOn k
  let down : Numeral := ⟨n, k⟩
  let up : Numeral := ⟨n + 1, k⟩
  match x.identifiedBy down, x.identifiedBy up with
  | false, false => none
  | true, false => some down
  | false, true => some up
  | true, true =>
    match compareScaled (2 * n + 1) k (2 * x.mantissa) x.exponent with
    | .gt => some down
    | .lt => some up
    | .eq => match tie with
      | .up => some up
      | .even => some (if n % 2 = 0 then down else up)

/-- Moves zeros at the end of the digits into the exponent. -/
def Numeral.stripped : (fuel : Nat) → Numeral → Numeral
  | 0, d => d
  | fuel + 1, d =>
    if d.digits ≠ 0 ∧ d.digits % 10 = 0 then stripped fuel ⟨d.digits / 10, d.exponent + 1⟩ else d

/-- The value in full. -/
def Binary.exact (x : Binary) : Numeral :=
  ⟨x.mantissa * Nat.pow 2 x.exponent.toNat * Nat.pow 5 (-x.exponent).toNat,
    -((-x.exponent).toNat : Int)⟩

/-- The shortest decimal of a positive value. -/
def Binary.shortest (x : Binary) (tie : Tie) : Numeral :=
  let top := x.scale
  let found := (List.range 17).findSome? (fun (n : Nat) => x.onGrid? tie (top - 1 - n))
  (found.getD x.exact).stripped 800

end PatternCardinality.Decimal
