import PatternCardinality.Number.Double
import PatternCardinality.Text.Integer

/-! Numbers written in decimal, with or without point and exponent, and the doubles nearest to
them. -/

namespace PatternCardinality.Decimal

/-- The digits before and after a point, and the power of ten that they are multiplied by. -/
structure Literal where
  negative : Bool
  whole : List Nat
  fraction : List Nat
  exponent : Int
  deriving DecidableEq

namespace Literal

/-- All digits as one number. -/
def digits (d : Literal) : Nat := (d.whole ++ d.fraction).foldl (fun n k => n * 10 + k) 0

/-- The power of ten that `digits` is multiplied by. -/
def scale (d : Literal) : Int := d.exponent - d.fraction.length

/-- The double nearest to the number without its sign. Far outside the range of doubles no power
of ten is computed: a binary digit counts for more than 3 / 10 and less than 31 / 100 of a decimal
one. -/
def magnitude (d : Literal) : Float :=
  let least : Int := d.digits.log2 * 3 / 10 + d.scale
  let most : Int := d.digits.log2 * 31 / 100 + d.scale
  if d.digits = 0 ∨ most < -350 then 0.0
  else if 320 < least then Double.infinity
  else Float.ofScientific d.digits (d.scale < 0) d.scale.natAbs

def nearest (d : Literal) : Float := if d.negative then -d.magnitude else d.magnitude

end Literal

/-- Splits off the digits in front. -/
def spanDigits (s : List Char) : List Nat × List Char :=
  ((s.takeWhile Char.isDigit).map (fun c => c.toNat - '0'.toNat), s.dropWhile Char.isDigit)

/-- What an exponent adds, or nothing where there is none. -/
def exponent? : List Char → Option Int
  | [] => some 0
  | e :: s =>
    if e = 'e' ∨ e = 'E' then
      match s with
      | '-' :: r => (Text.digits? 10 r).map (fun n => -(n : Int))
      | '+' :: r => (Text.digits? 10 r).map (fun n => (n : Int))
      | r => (Text.digits? 10 r).map (fun n => (n : Int))
    else none

/-- Digits with an optional point among or around them, then an optional exponent. -/
def unsignedLiteral? (negative : Bool) (s : List Char) : Option Literal := do
  let (whole, s) := spanDigits s
  let (fraction, s) := match s with
    | '.' :: r => spanDigits r
    | r => ([], r)
  if whole.isEmpty && fraction.isEmpty then none
  else some ⟨negative, whole, fraction, ← exponent? s⟩

/-- The names of the values that have no digits, in any case of letters. -/
def named? (s : List Char) : Option Float :=
  let lower := String.ofList (s.map Char.toLower)
  if lower = "inf" ∨ lower = "infinity" then some Double.infinity
  else if lower = "nan" then some (0.0 / 0.0)
  else none

/-- A number in decimal, `inf`, `infinity` or `nan`, with or without a sign. -/
def number? (s : List Char) : Option Float :=
  let (negative, r) := match s with
    | '-' :: r => (true, r)
    | '+' :: r => (false, r)
    | r => (false, r)
  match named? r with
  | some x => some (if negative then -x else x)
  | none => (unsignedLiteral? negative r).map Literal.nearest

end PatternCardinality.Decimal
