import PatternCardinality.Decimal.Shortest
import PatternCardinality.Number.Double

/-! How doubles are written: with their shortest digits, or with a fixed number of places. -/

namespace PatternCardinality.Decimal

/-- What a way of writing numbers decides. With `e` the exponent of the leading digit, the digits
stand in place if `e` is in `plain`, otherwise an exponent is written. -/
structure Layout where
  plain : Int → Bool
  pointZero : Bool
  exponentPlus : Bool
  tie : Tie

/-- Every digit in place and no point without need. -/
def Layout.positional : Layout where
  plain := fun _ => true
  pointZero := false
  exponentPlus := false
  tie := .up

/-- Whole numbers keep a point; far from one an exponent is written. -/
def Layout.pointed : Layout where
  plain := fun e => -4 ≤ e && e < 16
  pointZero := true
  exponentPlus := false
  tie := .up

def zeros (n : Nat) : List Char := List.replicate n '0'

/-- Digits with the point after the first `point` of them. -/
def inPlace (layout : Layout) (digits : List Char) (point : Int) : List Char :=
  if point ≤ 0 then '0' :: '.' :: (zeros (-point).toNat ++ digits)
  else if digits.length ≤ point.toNat then
    digits ++ zeros (point.toNat - digits.length) ++ (if layout.pointZero then ['.', '0'] else [])
  else digits.take point.toNat ++ '.' :: digits.drop point.toNat

def withExponent (layout : Layout) (digits : List Char) (e : Int) : List Char :=
  let fraction := digits.drop 1
  digits.take 1 ++ (if fraction.isEmpty then [] else '.' :: fraction) ++
    'e' :: (if layout.exponentPlus && 0 ≤ e then ['+'] else []) ++ (toString e).toList

def Layout.decimal (layout : Layout) (d : Numeral) : List Char :=
  let digits := (toString d.digits).toList
  let point := (digits.length : Int) + d.exponent
  if layout.plain (point - 1) then inPlace layout digits point
  else withExponent layout digits (point - 1)

/-- The text of a double that is neither infinite nor NaN, without its sign. -/
def Layout.finite (layout : Layout) (bits : UInt64) : List Char :=
  let x := Binary.ofBits bits
  if x.mantissa = 0 then '0' :: (if layout.pointZero then ['.', '0'] else [])
  else layout.decimal (x.shortest layout.tie)

/-- The text of a double given the text of its finite magnitude. -/
def signedText (finite : UInt64 → List Char) (x : Float) : String :=
  if x.isNaN then "NaN"
  else
    let magnitude := if x.isInf then ['i', 'n', 'f'] else finite x.toBits
    String.ofList (if Double.isNegative x then '-' :: magnitude else magnitude)

def Layout.text (layout : Layout) (x : Float) : String := signedText layout.finite x

/-- A quotient rounded to the nearest integer, a half to the even one. -/
def roundDiv (num den : Nat) : Nat :=
  let q := num / den
  match compare (2 * (num % den)) den with
  | .lt => q
  | .gt => q + 1
  | .eq => if q % 2 = 0 then q else q + 1

/-- The magnitude of a double rounded to a number of places. -/
def fixedFinite (places : Nat) (bits : UInt64) : List Char :=
  let x := Binary.ofBits bits
  let units := roundDiv (x.mantissa * Nat.pow 2 x.exponent.toNat * Nat.pow 10 places)
    (Nat.pow 2 (-x.exponent).toNat)
  let digits := (toString units).toList
  let padded := zeros (places + 1 - digits.length) ++ digits
  let whole := padded.length - places
  padded.take whole ++ (if places = 0 then [] else '.' :: padded.drop whole)

def fixed (places : Nat) (x : Float) : String := signedText (fixedFinite places) x

/-- The plain text of a number. -/
def text (x : Float) : String := Layout.positional.text x

def boundText (b : Bound Float) : String := Decimal.text (Double.ofBound b)

end PatternCardinality.Decimal
