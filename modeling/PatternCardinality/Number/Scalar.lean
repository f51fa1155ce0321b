/-! The numbers that counts, shares and estimates are made of, and the ends of ranges over them. -/

namespace PatternCardinality

/-- An end of a range: a number, or no limit on that side. -/
inductive Bound (α : Type) where
  | lowest
  | number (x : α)
  | highest
  deriving DecidableEq

/-- Arithmetic in which estimates are computed. An unlimited end stands for some number too, so
that it can enter a calculation; `emptySum` is what a sum of nothing is. -/
class Scalar (α : Type) extends Zero α, One α, Add α, Sub α, Mul α, Div α, LT α, LE α, BEq α,
    NatCast α where
  decidableLT : DecidableLT α
  decidableLE : DecidableLE α
  emptySum : α
  order : α → α → Ordering
  toBound : α → Bound α
  ofBound : Bound α → α

namespace Scalar

variable {α : Type} [Scalar α]

instance : DecidableLT α := decidableLT

instance : DecidableLE α := decidableLE

/-- A number that differs from itself is not a number. -/
def isNaN (x : α) : Bool := !(x == x)

/-- The smaller of two, the second if they are equal; one that is not a number is passed over. -/
def least (x y : α) : α := if decide (x < y) || isNaN y then x else y

/-- The larger of two, the second if they are equal; one that is not a number is passed over. -/
def greatest (x y : α) : α := if decide (y < x) || isNaN y then x else y

def nonNegative (x : α) : α := if 0 < x then x else 0

/-- Cuts to `[0, 1]`; what is not a number stays. -/
def clampUnit (x : α) : α :=
  let y := if x < 0 then 0 else x
  if 1 < y then 1 else y

def sum (xs : List α) : α := xs.foldl (· + ·) emptySum

def product (xs : List α) : α := xs.foldl (· * ·) 1

/-- The rest of a power by repeated squaring: `acc * x ^ n`, in at most `fuel` squarings. -/
def powerFrom (fuel : Nat) (acc x : α) (n : Nat) : α :=
  match fuel with
  | 0 => acc
  | fuel + 1 =>
    let acc := if n % 2 = 1 then acc * x else acc
    if n / 2 = 0 then acc else powerFrom fuel acc (x * x) (n / 2)

def power (x : α) (n : Nat) : α := powerFrom (n + 1) 1 x n

/-- Larger numbers first, in front of them what is not a number. -/
def compareDescending (x y : α) : Ordering :=
  match isNaN x, isNaN y with
  | true, true => .eq
  | true, false => .lt
  | false, true => .gt
  | false, false => order y x

end Scalar

namespace Bound

open Scalar

variable {α : Type} [Scalar α]

def isNaN : Bound α → Bool
  | number x => Scalar.isNaN x
  | _ => false

def isUnlimited : Bound α → Bool
  | number _ => false
  | _ => true

def eq : Bound α → Bound α → Bool
  | lowest, lowest => true
  | number x, number y => x == y
  | highest, highest => true
  | _, _ => false

def lt : Bound α → Bound α → Bool
  | lowest, number y => !Scalar.isNaN y
  | lowest, highest => true
  | number x, number y => decide (x < y)
  | number x, highest => !Scalar.isNaN x
  | _, _ => false

def least (b c : Bound α) : Bound α := if b.lt c || c.isNaN then b else c

def greatest (b c : Bound α) : Bound α := if c.lt b || c.isNaN then b else c

end Bound

end PatternCardinality
