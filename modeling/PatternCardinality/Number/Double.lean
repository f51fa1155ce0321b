import PatternCardinality.Number.Scalar

/-! Estimation in double precision. -/

namespace PatternCardinality

namespace Double

def infinity : Float := 1.0 / 0.0

def isNegative (x : Float) : Bool := x.toBits >>> 63 == 1

/-- The place of a double in the total order: negative ones run backwards below zero. -/
def orderKey (x : Float) : Int :=
  let magnitude : Int := (x.toBits &&& 0x7FFFFFFFFFFFFFFF).toNat
  if isNegative x then -1 - magnitude else magnitude

/-- An infinite double is an unlimited end. -/
def toBound (x : Float) : Bound Float :=
  if x == infinity then .highest else if x == -infinity then .lowest else .number x

def ofBound : Bound Float → Float
  | .lowest => -infinity
  | .number x => x
  | .highest => infinity

end Double

instance : Scalar Float where
  zero := 0.0
  one := 1.0
  natCast := Float.ofNat
  decidableLT := fun x y => Float.decLt x y
  decidableLE := fun x y => Float.decLe x y
  emptySum := -0.0
  order := fun x y => compare (Double.orderKey x) (Double.orderKey y)
  toBound := Double.toBound
  ofBound := Double.ofBound

end PatternCardinality
