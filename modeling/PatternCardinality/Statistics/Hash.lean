import PatternCardinality.Number.Double

/-! Hashes of property values, by which statistics know frequent values. -/

namespace PatternCardinality.Statistics

/-- The 16-bit units of a character. -/
def units (c : Char) : List Nat :=
  let n := c.toNat
  if n < 0x10000 then [n] else [0xD800 + (n - 0x10000) / 0x400, 0xDC00 + (n - 0x10000) % 0x400]

/-- A polynomial in 31 over the 16-bit units, in 32 bits. -/
def textHash (s : String) : Int32 :=
  (s.toList.flatMap units).foldl (fun h u => h * 31 + Int32.ofNat u) 0

/-- The two halves of a double's bits folded into one; all NaNs have one hash. -/
def doubleHash (x : Float) : Int32 :=
  let bits : UInt64 := if x.isNaN then 0x7FF8000000000000 else x.toBits
  (bits ^^^ (bits >>> 32)).toUInt32.toInt32

/-- Hashes of the numbers that a predicate can ask for. -/
class NumberHash (α : Type) where
  hash : Bound α → Int32

instance : NumberHash Float := ⟨fun b => doubleHash (Double.ofBound b)⟩

end PatternCardinality.Statistics
