/-! Sets of characters given by ranges of their numbers. -/

namespace PatternCardinality.Text

/-- Whether one of closed ranges, ascending and apart, holds a number. -/
def inRanges : List (Nat × Nat) → Nat → Bool
  | [], _ => false
  | r :: rest, n => if n < r.1 then false else n ≤ r.2 || inRanges rest n

end PatternCardinality.Text
