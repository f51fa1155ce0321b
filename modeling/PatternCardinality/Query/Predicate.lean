import PatternCardinality.Failure
import PatternCardinality.Statistics.Hash

/-! Conditions on the value of one property: a text, or a closed range of numbers. -/

namespace PatternCardinality

open Statistics

/-- A number alone is the range from it to itself. -/
inductive Predicate (α : Type) where
  | text (s : String)
  | range (low high : Bound α)

namespace Predicate

variable {α : Type} [Scalar α]

/-- Fails for ends out of order and for ends that are no numbers. -/
def between (low high : Bound α) : Except (Failure α) (Predicate α) :=
  if low.isNaN || high.isNaN || high.lt low then .error (.badPredicate (.brokenRange low high))
  else .ok (range low high)

def equalTo (b : Bound α) : Except (Failure α) (Predicate α) := between b b

/-- Below, above or equal to a number, itself always included. -/
def compared (op : String) (b : Bound α) : Except (Failure α) (Predicate α) :=
  if op = "<" then between .lowest b
  else if op = ">" then between b .highest
  else if op = "=" then between b b
  else .error (.badPredicate (.unknownComparison op))

/-- Both conditions at once. -/
def merge : Predicate α → Predicate α → Except (Failure α) (Predicate α)
  | text a, text b =>
    if a = b then .ok (text a) else .error (.badPredicate (.differentValues a b))
  | range l₁ h₁, range l₂ h₂ => between (l₁.greatest l₂) (h₁.least h₂)
  | _, _ => .error (.badPredicate .mixedKinds)

/-- The hash of the only value that satisfies the predicate. -/
def valueHash? [NumberHash α] : Predicate α → Option Int32
  | text s => some (textHash s)
  | range low high => if low.eq high then some (NumberHash.hash low) else none

def describe : Predicate Float → String
  | text s => s!"='{s}'"
  | range low high =>
    if low.eq high then "=" ++ Decimal.boundText low
    else if low.isUnlimited then "<" ++ Decimal.boundText high
    else if high.isUnlimited then ">" ++ Decimal.boundText low
    else " in [" ++ Decimal.boundText low ++ ", " ++ Decimal.boundText high ++ "]"

def sameBits (b c : Bound Float) : Bool := (Double.ofBound b).toBits == (Double.ofBound c).toBits

/-- The same condition, written with the same bits. -/
def identical : Predicate Float → Predicate Float → Bool
  | text a, text b => a = b
  | range l₁ h₁, range l₂ h₂ => sameBits l₁ l₂ && sameBits h₁ h₂
  | _, _ => false

end Predicate

end PatternCardinality
