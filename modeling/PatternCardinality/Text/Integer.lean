import PatternCardinality.Text.Blank

/-! Integers written in a base, read only if they fit their range. -/

namespace PatternCardinality.Text

def digit? (c : Char) : Option Nat :=
  if '0' ≤ c ∧ c ≤ '9' then some (c.toNat - '0'.toNat)
  else if 'a' ≤ c ∧ c ≤ 'z' then some (c.toNat - 'a'.toNat + 10)
  else if 'A' ≤ c ∧ c ≤ 'Z' then some (c.toNat - 'A'.toNat + 10)
  else none

/-- Appends the digits of a text to a number. -/
def digitsFrom (base : Nat) : Nat → List Char → Option Nat
  | n, [] => some n
  | n, c :: s =>
    match digit? c with
    | some d => if d < base then digitsFrom base (n * base + d) s else none
    | none => none

/-- One digit or more. -/
def digits? (base : Nat) : List Char → Option Nat
  | [] => none
  | s => digitsFrom base 0 s

/-- A natural number of at most `limit`, with or without a plus sign. -/
def unsigned? (base limit : Nat) (s : List Char) : Option Nat :=
  (digits? base (match s with | '+' :: r => r | r => r)).filter (· ≤ limit)

/-- A signed number from `-limit` up to, but not including, `limit`. -/
def signed? (base limit : Nat) (s : List Char) : Option Int :=
  match s with
  | '-' :: r => ((digits? base r).filter (· ≤ limit)).map (fun n => -(n : Int))
  | '+' :: r => ((digits? base r).filter (· < limit)).map (fun n => (n : Int))
  | r => ((digits? base r).filter (· < limit)).map (fun n => (n : Int))

def int32? (s : List Char) : Option Int32 := (signed? 10 (Nat.pow 2 31) s).map Int32.ofInt

end PatternCardinality.Text
