import PatternCardinality.Decimal.Scaled
import PatternCardinality.Json.Value

/-! Reading JSON text. -/

namespace PatternCardinality.Json

def isSpace (c : Char) : Bool := c = ' ' || c = '\n' || c = '\t' || c = '\r'

def skipSpace (s : List Char) : List Char := s.dropWhile isSpace

def hexDigit? (c : Char) : Option Nat := (Text.digit? c).filter (· < 16)

/-- The four hexadecimal digits of a character number. -/
def unit? : List Char → Option (Nat × List Char)
  | a :: b :: c :: d :: s => do
    let a ← hexDigit? a
    let b ← hexDigit? b
    let c ← hexDigit? c
    let d ← hexDigit? d
    some (((a * 16 + b) * 16 + c) * 16 + d, s)
  | _ => none

def shortEscape? : Char → Option Char
  | '"' => some '"'
  | '\\' => some '\\'
  | '/' => some '/'
  | 'b' => some '\x08'
  | 'f' => some '\x0c'
  | 'n' => some '\n'
  | 'r' => some '\r'
  | 't' => some '\t'
  | _ => none

/-- A second half that completes the surrogate pair begun by `high`. -/
def pairedWith? (high : Nat) : List Char → Option (Char × List Char)
  | '\\' :: 'u' :: s => do
    let (low, s) ← unit? s
    if 0xDC00 ≤ low ∧ low < 0xE000 then
      some (Char.ofNat (0x10000 + (high - 0xD800) * 0x400 + (low - 0xDC00)), s)
    else none
  | _ => none

/-- The rest of a string up to its closing quote. The characters are `none` once a surrogate has
been met alone. -/
def stringRest? : (fuel : Nat) → List Char → Option (Option (List Char) × List Char)
  | 0, _ => none
  | _ + 1, [] => none
  | _ + 1, '"' :: s => some (some [], s)
  | fuel + 1, '\\' :: 'u' :: s => do
    let (unit, s) ← unit? s
    if unit < 0xD800 ∨ 0xE000 ≤ unit then
      let (rest, s) ← stringRest? fuel s
      some (rest.map (Char.ofNat unit :: ·), s)
    else
      match (if unit < 0xDC00 then pairedWith? unit s else none) with
      | some (c, s) =>
        let (rest, s) ← stringRest? fuel s
        some (rest.map (c :: ·), s)
      | none =>
        let (_, s) ← stringRest? fuel s
        some (none, s)
  | fuel + 1, '\\' :: c :: s => do
    let c ← shortEscape? c
    let (rest, s) ← stringRest? fuel s
    some (rest.map (c :: ·), s)
  | fuel + 1, c :: s =>
    if c.toNat < 0x20 ∨ c = '\\' then none
    else do
      let (rest, s) ← stringRest? fuel s
      some (rest.map (c :: ·), s)

def string? (s : List Char) : Option (Option String × List Char) :=
  (stringRest? (s.length + 1) s).map (fun p => (p.1.map String.ofList, p.2))

/-- A whole part has no leading zero. -/
def wholePart? (s : List Char) : Option (List Nat × List Char) :=
  match Decimal.spanDigits s with
  | ([], _) => none
  | ([0], rest) => some ([0], rest)
  | (0 :: _, _) => none
  | p => some p

/-- The digits after a point, if there is one. -/
def fractionPart? : List Char → Option (Option (List Nat) × List Char)
  | '.' :: s =>
    match Decimal.spanDigits s with
    | ([], _) => none
    | (digits, rest) => some (some digits, rest)
  | s => some (none, s)

/-- The exponent with its sign, if there is one. -/
def exponentPart? : List Char → Option (Option Int × List Char)
  | e :: s =>
    if e = 'e' ∨ e = 'E' then
      let (negative, s) := match s with
        | '-' :: r => (true, r)
        | '+' :: r => (false, r)
        | r => (false, r)
      let (digits, rest) := (s.takeWhile Char.isDigit, s.dropWhile Char.isDigit)
      (Text.digits? 10 digits).map
        (fun n => (some (if negative then -(n : Int) else (n : Int)), rest))
    else some (none, e :: s)
  | [] => some (none, [])

variable (toFloat : Decimal.Literal → Float)

def ofLiteral (d : Decimal.Literal) : Json :=
  if (toFloat d).isInf then hugeNumber else float (toFloat d)

/-- Integers of at most 64 bits stay integers; negative zero is none. -/
def ofInteger (negative : Bool) (digits : List Nat) : Json :=
  let d : Decimal.Literal := ⟨negative, digits, [], 0⟩
  if negative then
    if 0 < d.digits ∧ d.digits ≤ Nat.pow 2 63 then int (-(d.digits : Int)) else ofLiteral toFloat d
  else if d.digits < Nat.pow 2 64 then int d.digits
  else ofLiteral toFloat d

def number? (s : List Char) : Option (Json × List Char) := do
  let (negative, s) := match s with
    | '-' :: r => (true, r)
    | r => (false, r)
  let (whole, s) ← wholePart? s
  let (fraction, s) ← fractionPart? s
  let (exponent, s) ← exponentPart? s
  if fraction.isNone ∧ exponent.isNone then some (ofInteger toFloat negative whole, s)
  else some (ofLiteral toFloat ⟨negative, whole, fraction.getD [], exponent.getD 0⟩, s)

mutual

/-- One value after blanks. Each step uses up fuel; the length of the text is enough. -/
def value? : (fuel : Nat) → List Char → Option (Json × List Char)
  | 0, _ => none
  | fuel + 1, s =>
    match skipSpace s with
    | '[' :: s =>
      match skipSpace s with
      | ']' :: s => some (array [], s)
      | s => (items? fuel s).map (fun p => (array p.1, p.2))
    | '{' :: s =>
      match skipSpace s with
      | '}' :: s => some (object [], s)
      | s => (members? fuel s).map (fun p => (p.1.elim brokenText object, p.2))
    | '"' :: s => (string? s).map (fun p => (p.1.elim brokenText text, p.2))
    | 'n' :: 'u' :: 'l' :: 'l' :: s => some (null, s)
    | 't' :: 'r' :: 'u' :: 'e' :: s => some (bool true, s)
    | 'f' :: 'a' :: 'l' :: 's' :: 'e' :: s => some (bool false, s)
    | s => number? toFloat s

def items? : (fuel : Nat) → List Char → Option (List Json × List Char)
  | 0, _ => none
  | fuel + 1, s => do
    let (item, s) ← value? fuel s
    match skipSpace s with
    | ',' :: s =>
      let (rest, s) ← items? fuel s
      some (item :: rest, s)
    | ']' :: s => some ([item], s)
    | _ => none

/-- The members are `none` if a name has no value. -/
def members? : (fuel : Nat) → List Char → Option (Option (List (String × Json)) × List Char)
  | 0, _ => none
  | fuel + 1, s =>
    match skipSpace s with
    | '"' :: s => do
      let (name, s) ← string? s
      match skipSpace s with
      | ':' :: s =>
        let (item, s) ← value? fuel s
        let member := name.map (fun name => (name, item))
        match skipSpace s with
        | ',' :: s =>
          let (rest, s) ← members? fuel s
          some ((do return (← member) :: (← rest)), s)
        | '}' :: s => some (member.map ([·]), s)
        | _ => none
      | _ => none
    | _ => none

end

/-- The value that a whole text stands for, with a rule for the doubles of numbers. -/
def readBy? (s : String) : Option Json :=
  let s := s.toList
  match value? toFloat (s.length + 1) s with
  | some (j, rest) => if (skipSpace rest).isEmpty then some j else none
  | none => none

def read? (s : String) : Option Json := readBy? Decimal.Literal.scaled s

end PatternCardinality.Json
