import PatternCardinality.Decimal.Layout
import PatternCardinality.Json.Value

/-! Writing JSON text, on one line or indented by two spaces. -/

namespace PatternCardinality.Json

/-- Numbers keep a point or an exponent, so that they differ from integers. -/
def numberLayout : Decimal.Layout where
  plain := fun e => -5 ≤ e && e < 16
  pointZero := true
  exponentPlus := true
  tie := .even

def hexLetter (n : Nat) : Char := if n < 10 then Char.ofNat (48 + n) else Char.ofNat (87 + n)

def escaped (c : Char) : List Char :=
  if c = '"' then ['\\', '"']
  else if c = '\\' then ['\\', '\\']
  else if c = '\x08' then ['\\', 'b']
  else if c = '\x0c' then ['\\', 'f']
  else if c = '\n' then ['\\', 'n']
  else if c = '\r' then ['\\', 'r']
  else if c = '\t' then ['\\', 't']
  else if c.toNat < 0x20 then
    ['\\', 'u', '0', '0', hexLetter (c.toNat / 16), hexLetter (c.toNat % 16)]
  else [c]

def quoted (s : String) : List Char := '"' :: (s.toList.flatMap escaped ++ ['"'])

/-- What has no value of its own is written as null, infinities and NaN included. -/
def scalarText : Json → List Char
  | bool true => "true".toList
  | bool false => "false".toList
  | int n => (toString n).toList
  | float x => if x.isFinite then (numberLayout.text x).toList else "null".toList
  | text s => quoted s
  | _ => "null".toList

mutual

def compact : Json → List Char
  | array items => '[' :: (compactItems items ++ [']'])
  | object members => '\x7b' :: (compactMembers members ++ ['\x7d'])
  | j => scalarText j

def compactItems : List Json → List Char
  | [] => []
  | [j] => compact j
  | j :: rest => compact j ++ ',' :: compactItems rest

def compactMembers : List (String × Json) → List Char
  | [] => []
  | [(name, j)] => quoted name ++ ':' :: compact j
  | (name, j) :: rest => quoted name ++ ':' :: (compact j ++ ',' :: compactMembers rest)

end

def newLine (depth : Nat) : List Char := '\n' :: List.replicate (2 * depth) ' '

mutual

/-- The text of a value that stands `depth` levels deep. -/
def indented (depth : Nat) : Json → List Char
  | array [] => ['[', ']']
  | array items => '[' :: (indentedItems (depth + 1) items ++ newLine depth ++ [']'])
  | object [] => ['\x7b', '\x7d']
  | object members =>
    '\x7b' :: (indentedMembers (depth + 1) members ++ newLine depth ++ ['\x7d'])
  | j => scalarText j

def indentedItems (depth : Nat) : List Json → List Char
  | [] => []
  | [j] => newLine depth ++ indented depth j
  | j :: rest => newLine depth ++ indented depth j ++ ',' :: indentedItems depth rest

def indentedMembers (depth : Nat) : List (String × Json) → List Char
  | [] => []
  | [(name, j)] => newLine depth ++ quoted name ++ ':' :: ' ' :: indented depth j
  | (name, j) :: rest =>
    newLine depth ++ quoted name ++ ':' :: ' ' ::
      (indented depth j ++ ',' :: indentedMembers depth rest)

end

def oneLine (j : Json) : String := String.ofList j.compact

def pretty (j : Json) : String := String.ofList (j.indented 0)

end PatternCardinality.Json
