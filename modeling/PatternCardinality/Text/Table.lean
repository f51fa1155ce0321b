import PatternCardinality.Text.Blank

/-! Tables of comma-separated values: rows of fields, trimmed, with quotes around what may hold
commas and line ends. -/

namespace PatternCardinality.Text

/-- Where a row begins: lines count from one, bytes and rows from zero. -/
structure Place where
  row : Nat
  line : Nat
  byte : Nat
  deriving DecidableEq

structure Row where
  fields : List String
  place : Place
  deriving DecidableEq

/-- Where a table reader stands: between rows, before a field, inside one, inside a quoted one, or
behind a quote that may have closed it. -/
inductive TableMode where
  | outside
  | beforeField
  | bare
  | quoted
  | closing
  deriving DecidableEq

/-- The row read so far, its last field first and its characters backwards, where the row began and
where the reader is. -/
structure TableReader where
  mode : TableMode
  field : List Char
  fields : List String
  start : Place
  here : Place

namespace TableReader

def initial (byte : Nat) : TableReader := ⟨.outside, [], [], ⟨0, 1, 0⟩, ⟨0, 1, byte⟩⟩

def finished (field : List Char) : String := String.ofList (trim field.reverse)

def row (r : TableReader) : Row := ⟨(finished r.field :: r.fields).reverse, r.start⟩

/-- Passes one character without reading it. -/
def passed (r : TableReader) (c : Char) : TableReader :=
  { r with here := { r.here with
      line := if c = '\n' then r.here.line + 1 else r.here.line
      byte := r.here.byte + c.utf8Size } }

def nextField (r : TableReader) : TableReader :=
  { r with mode := .beforeField, field := [], fields := finished r.field :: r.fields }

def nextRow (r : TableReader) : TableReader :=
  let here := { r.here with row := r.here.row + 1 }
  ⟨.outside, [], [], here, here⟩

/-- A character outside quotes: the end of a row, the end of a field, or part of a field. -/
def unquoted (r : TableReader) (c : Char) : TableReader × Option Row :=
  if c = '\n' ∨ c = '\r' then (r.nextRow, some r.row)
  else if c = ',' then (r.nextField, none)
  else ({ r with mode := .bare, field := c :: r.field }, none)

def opening (r : TableReader) (c : Char) : TableReader × Option Row :=
  if c = '"' then ({ r with mode := .quoted }, none) else r.unquoted c

/-- What one character does. Blank lines are no rows; inside quotes a double quote stands for
one. -/
def step (r : TableReader) (c : Char) : TableReader × Option Row :=
  let r := r.passed c
  match r.mode with
  | .outside => if c = '\n' ∨ c = '\r' then (r, none) else r.opening c
  | .beforeField => r.opening c
  | .bare => r.unquoted c
  | .quoted =>
    if c = '"' then ({ r with mode := .closing }, none)
    else ({ r with field := c :: r.field }, none)
  | .closing =>
    if c = '"' then ({ r with mode := .quoted, field := c :: r.field }, none) else r.unquoted c

/-- The rows of the characters that are left; the last one needs no line end. -/
def rows : TableReader → List Char → List Row
  | r, [] => if r.mode = .outside then [] else [r.row]
  | r, c :: s =>
    match r.step c with
    | (r, some row) => row :: rows r s
    | (r, none) => rows r s

end TableReader

/-- The rows of a table, the header among them; a byte order mark in front is passed over. -/
def tableRows (s : String) : List Row :=
  match s.toList with
  | '\ufeff' :: rest => (TableReader.initial 3).rows rest
  | rest => (TableReader.initial 0).rows rest

end PatternCardinality.Text
