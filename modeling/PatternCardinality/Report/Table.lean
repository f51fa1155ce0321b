import PatternCardinality.Text.Blank
import PatternCardinality.Text.Width

/-! Tables drawn with lines. Cells may hold several lines of text. -/

namespace PatternCardinality.Report

open Text

/-- Every row has as many cells as the header. -/
structure Grid where
  header : List String
  rows : List (List String)

/-- A horizontal line: its left end, what it is drawn with, where it meets columns, its right
end. -/
structure Rule where
  left : Char
  fill : Char
  cross : Char
  right : Char

namespace Grid

def top : Rule := ⟨'┌', '─', '┬', '┐'⟩

def belowHeader : Rule := ⟨'╞', '═', '╪', '╡'⟩

def between : Rule := ⟨'├', '╌', '┼', '┤'⟩

def bottom : Rule := ⟨'└', '─', '┴', '┘'⟩

def cellLines (cell : String) : List (List Char) := pieces (· = '\n') cell.toList

def cellWidth (cell : String) : Nat := ((cellLines cell).map width).foldl max 0

/-- Each column is as wide as its widest line. -/
def widths : List (List String) → List Nat
  | [] => []
  | [row] => row.map cellWidth
  | row :: rest => List.zipWith max (row.map cellWidth) (widths rest)

/-- Columns with one blank on either side. -/
def rule (r : Rule) (widths : List Nat) : List Char :=
  r.left ::
    ([r.cross].intercalate (widths.map (fun w => List.replicate (w + 2) r.fill)) ++ [r.right])

def padded (w : Nat) (line : List Char) : List Char :=
  ' ' :: (line ++ List.replicate (w - width line) ' ' ++ [' '])

/-- The line with an index of a row; cells with fewer lines are empty there. -/
def rowLine (widths : List Nat) (cells : List (List (List Char))) (i : Nat) : List Char :=
  let parts := List.zipWith (fun w lines => padded w (lines.getD i [])) widths cells
  '│' :: (['┆'].intercalate parts ++ ['│'])

def rowLines (widths : List Nat) (row : List String) : List (List Char) :=
  let cells := row.map cellLines
  (List.range ((cells.map List.length).foldl max 0)).map (rowLine widths cells)

/-- Rows with lines between them. -/
def body (widths : List Nat) : List (List String) → List (List Char)
  | [] => []
  | [row] => rowLines widths row
  | row :: rest => rowLines widths row ++ rule between widths :: body widths rest

def lines (g : Grid) : List (List Char) :=
  let widths := widths (g.header :: g.rows)
  rule top widths :: rowLines widths g.header ++ rule belowHeader widths :: body widths g.rows ++
    [rule bottom widths]

def text (g : Grid) : String := "\n".intercalate (g.lines.map String.ofList)

end Grid

end PatternCardinality.Report
