import PatternCardinality.Estimate.Expression
import PatternCardinality.Json.Writer
import PatternCardinality.Query.Json
import PatternCardinality.Report.Table

/-! Estimates as a text with tables, or as JSON. -/

namespace PatternCardinality.Report

open Estimate

inductive Format where
  | table
  | json
  deriving DecidableEq

/-- A query with its estimate, and with its plan if that is to be shown. -/
structure Estimated where
  query : Query Float
  estimate : Float
  plan : Option (Expression Float)

/-- Whole numbers below 10^15 without a point, all others with four places. -/
def amount (x : Float) : String :=
  if x.floor == x && x.abs < 1e15 then Decimal.fixed 0 x else Decimal.fixed 4 x

namespace Estimated

def row (e : Estimated) : List String := [e.query.text, toString e.query.size, amount e.estimate]

/-- Operators from the root down, indented by depth. -/
def planGrid (plan : Expression Float) : Grid where
  header := ["Operator", "Cardinality"]
  rows := plan.walk.map fun (depth, op, profile) =>
    [String.ofList (List.replicate (2 * depth) ' ') ++ op.text, amount profile.size]

def planText (e : Estimated) : String :=
  match e.plan with
  | none => ""
  | some plan => "\nPlan for " ++ e.query.text ++ "\n" ++ (planGrid plan).text ++ "\n"

def text (estimates : List Estimated) : String :=
  if estimates.isEmpty then "No queries to estimate\n"
  else
    let grid : Grid := ⟨["Query", "Size", "Estimate"], estimates.map row⟩
    s!"Estimates\nQueries: {estimates.length}\n\n" ++ grid.text ++ "\n" ++
      String.join (estimates.map planText)

mutual

def planJson : Expression Float → Json
  | .node op children profile =>
    .object [("operator", .text op.text), ("cardinality", .float profile.size),
      ("children", .array (plansJson children))]

def plansJson : List (Expression Float) → List Json
  | [] => []
  | e :: rest => planJson e :: plansJson rest

end

def toJson (e : Estimated) : Json :=
  .object ([("query", e.query.toJson), ("pattern", .text e.query.text),
    ("size", .int e.query.size), ("estimate", .float e.estimate)] ++
    (e.plan.map (fun plan => ("plan", planJson plan))).toList)

def report (format : Format) (estimates : List Estimated) : String :=
  match format with
  | .table => text estimates
  | .json =>
    let answer : Json :=
      .object [("status", .text "success"), ("results", .array (estimates.map toJson))]
    answer.sorted.pretty

end Estimated

end PatternCardinality.Report
