import PatternCardinality.Ordered.Map
import PatternCardinality.Statistics.Histogram

/-! What is known about the values of one property on one label or relationship type, and the
selectivities that follow from it. -/

namespace PatternCardinality.Statistics

open Scalar

/-- How many elements carry the property, with how many distinct values and how many numbers; the
shares of frequent values by their hash, and the quantiles of the numbers. -/
structure PropertySummary (α : Type) where
  count : α
  unique : α
  numeric : α
  frequent : OrderedMap Int32 α
  quantiles : List α

namespace PropertySummary

variable {α : Type} [Scalar α]

def frequency? (p : PropertySummary α) (hash : Int32) : Option α := p.frequent.get? hash

/-- The share of the numbers between two bounds, where there are numbers and the bounds are in
order. -/
def rangeFraction? (p : PropertySummary α) (low high : Bound α) : Option α :=
  if high.lt low || p.numeric == 0 then none else some (Histogram.share p.quantiles low high)

/-- The share of one value among the elements that carry the property. -/
def valueShare (p : PropertySummary α) (hash : Option Int32) : α :=
  match hash with
  | none => 1 / p.unique
  | some hash =>
    match p.frequency? hash with
    | some share => share
    | none =>
      let heavy : α := (p.frequent.size : α)
      if p.unique ≤ heavy then 0 else 1 / (p.unique - heavy)

end PropertySummary

variable {α : Type} [Scalar α]

/-- The share of `total` elements whose property has one value. -/
def valueSelectivity (total : α) (property : Option (PropertySummary α))
    (hash : Option Int32) : α :=
  match property with
  | none => 0
  | some p =>
    if p.count == 0 || total ≤ 0 then 0
    else if p.unique == 0 then 0
    else p.count / total * p.valueShare hash

/-- The share of `total` elements whose property is a number between two bounds. -/
def rangeSelectivity (total : α) (property : Option (PropertySummary α)) (low high : Bound α) : α :=
  match property with
  | none => 0
  | some p =>
    if p.numeric ≤ 0 then 0
    else if low.eq high then
      if total ≤ 0 || p.count == 0 || p.unique == 0 then 0
      else
        let isNumeric := p.numeric / p.count
        p.count / total * isNumeric * (1 / (isNumeric * p.unique))
    else (p.rangeFraction? low high).getD 0

end PatternCardinality.Statistics
