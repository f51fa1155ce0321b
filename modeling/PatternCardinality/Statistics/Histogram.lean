import PatternCardinality.Number.Scalar

/-! The share of a range in an equi-depth histogram. The quantiles bound buckets that hold equally
many values; inside a bucket values are taken to be spread evenly. -/

namespace PatternCardinality.Statistics.Histogram

open Scalar

variable {α : Type} [Scalar α]

/-- How many of the quantiles in front lie below a bound, one more if the next is equal to it. -/
def reach (beyond : Bound α → Bound α → Bool) (b : Bound α) : List α → Nat
  | [] => 0
  | x :: rest =>
    if beyond (toBound x) b then reach beyond b rest + 1
    else if (toBound x).eq b then 1
    else 0

/-- The index of the quantile where the bucket of the lower end begins. -/
def lower (q : List α) (low : Bound α) : Nat := reach Bound.lt low q.tail

/-- The index of the quantile where the bucket of the upper end stops. -/
def upper (q : List α) (high : Bound α) : Nat :=
  q.length - 1 - reach (fun x b => b.lt x) high q.reverse.tail

def quantile (q : List α) (i : Nat) : α := q.getD i 0

/-- The share inside one bucket, `l` being the index of its lower end. -/
def withinBucket (q : List α) (low high : α) (l : Nat) : α :=
  let buckets : α := ((q.length - 1 : Nat) : α)
  let width := quantile q (l + 1) - quantile q l
  if width ≤ 0 then 1 / buckets else ((high - low) / width) / buckets

/-- The share of the bucket that begins at `l` above the lower end of a range. -/
def firstPart (q : List α) (low : Bound α) (l : Nat) : α :=
  let a := quantile q l
  let b := quantile q (l + 1)
  if low.lt (toBound a) || b == a then 1 else (b - ofBound low) / (b - a)

/-- The share of the bucket that stops at `r` below the upper end of a range. -/
def lastPart (q : List α) (high : Bound α) (r : Nat) : α :=
  let a := quantile q (r - 1)
  let b := quantile q r
  if (toBound b).lt high || b == a then 1 else (ofBound high - a) / (b - a)

/-- The share over several buckets from `l` to `r`. -/
def acrossBuckets (q : List α) (low high : Bound α) (l r : Nat) : α :=
  let buckets : α := ((q.length - 1 : Nat) : α)
  (firstPart q low l + ((r - l : Nat) : α) - (1 + 1) + lastPart q high r) / buckets

/-- The share of the values between two bounds. -/
def share (q : List α) (low high : Bound α) : α :=
  match q.head?, q.getLast? with
  | some first, some last =>
    if q.length < 2 then 0
    else
      let low := low.greatest (toBound first)
      let high := high.least (toBound last)
      let l := lower q low
      let r := upper q high
      if r ≤ l then 0
      else if l + 1 = r then withinBucket q (ofBound low) (ofBound high) l
      else acrossBuckets q low high l r
  | _, _ => 0

end PatternCardinality.Statistics.Histogram
