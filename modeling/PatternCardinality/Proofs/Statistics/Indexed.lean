import Mathlib.Data.List.GetD
import PatternCardinality.Statistics.Histogram

/-!
# Histograms read by index

The share of a range with the quantiles in an array: two loops move an index towards each other, and
every read may find no quantile at its index. With quantiles in any order, none does, and the share
is that of the lists.
-/

namespace PatternCardinality.Statistics.Histogram

open Scalar

variable {α : Type} [Scalar α] (q : List α)

/-- From `l` on upwards while the next quantile lies below the bound. -/
def ascend? (low : Bound α) (l : Nat) : Option Nat :=
  if l + 1 < q.length then do
    let next ← q[l + 1]?
    if (toBound next).lt low then ascend? low (l + 1) else some l
  else some l
termination_by q.length - l

/-- The index where the bucket of the lower end begins. -/
def lower? (low : Bound α) : Option Nat := do
  let l ← ascend? q low 0
  if l + 1 < q.length then do
    let next ← q[l + 1]?
    some (if (toBound next).eq low then l + 1 else l)
  else some l

/-- From `r` on downwards while the quantile before lies above the bound. -/
def descend? (high : Bound α) : Nat → Option Nat
  | 0 => some 0
  | r + 1 => do
    let before ← q[r]?
    if high.lt (toBound before) then descend? high r else some (r + 1)

/-- The index where the bucket of the upper end stops. -/
def upper? (high : Bound α) : Option Nat := do
  let r ← descend? q high (q.length - 1)
  if 1 ≤ r then do
    let before ← q[r - 1]?
    some (if (toBound before).eq high then r - 1 else r)
  else some r

/-- The share of the values between two bounds. -/
def share? (low high : Bound α) : Option α :=
  if q.length < 2 then some 0
  else do
    let first ← q[0]?
    let last ← q[q.length - 1]?
    let low := low.greatest (toBound first)
    let high := high.least (toBound last)
    let l ← lower? q low
    let r ← upper? q high
    let buckets : α := ((q.length - 1 : Nat) : α)
    if r ≤ l then some 0
    else do
      let a ← q[l]?
      let b ← q[r]?
      if l + 1 = r then
        some (if b - a ≤ 0 then 1 / buckets else ((ofBound high - ofBound low) / (b - a)) / buckets)
      else do
        let above ← q[l + 1]?
        let below ← q[r - 1]?
        let first :=
          if low.lt (toBound a) || above == a then 1 else (above - ofBound low) / (above - a)
        let last :=
          if (toBound b).lt high || b == below then 1 else (ofBound high - below) / (b - below)
        some ((first + ((r - l : Nat) : α) - (1 + 1) + last) / buckets)

variable {q}

theorem getElem?_eq_quantile {i : Nat} (hi : i < q.length) : q[i]? = some (quantile q i) := by
  rw [quantile, List.getElem?_eq_getElem hi, List.getD_eq_getElem _ _ hi]

/-- What the loop and the step after it make of the quantiles that lie ahead. -/
theorem ascend?_reach (low : Bound α) {l : Nat} (hl : l < q.length) :
    ∃ m, ascend? q low l = some m ∧ m < q.length ∧
      l + reach Bound.lt low (q.drop (l + 1)) =
        if m + 1 < q.length ∧ (toBound (quantile q (m + 1))).eq low = true then m + 1 else m := by
  generalize hsteps : q.length - l = steps
  induction steps generalizing l with
  | zero => omega
  | succ steps ih =>
    by_cases hnext : l + 1 < q.length
    · have hdrop : q.drop (l + 1) = quantile q (l + 1) :: q.drop (l + 1 + 1) := by
        rw [List.drop_eq_getElem_cons hnext, quantile, List.getD_eq_getElem _ _ hnext]
      rw [ascend?, if_pos hnext, getElem?_eq_quantile hnext, hdrop, reach]
      by_cases hbelow : (toBound (quantile q (l + 1))).lt low = true
      · obtain ⟨m, hm, hlength, hreach⟩ := ih hnext (by omega)
        refine ⟨m, ?_, hlength, ?_⟩
        · simpa [hbelow] using hm
        · rw [if_pos hbelow, ← hreach]
          omega
      · refine ⟨l, by simp [hbelow], hl, ?_⟩
        rw [if_neg hbelow]
        by_cases heq : (toBound (quantile q (l + 1))).eq low = true
        · rw [if_pos heq, if_pos ⟨hnext, heq⟩]
        · rw [if_neg heq, if_neg (fun h => heq h.2)]
          rfl
    · refine ⟨l, by rw [ascend?, if_neg hnext], hl, ?_⟩
      rw [List.drop_of_length_le (by omega), if_neg (fun h => hnext h.1)]
      rfl

theorem lower?_eq (low : Bound α) (hq : q ≠ []) : lower? q low = some (lower q low) := by
  have hpos : 0 < q.length := List.length_pos_iff.mpr hq
  obtain ⟨m, hm, hlength, hreach⟩ := ascend?_reach low hpos
  rw [Nat.zero_add, Nat.zero_add, List.drop_one] at hreach
  rw [lower?, hm, lower, hreach]
  by_cases hnext : m + 1 < q.length
  · simp only [hnext, true_and, getElem?_eq_quantile hnext, Option.bind_eq_bind, Option.bind_some,
      if_true]
  · simp [hnext]

/-- What the loop and the step after it make of the quantiles that lie behind. -/
theorem descend?_reach (high : Bound α) {r : Nat} (hr : r < q.length) :
    ∃ m, descend? q high r = some m ∧ m ≤ r ∧
      r - reach (fun x b => b.lt x) high (q.take r).reverse =
        if 1 ≤ m ∧ (toBound (quantile q (m - 1))).eq high = true then m - 1 else m := by
  induction r with
  | zero => exact ⟨0, rfl, Nat.le_refl _, by simp [reach]⟩
  | succ r ih =>
    have hbefore : r < q.length := by omega
    have htake : (q.take (r + 1)).reverse = quantile q r :: (q.take r).reverse := by
      rw [List.take_succ_eq_append_getElem hbefore, List.reverse_append, quantile,
        List.getD_eq_getElem _ _ hbefore]
      rfl
    rw [descend?, getElem?_eq_quantile hbefore, htake, reach]
    by_cases habove : high.lt (toBound (quantile q r)) = true
    · obtain ⟨m, hm, hle, hreach⟩ := ih hbefore
      refine ⟨m, by simpa [habove] using hm, by omega, ?_⟩
      rw [if_pos habove, ← hreach]
      omega
    · refine ⟨r + 1, by simp [habove], Nat.le_refl _, ?_⟩
      rw [if_neg habove, Nat.add_sub_cancel]
      by_cases heq : (toBound (quantile q r)).eq high = true
      · rw [if_pos heq, if_pos ⟨by omega, heq⟩]
        rfl
      · rw [if_neg heq, if_neg (fun h => heq h.2)]
        rfl

theorem upper?_eq (high : Bound α) (hq : q ≠ []) : upper? q high = some (upper q high) := by
  have hlast : q.length - 1 < q.length :=
    Nat.sub_lt (List.length_pos_iff.mpr hq) Nat.one_pos
  obtain ⟨m, hm, hle, hreach⟩ := descend?_reach high hlast
  rw [← List.dropLast_eq_take, ← List.tail_reverse] at hreach
  rw [upper?, hm, upper, hreach]
  by_cases hstart : 1 ≤ m
  · simp only [hstart, true_and, getElem?_eq_quantile (show m - 1 < q.length by omega),
      Option.bind_eq_bind, Option.bind_some, if_true]
  · simp [hstart]

theorem upper_lt (high : Bound α) (hq : q ≠ []) : upper q high < q.length :=
  Nat.lt_of_le_of_lt (Nat.sub_le _ _) (Nat.sub_lt (List.length_pos_iff.mpr hq) Nat.one_pos)

/-- No read of a quantile goes beyond the ends of the array. -/
theorem share?_eq (low high : Bound α) : share? q low high = some (share q low high) := by
  rw [share?, share]
  by_cases hlength : q.length < 2
  · rw [if_pos hlength]
    cases q.head? <;> cases q.getLast? <;> simp [hlength]
  · have hq : q ≠ [] := by
      rintro rfl
      exact hlength Nat.zero_lt_two
    obtain ⟨first, hfirst⟩ : ∃ x, q.head? = some x := ⟨_, List.head?_eq_some_head hq⟩
    obtain ⟨last, hlast⟩ : ∃ x, q.getLast? = some x := ⟨_, List.getLast?_eq_some_getLast hq⟩
    have hhead : q[0]? = some first := by rw [← List.head?_eq_getElem?, hfirst]
    have hend : q[q.length - 1]? = some last := by rw [← List.getLast?_eq_getElem?, hlast]
    rw [if_neg hlength, hhead, hend, hfirst, hlast]
    simp only [Option.bind_eq_bind, Option.bind_some, lower?_eq _ hq, upper?_eq _ hq,
      if_neg hlength]
    generalize low.greatest (toBound first) = low
    generalize high.least (toBound last) = high
    have hupper := upper_lt high hq
    by_cases hbuckets : upper q high ≤ lower q low
    · rw [if_pos hbuckets, if_pos hbuckets]
    · rw [if_neg hbuckets, if_neg hbuckets, getElem?_eq_quantile hupper,
        getElem?_eq_quantile (show lower q low < q.length by omega)]
      by_cases hsame : lower q low + 1 = upper q high
      · simp [hsame, withinBucket]
      · simp [hsame, getElem?_eq_quantile (show lower q low + 1 < q.length by omega),
          getElem?_eq_quantile (show upper q high - 1 < q.length by omega), acrossBuckets,
          firstPart, lastPart]

end PatternCardinality.Statistics.Histogram
