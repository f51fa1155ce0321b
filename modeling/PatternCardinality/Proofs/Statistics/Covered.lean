import PatternCardinality.Number.Double
import PatternCardinality.Proofs.Statistics.EquiDepth

/-!
# Ranges that cover a histogram

A number that many elements have is a quantile more than once, so that a bucket has no width. Such a
bucket counts as a whole among others, but the search for the outer buckets of a range skips it if
it is the first or the last one. So a range that covers a histogram has all values if the outer
buckets have width, and lacks these buckets otherwise: of one number alone it has nothing.
-/

namespace PatternCardinality.Statistics

namespace Histogram

variable {q : List ℚ} {i : ℕ}

/-- One if the bucket that begins at `i` has no width. -/
def flat (q : List ℚ) (i : ℕ) : ℕ := if quantile q i = quantile q (i + 1) then 1 else 0

theorem quantile_add_flat (q : List ℚ) (i : ℕ) : quantile q (i + flat q i) = quantile q i := by
  rw [flat]
  split
  · next h => exact h.symm
  · rfl

theorem quantile_sub_flat (q : List ℚ) (i : ℕ) :
    quantile q (i + 1 - flat q i) = quantile q (i + 1) := by
  rw [flat]
  split
  · next h => exact h
  · rfl

/-- A range from the first quantile on begins behind the first bucket if that has no width. -/
theorem lower_first (hq : q.Pairwise (· ≤ ·)) (hlength : 2 ≤ q.length) :
    lower q (.number (quantile q 0)) = flat q 0 := by
  match q, hlength with
  | a :: b :: rest, _ =>
    have hab : a ≤ b := (List.pairwise_cons.mp hq).1 b List.mem_cons_self
    change reach Bound.lt (.number a) (b :: rest) = if a = b then 1 else 0
    have hnot : (Scalar.toBound b).lt (.number a) = false := decide_eq_false hab.not_gt
    simp only [reach, hnot, Bool.false_eq_true, if_false]
    exact if_congr (beq_iff_eq.trans eq_comm) rfl rfl

/-- A range up to the last quantile stops before the last bucket if that has no width. -/
theorem upper_last (hq : q.Pairwise (· ≤ ·)) (hlength : i + 2 = q.length) :
    upper q (.number (quantile q (i + 1))) = i + 1 - flat q i := by
  obtain ⟨init, a, b, rfl⟩ : ∃ init a b, q = init ++ [a, b] := by
    match hreverse : q.reverse, List.length_reverse.trans hlength.symm with
    | b :: a :: rest, _ =>
      refine ⟨rest.reverse, a, b, ?_⟩
      rw [← List.reverse_reverse q, hreverse]
      simp
  obtain rfl : i = init.length := by simpa using hlength
  have hab : a ≤ b := by
    have hlast := (List.pairwise_append.mp hq).2.1
    simpa using hlast
  have ha : quantile (init ++ [a, b]) init.length = a := by simp [quantile]
  have hb : quantile (init ++ [a, b]) (init.length + 1) = b := by simp [quantile]
  have hnot : (Bound.number b).lt (Scalar.toBound a) = false := decide_eq_false hab.not_gt
  have hreverse : (init ++ [a, b]).reverse.tail = a :: init.reverse := by simp
  rw [upper, hreverse, flat, ha, hb, reach, hnot]
  simp [Scalar.toBound, Bound.eq]

/-- A bucket counts as a whole if the range begins where it does. -/
theorem firstPart_self (q : List ℚ) (l : ℕ) : firstPart q (.number (quantile q l)) l = 1 := by
  simp only [firstPart]
  split
  · rfl
  · next hopen =>
    have hne : quantile q (l + 1) ≠ quantile q l := by
      intro heq
      simp [heq] at hopen
    exact div_self (sub_ne_zero.mpr hne)

/-- A bucket counts as a whole if the range stops where it does. -/
theorem lastPart_self (q : List ℚ) (r : ℕ) : lastPart q (.number (quantile q r)) r = 1 := by
  simp only [lastPart]
  split
  · rfl
  · next hopen =>
    have hne : quantile q r ≠ quantile q (r - 1) := by
      intro heq
      simp [heq] at hopen
    exact div_self (sub_ne_zero.mpr hne)

theorem withinBucket_self (q : List ℚ) (l : ℕ) :
    withinBucket q (quantile q l) (quantile q (l + 1)) l = 1 / ((q.length - 1 : ℕ) : ℚ) := by
  simp only [withinBucket]
  split
  · rfl
  · next hwidth =>
    have hne : quantile q (l + 1) - quantile q l ≠ 0 := (not_le.mp hwidth).ne'
    exact congrArg (· / _) (div_self hne)

theorem acrossBuckets_self (q : List ℚ) (l r : ℕ) :
    acrossBuckets q (.number (quantile q l)) (.number (quantile q r)) l r =
      ((r - l : ℕ) : ℚ) / ((q.length - 1 : ℕ) : ℚ) := by
  rw [acrossBuckets, firstPart_self, lastPart_self]
  change (1 + ((r - l : ℕ) : ℚ) - (1 + 1) + 1) / ((q.length - 1 : ℕ) : ℚ) = _
  ring

/-- A range that covers the histogram has the buckets but the outer ones without width. -/
theorem share_whole (hq : q.Pairwise (· ≤ ·)) (hlength : i + 2 = q.length) {low high : Bound ℚ}
    (hlow : (Bound.number (quantile q 0)).lt low = false)
    (hhigh : high.lt (.number (quantile q (i + 1))) = false) :
    share q low high = ((i + 1 - flat q 0 - flat q i : ℕ) : ℚ) / ((i + 1 : ℕ) : ℚ) := by
  have hlow' : low.greatest (.number (quantile q 0)) = .number (quantile q 0) := by
    simp [Bound.greatest, hlow, Bound.isNaN]
  have hhigh' : high.least (.number (quantile q (q.length - 1))) =
      .number (quantile q (i + 1)) := by
    simp [← hlength, Bound.least, hhigh, Bound.isNaN]
  have hbegin : quantile q (flat q 0) = quantile q 0 := by
    simpa using quantile_add_flat q 0
  have hstop := quantile_sub_flat q i
  have hcount : i + 1 - flat q 0 - flat q i = i + 1 - flat q i - flat q 0 := by omega
  have hbuckets : i + 1 = q.length - 1 := by omega
  rw [share_eq (by omega) hlow' hhigh', lower_first hq (by omega), upper_last hq hlength, hcount]
  generalize flat q 0 = l at *
  generalize i + 1 - flat q i = r at *
  rw [← hbegin, ← hstop, hbuckets]
  split
  · next hle => rw [Nat.sub_eq_zero_of_le hle, Nat.cast_zero, zero_div]
  · split
    · next hsame =>
      subst hsame
      rw [Nat.add_sub_cancel_left, Nat.cast_one]
      exact withinBucket_self q l
    · exact acrossBuckets_self q l r

end Histogram

namespace PropertySummary

open Histogram

/-- A range that covers all numbers of a property has the share of all buckets but the outer ones
without width, and so of all numbers if the outer ones have width. -/
theorem rangeFraction?_whole {p : PropertySummary ℚ} (hq : p.quantiles.Pairwise (· ≤ ·)) {n : ℕ}
    (hlength : p.quantiles.length = n + 2) (hnumeric : 0 < p.numeric) {low high : Bound ℚ}
    (hlow : (Bound.number (quantile p.quantiles 0)).lt low = false)
    (hhigh : high.lt (.number (quantile p.quantiles (n + 1))) = false) :
    p.rangeFraction? low high =
        some (((n + 1 - flat p.quantiles 0 - flat p.quantiles n : ℕ) : ℚ) / ((n + 1 : ℕ) : ℚ)) ∧
      (p.rangeFraction? low high = some 1 ↔
        quantile p.quantiles 0 ≠ quantile p.quantiles 1 ∧
          quantile p.quantiles n ≠ quantile p.quantiles (n + 1)) := by
  have horder : high.lt low = false := by
    have hends : quantile p.quantiles 0 ≤ quantile p.quantiles (n + 1) :=
      quantile_mono hq (Nat.zero_le _) (by omega)
    cases low <;> cases high <;> simp_all [Bound.lt]
    exact hlow.trans (hends.trans hhigh)
  have hshare := rangeFraction?_eq_share hnumeric horder
  rw [share_whole hq hlength.symm hlow hhigh] at hshare
  refine ⟨hshare, ?_⟩
  rw [hshare, Option.some_inj, div_eq_one_iff_eq (by positivity), Nat.cast_inj, flat, flat]
  split <;> split <;> simp_all

/-- Half of the values are the least one. -/
def skewed : PropertySummary ℚ := ⟨100, 50, 100, ∅, [0, 0, 10, 20, 30]⟩

/-- Three of four buckets are left. -/
theorem rangeFraction?_whole_skewed :
    skewed.rangeFraction? .lowest .highest = some (3 / 4) ∧
      skewed.rangeFraction? .lowest .highest ≠ some 1 := by
  have hq : skewed.quantiles.Pairwise (· ≤ ·) := by decide +kernel
  have hlow : (Bound.number (quantile skewed.quantiles 0)).lt .lowest = false := rfl
  have hhigh : Bound.highest.lt (.number (quantile skewed.quantiles 4)) = false := rfl
  obtain ⟨hshare, hiff⟩ := rangeFraction?_whole hq rfl (by decide +kernel) hlow hhigh
  exact ⟨hshare.trans (by decide +kernel), fun hone => (hiff.mp hone).1 (by decide +kernel)⟩

/-- All elements have the number five. -/
def constant : PropertySummary Float := ⟨1, 1, 1, ∅, [5, 5]⟩

/-- Of one number alone, a range without limits has nothing. -/
theorem rangeFraction?_loses_constant :
    constant.quantiles.Pairwise (· ≤ ·) ∧ 2 ≤ constant.quantiles.length ∧ 0 < constant.numeric ∧
      constant.rangeFraction? .lowest .highest = some 0 ∧
      constant.rangeFraction? .lowest .highest ≠ some 1 := by
  refine ⟨?_, by decide, by decide +kernel, by decide +kernel, by decide +kernel⟩
  decide +kernel

end PropertySummary

end PatternCardinality.Statistics
