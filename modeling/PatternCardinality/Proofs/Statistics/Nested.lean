import Mathlib.Tactic.FieldSimp
import PatternCardinality.Proofs.Statistics.EquiDepth

/-!
# Nested ranges

Quantiles that do not decrease may be equal, so that buckets have no width, and the indices of the
outer buckets of a range jump as its ends move over them. Still each end has a rank of its own among
the buckets that grows with the end, however it jumps, and the share of a range is the difference of
the ranks of its ends, or nothing if they are the wrong way round. So a range has no larger share
than one that contains it, and none has more than all.
-/

namespace PatternCardinality

/-- The ends of a range that contains one with its ends in order are in order. -/
theorem Bound.ordered_of_contains {low high low' high' : Bound ℚ} (horder : high.lt low = false)
    (hlow : low.lt low' = false) (hhigh : high'.lt high = false) : high'.lt low' = false := by
  by_contra h
  have hcross := lt_of_lt_of_not_lt (Bool.not_eq_false _ ▸ h) hlow
  rw [lt_of_not_lt_of_lt hhigh hcross] at horder
  cases horder

namespace Statistics

namespace Histogram

variable {q : List ℚ}

/-- The buckets below the lower end of a range: those in front of its own bucket, and what the range
leaves out of that one. A bucket without width, where the quotient is zero, is left out in no part.
-/
def lowerRank (q : List ℚ) (y : ℚ) : ℚ :=
  let l := lower q (.number y)
  l + (y - quantile q l) / (quantile q (l + 1) - quantile q l)

/-- The buckets below the upper end of a range: those up to its own bucket, without what the range
leaves out of that one. -/
def upperRank (q : List ℚ) (z : ℚ) : ℚ :=
  let r := upper q (.number z)
  r - (quantile q r - z) / (quantile q r - quantile q (r - 1))

section Reach

variable {beyond : Bound ℚ → Bound ℚ → Bool} {b c : Bound ℚ}

/-- A bound that more quantiles lie beyond is reached later. -/
theorem reach_mono (hbeyond : ∀ x, beyond (.number x) b = true → beyond (.number x) c = true)
    (hequal : ∀ x, (Bound.number x).eq b = true →
      beyond (.number x) c = true ∨ (Bound.number x).eq c = true) (l : List ℚ) :
    reach beyond b l ≤ reach beyond c l := by
  induction l with
  | nil => exact le_rfl
  | cons x l ih =>
    have htoBound : Scalar.toBound x = .number x := rfl
    simp only [reach, htoBound]
    by_cases hb : beyond (.number x) b = true
    · rw [if_pos hb, if_pos (hbeyond x hb)]
      exact Nat.succ_le_succ ih
    · rw [if_neg hb]
      split
      · next heq =>
        split
        · exact Nat.succ_le_succ (Nat.zero_le _)
        · next hc => rw [if_pos ((hequal x heq).resolve_left hc)]
      · exact Nat.zero_le _

end Reach

theorem lower_mono (q : List ℚ) {y y' : ℚ} (h : y ≤ y') :
    lower q (.number y) ≤ lower q (.number y') := by
  refine reach_mono (fun x hx => ?_) (fun x hx => ?_) _
  · exact decide_eq_true ((of_decide_eq_true hx).trans_le h)
  · have heq : x = y := by simpa [Bound.eq] using hx
    rcases (heq.le.trans h).lt_or_eq with hlt | hsame
    · exact .inl (decide_eq_true hlt)
    · exact .inr (by simp [Bound.eq, hsame])

theorem upper_mono (q : List ℚ) {z z' : ℚ} (h : z ≤ z') :
    upper q (.number z) ≤ upper q (.number z') := by
  refine Nat.sub_le_sub_left (reach_mono (fun x hx => ?_) (fun x hx => ?_) _) _
  · exact decide_eq_true (h.trans_lt (of_decide_eq_true hx))
  · have heq : x = z' := by simpa [Bound.eq] using hx
    rcases (h.trans heq.ge).lt_or_eq with hlt | hsame
    · exact .inl (decide_eq_true hlt)
    · exact .inr (by simp [Bound.eq, hsame])

theorem part_bounds {a b x : ℚ} (ha : a ≤ x) (hb : x ≤ b) :
    0 ≤ (x - a) / (b - a) ∧ (x - a) / (b - a) ≤ 1 := by
  have hwidth : 0 ≤ b - a := sub_nonneg.mpr (ha.trans hb)
  exact ⟨div_nonneg (sub_nonneg.mpr ha) hwidth,
    div_le_one_of_le₀ (sub_le_sub_right hb a) hwidth⟩

theorem rest_bounds {a b x : ℚ} (ha : a ≤ x) (hb : x ≤ b) :
    0 ≤ (b - x) / (b - a) ∧ (b - x) / (b - a) ≤ 1 := by
  have hwidth : 0 ≤ b - a := sub_nonneg.mpr (ha.trans hb)
  exact ⟨div_nonneg (sub_nonneg.mpr hb) hwidth,
    div_le_one_of_le₀ (sub_le_sub_left ha b) hwidth⟩

section Ranks

variable (hq : q.Pairwise (· ≤ ·)) (hlength : 2 ≤ q.length) {y y' z z' : ℚ}

include hq hlength

/-- Either there is a bucket above a point of the histogram, or the point is the last quantile. -/
theorem lower_cases (hfirst : quantile q 0 ≤ y) (hlast : y ≤ quantile q (q.length - 1)) :
    lower q (.number y) + 1 < q.length ∧ quantile q (lower q (.number y)) ≤ y ∧
        y ≤ quantile q (lower q (.number y) + 1) ∨
      lower q (.number y) = q.length - 1 ∧ quantile q (lower q (.number y)) = y := by
  have hlower := lower_le q (.number y)
  have hbegin := quantile_lower_le (q := q) (by omega) hfirst
  rcases Nat.lt_or_ge (lower q (.number y) + 1) q.length with h | h
  · exact .inl ⟨h, hbegin, le_quantile_lower hq h⟩
  · have hall : lower q (.number y) = q.length - 1 := by omega
    exact .inr ⟨hall, le_antisymm hbegin (by rwa [hall])⟩

theorem lowerRank_bounds (hfirst : quantile q 0 ≤ y) (hlast : y ≤ quantile q (q.length - 1)) :
    (lower q (.number y) : ℚ) ≤ lowerRank q y ∧ lowerRank q y ≤ lower q (.number y) + 1 := by
  simp only [lowerRank]
  rcases lower_cases hq hlength hfirst hlast with ⟨-, hbegin, hstop⟩ | ⟨-, hlast⟩
  · obtain ⟨hnonneg, hle⟩ := part_bounds hbegin hstop
    constructor <;> linarith
  · rw [hlast, sub_self, zero_div]
    constructor <;> linarith

theorem lowerRank_mono (hfirst : quantile q 0 ≤ y) (hyy' : y ≤ y')
    (hlast : y' ≤ quantile q (q.length - 1)) : lowerRank q y ≤ lowerRank q y' := by
  have hy := (lowerRank_bounds hq hlength hfirst (hyy'.trans hlast)).2
  have hy' := (lowerRank_bounds hq hlength (hfirst.trans hyy') hlast).1
  rcases (lower_mono q hyy').lt_or_eq with hlt | hsame
  · -- the bucket changes
    have hnext : (lower q (.number y) : ℚ) + 1 ≤ lower q (.number y') := by exact_mod_cast hlt
    exact hy.trans (hnext.trans hy')
  · simp only [lowerRank, ← hsame]
    rcases lower_cases hq hlength hfirst (hyy'.trans hlast) with ⟨h, -, -⟩ | ⟨hall, hy⟩
    · have hwidth := quantile_mono hq (Nat.le_succ (lower q (.number y))) h
      have hpart := div_le_div_of_nonneg_right (sub_le_sub_right hyy' (quantile q (lower q (.number y))))
        (sub_nonneg.mpr hwidth)
      linarith
    · have hyy' : y = y' := le_antisymm hyy' (by rwa [← hy, hall])
      rw [hyy']

theorem upper_cases (hfirst : quantile q 0 ≤ z) (hlast : z ≤ quantile q (q.length - 1)) :
    0 < upper q (.number z) ∧ quantile q (upper q (.number z) - 1) ≤ z ∧
        z ≤ quantile q (upper q (.number z)) ∨
      upper q (.number z) = 0 ∧ quantile q (upper q (.number z)) = z := by
  have hstop := le_quantile_upper (q := q) (by omega) hlast
  rcases Nat.eq_zero_or_pos (upper q (.number z)) with h | h
  · exact .inr ⟨h, le_antisymm (by rwa [h]) hstop⟩
  · exact .inl ⟨h, quantile_upper_le hq h, hstop⟩

theorem upperRank_bounds (hfirst : quantile q 0 ≤ z) (hlast : z ≤ quantile q (q.length - 1)) :
    (upper q (.number z) : ℚ) - 1 ≤ upperRank q z ∧ upperRank q z ≤ upper q (.number z) := by
  simp only [upperRank]
  rcases upper_cases hq hlength hfirst hlast with ⟨-, hbegin, hstop⟩ | ⟨-, hfirst⟩
  · obtain ⟨hnonneg, hle⟩ := rest_bounds hbegin hstop
    constructor <;> linarith
  · rw [hfirst, sub_self, zero_div]
    constructor <;> linarith

theorem upperRank_mono (hfirst : quantile q 0 ≤ z) (hzz' : z ≤ z')
    (hlast : z' ≤ quantile q (q.length - 1)) : upperRank q z ≤ upperRank q z' := by
  have hz := (upperRank_bounds hq hlength hfirst (hzz'.trans hlast)).2
  have hz' := (upperRank_bounds hq hlength (hfirst.trans hzz') hlast).1
  rcases (upper_mono q hzz').lt_or_eq with hlt | hsame
  · -- the bucket changes
    have hnext : (upper q (.number z) : ℚ) + 1 ≤ upper q (.number z') := by exact_mod_cast hlt
    linarith
  · simp only [upperRank, hsame]
    rcases upper_cases hq hlength (hfirst.trans hzz') hlast with ⟨h, -, -⟩ | ⟨hnone, hz'⟩
    · have hwidth := quantile_mono hq (Nat.sub_le (upper q (.number z')) 1)
        (Nat.lt_of_le_of_lt (upper_le q _) (by omega))
      have hrest := div_le_div_of_nonneg_right
        (sub_le_sub_left hzz' (quantile q (upper q (.number z')))) (sub_nonneg.mpr hwidth)
      linarith
    · have hzz' : z = z' := le_antisymm hzz' (by rwa [← hz', hnone])
      rw [hzz']

/-- What a range has of the bucket of its lower end. -/
theorem firstPart_lower (hfirst : quantile q 0 ≤ y) (h : lower q (.number y) + 1 < q.length) :
    firstPart q (.number y) (lower q (.number y)) =
      lower q (.number y) + 1 - lowerRank q y := by
  have hbegin := quantile_lower_le (q := q) (by omega) hfirst
  simp only [lowerRank, add_sub_add_left_eq_sub]
  rcases (quantile_mono hq (Nat.le_succ (lower q (.number y))) h).lt_or_eq with hwidth | hflat
  · rw [firstPart_eq hwidth hbegin, one_sub_div (sub_pos.mpr hwidth).ne', sub_sub_sub_cancel_right]
  · simp [firstPart, hflat]

/-- What a range has of the bucket of its upper end. -/
theorem lastPart_upper (hlast : z ≤ quantile q (q.length - 1)) {r : ℕ}
    (h : upper q (.number z) = r + 1) :
    lastPart q (.number z) (r + 1) = upperRank q z - r := by
  have hupper := upper_le q (.number z)
  have hstop := le_quantile_upper (q := q) (by omega) hlast
  rw [h] at hupper hstop
  simp only [upperRank, h, Nat.add_sub_cancel, Nat.cast_succ]
  rcases (quantile_mono hq (Nat.le_succ r) (by omega)).lt_or_eq with hwidth | hflat
  · rw [lastPart_eq hwidth hstop, eq_sub_iff_add_eq, eq_sub_iff_add_eq, add_right_comm, ← add_div,
      sub_add_sub_cancel', div_self (sub_pos.mpr hwidth).ne', add_comm]
  · simp [lastPart, hflat]

/-- What a range has of the only bucket that it is in. -/
theorem withinBucket_lower (h : upper q (.number z) = lower q (.number y) + 1) :
    withinBucket q y z (lower q (.number y)) =
      (upperRank q z - lowerRank q y) / ((q.length - 1 : ℕ) : ℚ) := by
  have hupper := upper_le q (.number z)
  simp only [upperRank, lowerRank, h, Nat.add_sub_cancel, Nat.cast_succ]
  generalize lower q (.number y) = l at *
  rcases (quantile_mono hq (Nat.le_succ l) (by omega)).lt_or_eq with hwidth | hflat
  · have hpos := sub_pos.mpr hwidth
    rw [withinBucket_eq hwidth]
    congr 1
    field_simp
    ring
  · simp [withinBucket, hflat]

/-- The share of a range between two points of the histogram. -/
theorem share_eq_ranks (hfirst : quantile q 0 ≤ y) (hyz : y ≤ z)
    (hlast : z ≤ quantile q (q.length - 1)) {low high : Bound ℚ}
    (hlow : low.greatest (.number (quantile q 0)) = .number y)
    (hhigh : high.least (.number (quantile q (q.length - 1))) = .number z) :
    share q low high =
      max 0 (upperRank q z - lowerRank q y) / ((q.length - 1 : ℕ) : ℚ) := by
  obtain ⟨hylower, hyle⟩ := lowerRank_bounds hq hlength hfirst (hyz.trans hlast)
  obtain ⟨hzlower, hzle⟩ := upperRank_bounds hq hlength (hfirst.trans hyz) hlast
  have hbuckets : (0 : ℚ) < ((q.length - 1 : ℕ) : ℚ) := Nat.cast_pos.mpr (by omega)
  have hupper := upper_le q (.number z)
  rw [share_eq hlength hlow hhigh]
  split
  · next hle =>
    have hranks : (upper q (.number z) : ℚ) ≤ lower q (.number y) := Nat.cast_le.mpr hle
    rw [max_eq_left (by linarith), zero_div]
  · next hlr =>
    split
    · next hsame =>
      have hwithin := withinBucket_lower hq hlength hsame.symm
      have hnonneg := withinBucket_nonneg q hyz (lower q (.number y))
      rw [hwithin, le_div_iff₀ hbuckets, zero_mul] at hnonneg
      rw [max_eq_right hnonneg]
      exact hwithin
    · next hmore =>
      obtain ⟨r, hr⟩ : ∃ r, upper q (.number z) = r + 1 := ⟨upper q (.number z) - 1, by omega⟩
      have hcount : ((r + 1 - lower q (.number y) : ℕ) : ℚ) = r + 1 - lower q (.number y) := by
        rw [Nat.cast_sub (by omega), Nat.cast_succ]
      have hbetween : (lower q (.number y) : ℚ) + 1 ≤ r := by
        have hnat : lower q (.number y) + 1 ≤ r := by omega
        exact_mod_cast hnat
      rw [hr, Nat.cast_succ] at hzlower
      rw [hr, acrossBuckets, firstPart_lower hq hlength hfirst (by omega),
        lastPart_upper hq hlength hlast hr, max_eq_right (by linarith)]
      change (_ + ((r + 1 - lower q (.number y) : ℕ) : ℚ) - (1 + 1) + _) /
        ((q.length - 1 : ℕ) : ℚ) = _
      rw [hcount]
      congr 1
      ring

end Ranks

section Share

variable {low high low' high' : Bound ℚ}

/-- The share of a range that is not beside the histogram, by the ranks of the points next to its
ends. -/
theorem share_eq_cut (hq : q.Pairwise (· ≤ ·)) (hlength : 2 ≤ q.length)
    (horder : high.lt low = false)
    (hbelow : (Bound.number (quantile q (q.length - 1))).lt low = false)
    (habove : high.lt (.number (quantile q 0)) = false) :
    share q low high =
      max 0 (upperRank q (cut (quantile q 0) (quantile q (q.length - 1)) high) -
        lowerRank q (cut (quantile q 0) (quantile q (q.length - 1)) low)) /
          ((q.length - 1 : ℕ) : ℚ) := by
  have hends : quantile q 0 ≤ quantile q (q.length - 1) :=
    quantile_mono hq (Nat.zero_le _) (by omega)
  exact share_eq_ranks hq hlength (cut_mem hends low).1 (cut_mono hends horder)
    (cut_mem hends high).2 (greatest_eq_cut hbelow) (least_eq_cut hends habove)

/-- A range without a share, or with neither end beyond the histogram. -/
theorem share_cases (hq : q.Pairwise (· ≤ ·)) (low high : Bound ℚ) :
    share q low high = 0 ∨
      2 ≤ q.length ∧ (Bound.number (quantile q (q.length - 1))).lt low = false ∧
        high.lt (.number (quantile q 0)) = false := by
  rcases lt_or_ge q.length 2 with hshort | hlength
  · exact .inl (share_of_short hshort low high)
  · cases hbelow : (Bound.number (quantile q (q.length - 1))).lt low with
    | true => exact .inl (share_above hq hlength hbelow)
    | false =>
      cases habove : high.lt (.number (quantile q 0)) with
      | true => exact .inl (share_below hq hlength habove)
      | false => exact .inr ⟨hlength, rfl, rfl⟩

/-- The share of a range is between nothing and all. -/
theorem share_unit (hq : q.Pairwise (· ≤ ·)) (horder : high.lt low = false) :
    0 ≤ share q low high ∧ share q low high ≤ 1 := by
  rcases share_cases hq low high with hnone | ⟨hlength, hbelow, habove⟩
  · rw [hnone]
    exact ⟨le_rfl, zero_le_one⟩
  · have hends : quantile q 0 ≤ quantile q (q.length - 1) :=
      quantile_mono hq (Nat.zero_le _) (by omega)
    obtain ⟨hylow, hyhigh⟩ := cut_mem hends low
    obtain ⟨hzlow, hzhigh⟩ := cut_mem hends high
    have hlower := (lowerRank_bounds hq hlength hylow hyhigh).1
    have hupper := (upperRank_bounds hq hlength hzlow hzhigh).2
    have hfirst := Nat.cast_nonneg (α := ℚ)
      (lower q (.number (cut (quantile q 0) (quantile q (q.length - 1)) low)))
    have hlast := Nat.cast_le (α := ℚ).mpr
      (upper_le q (.number (cut (quantile q 0) (quantile q (q.length - 1)) high)))
    rw [share_eq_cut hq hlength horder hbelow habove]
    refine ⟨div_nonneg (le_max_left _ _) (Nat.cast_nonneg _), ?_⟩
    exact div_le_one_of_le₀ (max_le (Nat.cast_nonneg _) (by linarith)) (Nat.cast_nonneg _)

/-- A range has no larger share than one that contains it. -/
theorem share_mono (hq : q.Pairwise (· ≤ ·)) (horder : high.lt low = false)
    (hlow : low.lt low' = false) (hhigh : high'.lt high = false) :
    share q low high ≤ share q low' high' := by
  have horder' := Bound.ordered_of_contains horder hlow hhigh
  rcases share_cases hq low high with hnone | ⟨hlength, hbelow, habove⟩
  · rw [hnone]
    exact (share_unit hq horder').1
  · have hbelow' : (Bound.number (quantile q (q.length - 1))).lt low' = false := by
      by_contra h
      rw [Bound.lt_of_lt_of_not_lt (Bool.not_eq_false _ ▸ h) hlow] at hbelow
      cases hbelow
    have habove' : high'.lt (.number (quantile q 0)) = false := by
      by_contra h
      rw [Bound.lt_of_not_lt_of_lt hhigh (Bool.not_eq_false _ ▸ h)] at habove
      cases habove
    have hends : quantile q 0 ≤ quantile q (q.length - 1) :=
      quantile_mono hq (Nat.zero_le _) (by omega)
    rw [share_eq_cut hq hlength horder hbelow habove,
      share_eq_cut hq hlength horder' hbelow' habove']
    refine div_le_div_of_nonneg_right (max_le_max le_rfl (sub_le_sub ?_ ?_)) (Nat.cast_nonneg _)
    · exact upperRank_mono hq hlength (cut_mem hends high).1 (cut_mono hends hhigh)
        (cut_mem hends high').2
    · exact lowerRank_mono hq hlength (cut_mem hends low').1 (cut_mono hends hlow)
        (cut_mem hends low).2

end Share

end Histogram

namespace PropertySummary

variable {p : PropertySummary ℚ} {low high low' high' : Bound ℚ}

/-- A range has a share of the numbers, no larger than that of a range that contains it, and this is
no larger than one. -/
theorem rangeFraction?_mono (hq : p.quantiles.Pairwise (· ≤ ·)) (hnumeric : 0 < p.numeric)
    (horder : high.lt low = false) (hlow : low.lt low' = false) (hhigh : high'.lt high = false) :
    ∃ s s', p.rangeFraction? low high = some s ∧ p.rangeFraction? low' high' = some s' ∧
      0 ≤ s ∧ s ≤ s' ∧ s' ≤ 1 := by
  have horder' := Bound.ordered_of_contains horder hlow hhigh
  exact ⟨_, _, rangeFraction?_eq_share hnumeric horder, rangeFraction?_eq_share hnumeric horder',
    (Histogram.share_unit hq horder).1, Histogram.share_mono hq horder hlow hhigh,
    (Histogram.share_unit hq horder').2⟩

/-- Most values are one number in the middle. -/
def crowded : PropertySummary ℚ := ⟨100, 50, 100, ∅, [0, 10, 10, 10, 40]⟩

/-- A range inside a bucket, and one that has buckets without width as well. -/
theorem rangeFraction?_mono_crowded :
    ∃ s s', crowded.rangeFraction? (.number 5) (.number 9) = some s ∧
      crowded.rangeFraction? .lowest (.number 11) = some s' ∧ 0 ≤ s ∧ s ≤ s' ∧ s' ≤ 1 := by
  have hq : crowded.quantiles.Pairwise (· ≤ ·) := by decide +kernel
  have hnumeric : 0 < crowded.numeric := by decide +kernel
  exact PropertySummary.rangeFraction?_mono hq hnumeric (by decide +kernel) rfl (by decide +kernel)

end PropertySummary

end Statistics

end PatternCardinality
