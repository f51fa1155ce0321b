import Mathlib.Tactic.Ring
import PatternCardinality.Proofs.Statistics.Histogram
import PatternCardinality.Statistics.Property

/-!
# Values spread evenly over buckets

If each bucket of a histogram holds as many values as another, evenly spread, then a range has the
mean over the buckets of the part of each that it covers. Where the quantiles increase, that is the
share that the indices of the outer buckets give: an end of the range has a rank among the buckets,
which grows evenly from one quantile to the next, and the share is the difference of two ranks.
-/

namespace PatternCardinality

namespace Bound

variable {x y : ℚ} {b c low high : Bound ℚ}

theorem number_lt_of_le (hxy : x ≤ y) (h : (number y).lt c = true) : (number x).lt c = true := by
  cases c with
  | lowest => cases h
  | number z => exact decide_eq_true (hxy.trans_lt (of_decide_eq_true h))
  | highest => simp [lt]

theorem lt_number_of_le (hxy : x ≤ y) (h : c.lt (number x) = true) : c.lt (number y) = true := by
  cases c with
  | lowest => simp [lt]
  | number z => exact decide_eq_true ((of_decide_eq_true h).trans_le hxy)
  | highest => cases h

theorem lt_of_lt_of_not_lt (h : b.lt low = true) (horder : high.lt low = false) :
    b.lt high = true := by
  cases b <;> cases low <;> cases high <;> simp_all [lt]
  exact h.trans_le horder

theorem lt_of_not_lt_of_lt (horder : high.lt low = false) (h : high.lt c = true) :
    low.lt c = true := by
  cases c <;> cases low <;> cases high <;> simp_all [lt]
  exact horder.trans_lt h

end Bound

namespace Statistics

namespace Histogram

/-- The length of the part of the interval from `a` to `b` that lies between two ends. -/
def common : Bound ℚ → Bound ℚ → ℚ → ℚ → ℚ
  | .lowest, .highest, a, b => b - a
  | .lowest, .number y, a, b => max 0 (min b y - a)
  | .number x, .highest, a, b => max 0 (b - max a x)
  | .number x, .number y, a, b => max 0 (min b y - max a x)
  | .highest, _, _, _ => 0
  | _, .lowest, _, _ => 0

/-- The share of a range if every bucket holds as many values as another, spread evenly in it. -/
def evenShare (q : List ℚ) (low high : Bound ℚ) : ℚ :=
  1 / ((q.length - 1 : ℕ) : ℚ) *
    (List.zipWith (fun a b => common low high a b / (b - a)) q q.tail).sum

/-- The point of the interval from `a` to `b` that is next to an end. -/
def cut (a b : ℚ) : Bound ℚ → ℚ
  | .lowest => a
  | .number x => max a (min b x)
  | .highest => b

/-- How many buckets lie below an end, the one that it is in as far as it reaches. -/
def rank (q : List ℚ) (c : Bound ℚ) : ℚ :=
  (List.zipWith (fun a b => (cut a b c - a) / (b - a)) q q.tail).sum

section Cut

variable {a b x : ℚ} {low high c : Bound ℚ}

theorem cut_mem (hab : a ≤ b) (c : Bound ℚ) : a ≤ cut a b c ∧ cut a b c ≤ b := by
  cases c with
  | lowest => exact ⟨le_rfl, hab⟩
  | number x => exact ⟨le_max_left _ _, max_le hab (min_le_left _ _)⟩
  | highest => exact ⟨hab, le_rfl⟩

theorem cut_of_le (hx : x ≤ a) : cut a b (.number x) = a :=
  max_eq_left ((min_le_right _ _).trans hx)

theorem cut_of_ge (hab : a ≤ b) (hx : b ≤ x) : cut a b (.number x) = b := by
  rw [cut, min_eq_left hx, max_eq_right hab]

theorem cut_of_mem (ha : a ≤ x) (hb : x ≤ b) : cut a b (.number x) = x := by
  rw [cut, min_eq_right hb, max_eq_right ha]

theorem cut_of_above (hab : a ≤ b) (h : (Bound.number b).lt c = true) : cut a b c = b := by
  cases c with
  | lowest => cases h
  | number x => exact cut_of_ge hab (of_decide_eq_true h).le
  | highest => rfl

theorem cut_of_below (h : c.lt (.number a) = true) : cut a b c = a := by
  cases c with
  | lowest => rfl
  | number x => exact cut_of_le (of_decide_eq_true h).le
  | highest => cases h

/-- It does not matter to an interval if an end is cut to a wider one before. -/
theorem cut_cut {a' b' : ℚ} (ha : a ≤ a') (hab : a' ≤ b') (hb : b' ≤ b) (c : Bound ℚ) :
    cut a' b' (.number (cut a b c)) = cut a' b' c := by
  cases c with
  | lowest => exact cut_of_le ha
  | number x => simp only [cut]; grind
  | highest => exact cut_of_ge hab hb

theorem common_eq (hab : a ≤ b) (horder : high.lt low = false) :
    common low high a b = cut a b high - cut a b low := by
  cases low <;> cases high <;> simp_all [common, cut, Bound.lt]
  all_goals grind

theorem cut_mono (hab : a ≤ b) (horder : high.lt low = false) : cut a b low ≤ cut a b high := by
  have hnonneg : 0 ≤ common low high a b := by
    cases low <;> cases high <;> simp_all [common]
  rwa [common_eq hab horder, sub_nonneg] at hnonneg

/-- A lower end that is not above the histogram is cut to the point next to it. -/
theorem greatest_eq_cut (h : (Bound.number b).lt low = false) :
    low.greatest (.number a) = .number (cut a b low) := by
  cases low with
  | lowest => simp [Bound.greatest, Bound.lt, Bound.isNaN, cut]
  | number x =>
    have hx : x ≤ b := by simpa [Bound.lt] using h
    rw [greatest_number, cut, min_eq_right hx, max_comm]
  | highest => simp [Bound.lt] at h

/-- An upper end that is not below the histogram is cut to the point next to it. -/
theorem least_eq_cut (hab : a ≤ b) (h : high.lt (.number a) = false) :
    high.least (.number b) = .number (cut a b high) := by
  cases high with
  | lowest => simp [Bound.lt] at h
  | number x =>
    have hx : a ≤ x := by simpa [Bound.lt] using h
    rw [least_number, cut, max_eq_right (le_min hab hx), min_comm]
  | highest => simp [Bound.least, Bound.lt, Bound.isNaN, cut]

end Cut

variable {q : List ℚ}

section Rank

variable {x : ℚ}

theorem rank_cons (a b : ℚ) (q : List ℚ) (c : Bound ℚ) :
    rank (a :: b :: q) c = (cut a b c - a) / (b - a) + rank (b :: q) c := List.sum_cons

/-- No bucket lies below an end that all quantiles lie above. -/
theorem rank_eq_zero (h : ∀ y ∈ q, x ≤ y) : rank q (.number x) = 0 := by
  refine List.sum_eq_zero (fun z hz => ?_)
  obtain ⟨i, hi, rfl⟩ := List.getElem_of_mem hz
  rw [List.length_zipWith] at hi
  have ha := h q[i] (List.getElem_mem _)
  rw [List.getElem_zipWith, cut_of_le ha, sub_self, zero_div]

/-- Inside a bucket the rank of an end grows evenly. -/
theorem rank_eq (hq : q.Pairwise (· < ·)) {i : ℕ} (hi : i + 1 < q.length)
    (hlow : quantile q i ≤ x) (hhigh : x ≤ quantile q (i + 1)) :
    rank q (.number x) = i + (x - quantile q i) / (quantile q (i + 1) - quantile q i) := by
  induction q generalizing i with
  | nil => exact absurd hi (Nat.not_lt_zero _)
  | cons a q ih =>
    obtain ⟨ha, hq⟩ := List.pairwise_cons.mp hq
    cases q with
    | nil => exact absurd (Nat.lt_of_succ_lt_succ hi) (Nat.not_lt_zero _)
    | cons b q =>
      have hab : a < b := ha b List.mem_cons_self
      have hsucc : ∀ j, quantile (a :: b :: q) (j + 1) = quantile (b :: q) j := fun _ => rfl
      rw [rank_cons]
      cases i with
      | zero =>
        have habove : ∀ y ∈ b :: q, x ≤ y :=
          List.forall_mem_cons.mpr
            ⟨hhigh, fun y hy => hhigh.trans ((List.pairwise_cons.mp hq).1 y hy).le⟩
        have hcut : cut a b (.number x) = x := cut_of_mem hlow hhigh
        rw [rank_eq_zero habove, hcut, add_zero, Nat.cast_zero, zero_add]
        rfl
      | succ i =>
        rw [hsucc] at hlow hhigh
        have hi : i + 1 < (b :: q).length := Nat.lt_of_succ_lt_succ hi
        have hbelow : b ≤ x :=
          (quantile_mono (hq.imp le_of_lt) (Nat.zero_le i) (Nat.lt_of_succ_lt hi)).trans hlow
        rw [cut_of_ge hab.le hbelow, div_self (sub_pos.mpr hab).ne', ih hq hi hlow hhigh, hsucc,
          hsucc, Nat.cast_succ]
        ring

/-- An end has the rank of the point of the histogram that is next to it. -/
theorem rank_cut {first last : ℚ} (hq : q.Pairwise (· ≤ ·)) (h : ∀ y ∈ q, first ≤ y ∧ y ≤ last)
    (c : Bound ℚ) : rank q (.number (cut first last c)) = rank q c := by
  induction q with
  | nil => rfl
  | cons a q ih =>
    cases q with
    | nil => rfl
    | cons b q =>
      obtain ⟨ha, hq⟩ := List.pairwise_cons.mp hq
      obtain ⟨hfirst, h⟩ := List.forall_mem_cons.mp h
      rw [rank_cons, rank_cons, ih hq h,
        cut_cut hfirst.1 (ha b List.mem_cons_self) (h b List.mem_cons_self).2]

theorem evenShare_eq (hq : q.Pairwise (· ≤ ·)) {low high : Bound ℚ} (horder : high.lt low = false) :
    evenShare q low high = (rank q high - rank q low) / ((q.length - 1 : ℕ) : ℚ) := by
  have hsum : (List.zipWith (fun a b => common low high a b / (b - a)) q q.tail).sum =
      rank q high - rank q low := by
    induction q with
    | nil => exact (sub_self _).symm
    | cons a q ih =>
      cases q with
      | nil => exact (sub_self _).symm
      | cons b q =>
        obtain ⟨ha, hq⟩ := List.pairwise_cons.mp hq
        have hmore := ih hq
        rw [List.tail_cons] at hmore
        rw [rank_cons, rank_cons, List.tail_cons, List.zipWith_cons_cons, List.sum_cons,
          common_eq (ha b List.mem_cons_self) horder, hmore]
        ring
  rw [evenShare, hsum, one_div_mul_eq_div]

end Rank

section Buckets

variable {l r : ℕ} {y z : ℚ}

theorem withinBucket_eq (hwidth : quantile q l < quantile q (l + 1)) (y z : ℚ) :
    withinBucket q y z l =
      (z - y) / (quantile q (l + 1) - quantile q l) / ((q.length - 1 : ℕ) : ℚ) :=
  if_neg (not_le.mpr (sub_pos.mpr hwidth))

theorem firstPart_eq (hwidth : quantile q l < quantile q (l + 1)) (hy : quantile q l ≤ y) :
    firstPart q (.number y) l =
      (quantile q (l + 1) - y) / (quantile q (l + 1) - quantile q l) := by
  have hlt : (Bound.number y).lt (.number (quantile q l)) = false := by simpa [Bound.lt] using hy
  have hne : (quantile q (l + 1) == quantile q l) = false := by simpa using hwidth.ne'
  have htoBound : Scalar.toBound (quantile q l) = .number (quantile q l) := rfl
  simp only [firstPart, htoBound, hlt, hne]
  rfl

theorem lastPart_eq (hwidth : quantile q r < quantile q (r + 1)) (hz : z ≤ quantile q (r + 1)) :
    lastPart q (.number z) (r + 1) =
      (z - quantile q r) / (quantile q (r + 1) - quantile q r) := by
  have hlt : (Bound.number (quantile q (r + 1))).lt (.number z) = false := by
    simpa [Bound.lt] using hz
  have hne : (quantile q (r + 1) == quantile q r) = false := by simpa using hwidth.ne'
  have htoBound : Scalar.toBound (quantile q (r + 1)) = .number (quantile q (r + 1)) := rfl
  simp only [lastPart, Nat.add_sub_cancel, htoBound, hlt, hne]
  rfl

/-- Several buckets are as many as the ranks of two points in the outer ones differ. -/
theorem acrossBuckets_eq (hlr : l ≤ r) (hwidth : quantile q l < quantile q (l + 1))
    (hwidth' : quantile q r < quantile q (r + 1)) (hy : quantile q l ≤ y)
    (hz : z ≤ quantile q (r + 1)) : acrossBuckets q (.number y) (.number z) l (r + 1) =
      (r + (z - quantile q r) / (quantile q (r + 1) - quantile q r) -
        (l + (y - quantile q l) / (quantile q (l + 1) - quantile q l))) /
          ((q.length - 1 : ℕ) : ℚ) := by
  have hcount : ((r + 1 - l : ℕ) : ℚ) = r + 1 - l := by
    rw [Nat.cast_sub (by omega), Nat.cast_succ]
  have hrest : (quantile q (l + 1) - y) / (quantile q (l + 1) - quantile q l) =
      1 - (y - quantile q l) / (quantile q (l + 1) - quantile q l) := by
    rw [eq_sub_iff_add_eq, ← add_div, sub_add_sub_cancel, div_self (sub_pos.mpr hwidth).ne']
  rw [acrossBuckets, firstPart_eq hwidth hy, lastPart_eq hwidth' hz, hrest]
  change (_ + ((r + 1 - l : ℕ) : ℚ) - (1 + 1) + _) / ((q.length - 1 : ℕ) : ℚ) = _
  rw [hcount]
  ring

end Buckets

theorem quantile_lt (hq : q.Pairwise (· < ·)) {i j : ℕ} (hij : i < j) (hj : j < q.length) :
    quantile q i < quantile q j := by
  rw [quantile_eq (by omega), quantile_eq hj]
  exact List.pairwise_iff_getElem.mp hq i j (by omega) hj hij

section Share

variable {low high : Bound ℚ}

/-- Between two points of the histogram, the share is the difference of their ranks. -/
theorem share_inside (hq : q.Pairwise (· < ·)) (hlength : 2 ≤ q.length) {y z : ℚ}
    (hy : quantile q 0 ≤ y) (hyz : y ≤ z) (hz : z ≤ quantile q (q.length - 1))
    (hlow : low.greatest (.number (quantile q 0)) = .number y)
    (hhigh : high.least (.number (quantile q (q.length - 1))) = .number z) :
    share q low high = (rank q (.number z) - rank q (.number y)) / ((q.length - 1 : ℕ) : ℚ) := by
  have hmono : q.Pairwise (· ≤ ·) := hq.imp le_of_lt
  have hlower := lower_le q (.number y)
  have hupper := upper_le q (.number z)
  have hbegin := quantile_lower_le (q := q) (by omega) hy
  have hstop := le_quantile_upper (q := q) (by omega) hz
  have hafter := le_quantile_lower (q := q) (y := y) hmono
  have hbefore := quantile_upper_le (q := q) (z := z) hmono
  rw [share_eq hlength hlow hhigh]
  generalize lower q (.number y) = l at *
  generalize upper q (.number z) = r at *
  split
  · next hle =>
    have hsame : y = z :=
      le_antisymm hyz (hstop.trans ((quantile_mono hmono hle (by omega)).trans hbegin))
    rw [hsame, sub_self, zero_div]
  · next hlr =>
    obtain ⟨r, rfl⟩ : ∃ k, r = k + 1 := ⟨r - 1, by omega⟩
    have hwidth : quantile q l < quantile q (l + 1) := quantile_lt hq (Nat.lt_add_one l) (by omega)
    have hwidth' : quantile q r < quantile q (r + 1) := quantile_lt hq (Nat.lt_add_one r) (by omega)
    have hbefore : quantile q r ≤ z := hbefore (Nat.succ_pos r)
    rw [rank_eq hq (by omega) hbegin (hafter (by omega)), rank_eq hq (by omega) hbefore hstop]
    split
    · next hsame =>
      obtain rfl : l = r := by omega
      rw [withinBucket_eq hwidth]
      change (z - y) / _ / _ = _
      ring
    · exact acrossBuckets_eq (by omega) hwidth hwidth' hbegin hstop

/-- A range above the histogram holds no values. -/
theorem share_above (hq : q.Pairwise (· ≤ ·)) (hlength : 2 ≤ q.length)
    (h : (Bound.number (quantile q (q.length - 1))).lt low = true) : share q low high = 0 := by
  have habove : ∀ x ∈ q, (Bound.number x).lt low = true :=
    fun x hx => Bound.number_lt_of_le (quantile_bounds hq hx).2 h
  have hfirst : quantile q 0 ≤ quantile q (q.length - 1) :=
    quantile_mono hq (Nat.zero_le _) (by omega)
  have hlow : low.greatest (.number (quantile q 0)) = low := by
    rw [Bound.greatest, Bound.number_lt_of_le hfirst h, Bool.true_or, if_pos rfl]
  rw [share_eq hlength hlow rfl, lower_eq habove, if_pos (upper_le q _)]

/-- A range below the histogram holds no values. -/
theorem share_below (hq : q.Pairwise (· ≤ ·)) (hlength : 2 ≤ q.length)
    (h : high.lt (.number (quantile q 0)) = true) : share q low high = 0 := by
  have hbelow : ∀ x ∈ q, high.lt (.number x) = true :=
    fun x hx => Bound.lt_number_of_le (quantile_bounds hq hx).1 h
  have hlast : quantile q 0 ≤ quantile q (q.length - 1) :=
    quantile_mono hq (Nat.zero_le _) (by omega)
  have hhigh : high.least (.number (quantile q (q.length - 1))) = high := by
    rw [Bound.least, Bound.lt_number_of_le hlast h, Bool.true_or, if_pos rfl]
  rw [share_eq hlength rfl hhigh, upper_eq hbelow, if_pos (Nat.zero_le _)]

/-- The share of a range is as if the values were spread evenly over each bucket. -/
theorem share_eq_evenShare (hq : q.Pairwise (· < ·)) (hlength : 2 ≤ q.length)
    (horder : high.lt low = false) : share q low high = evenShare q low high := by
  have hmono : q.Pairwise (· ≤ ·) := hq.imp le_of_lt
  have hbounds : ∀ x ∈ q, quantile q 0 ≤ x ∧ x ≤ quantile q (q.length - 1) :=
    fun x hx => quantile_bounds hmono hx
  have hends : quantile q 0 ≤ quantile q (q.length - 1) :=
    quantile_mono hmono (Nat.zero_le _) (by omega)
  rw [evenShare_eq hmono horder, ← rank_cut hmono hbounds low, ← rank_cut hmono hbounds high]
  cases hlow : (Bound.number (quantile q (q.length - 1))).lt low with
  | true =>
    rw [share_above hmono hlength hlow, cut_of_above hends hlow,
      cut_of_above hends (Bound.lt_of_lt_of_not_lt hlow horder), sub_self, zero_div]
  | false =>
    cases hhigh : high.lt (.number (quantile q 0)) with
    | true =>
      rw [share_below hmono hlength hhigh, cut_of_below hhigh,
        cut_of_below (Bound.lt_of_not_lt_of_lt horder hhigh), sub_self, zero_div]
    | false =>
      exact share_inside hq hlength (cut_mem hends low).1 (cut_mono hends horder)
        (cut_mem hends high).2 (greatest_eq_cut hlow) (least_eq_cut hends hhigh)

end Share

end Histogram

namespace PropertySummary

variable {p : PropertySummary ℚ} {low high : Bound ℚ}

theorem rangeFraction?_eq_share (hnumeric : 0 < p.numeric) (horder : high.lt low = false) :
    p.rangeFraction? low high = some (Histogram.share p.quantiles low high) := by
  have hsome : (p.numeric == 0) = false := by simpa using hnumeric.ne'
  rw [rangeFraction?, horder, hsome, Bool.or_self, if_neg Bool.false_ne_true]

/-- Where quantiles increase, the share of a range is the mean over the buckets of the part of each
that the range covers. -/
theorem rangeFraction?_eq_evenShare (hq : p.quantiles.Pairwise (· < ·))
    (hlength : 2 ≤ p.quantiles.length) (hnumeric : 0 < p.numeric) (horder : high.lt low = false) :
    p.rangeFraction? low high = some (Histogram.evenShare p.quantiles low high) := by
  rw [rangeFraction?_eq_share hnumeric horder, Histogram.share_eq_evenShare hq hlength horder]

/-- The last of three buckets is as wide as the others together. -/
def uneven : PropertySummary ℚ := ⟨100, 50, 100, ∅, [0, 10, 20, 40]⟩

/-- Half of the first bucket and half of the last one, or all beyond the first. -/
theorem rangeFraction?_uneven :
    uneven.rangeFraction? (.number 5) (.number 30) = some (2 / 3) ∧
      uneven.rangeFraction? (.number 10) .highest = some (2 / 3) := by
  have hq : uneven.quantiles.Pairwise (· < ·) := by decide +kernel
  have hlength : 2 ≤ uneven.quantiles.length := by decide
  have hnumeric : 0 < uneven.numeric := by decide +kernel
  exact ⟨(rangeFraction?_eq_evenShare hq hlength hnumeric (by decide +kernel)).trans
      (by decide +kernel),
    (rangeFraction?_eq_evenShare hq hlength hnumeric (by decide)).trans (by decide +kernel)⟩

end PropertySummary

end Statistics

end PatternCardinality
