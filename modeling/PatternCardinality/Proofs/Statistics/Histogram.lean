import Mathlib.Data.List.GetD
import PatternCardinality.Proofs.Number.Exact
import PatternCardinality.Statistics.Histogram

/-!
# Shares of ranges

Where the quantiles of a histogram do not decrease, no range has a negative share: the bucket of its
lower end stops above the end, and the bucket of its upper end begins below it.
-/

namespace PatternCardinality.Statistics.Histogram

section Reach

variable {beyond : Bound ℚ → Bound ℚ → Bool} {b : Bound ℚ} {P : ℚ → Prop} {l : List ℚ}

/-- The quantile that is reached has whatever those have that do not lie beyond the bound. -/
theorem reach_spec (hstop : ∀ x, beyond (.number x) b = false → P x)
    (hl : l.Pairwise (fun x y => P x → P y))
    (hequal : ∀ x, (Bound.number x).eq b = true → P x) {x : ℚ}
    (hx : l[reach beyond b l]? = some x) : P x := by
  induction l with
  | nil => cases hx
  | cons y l ih =>
    obtain ⟨hy, hl⟩ := List.pairwise_cons.mp hl
    have htoBound : Scalar.toBound y = .number y := rfl
    simp only [reach, htoBound] at hx
    split at hx
    · exact ih hl (by simpa using hx)
    · next hbeyond =>
      split at hx
      · next heq =>
        have hmem : x ∈ l := List.mem_of_getElem? (by simpa using hx : l[0]? = some x)
        exact hy x hmem (hequal y heq)
      · have hxy : y = x := by simpa using hx
        exact hxy ▸ hstop y (Bool.not_eq_true _ ▸ hbeyond)

/-- So has the last quantile that was passed, or the one in front of all if none was. -/
theorem reach_passed (hpass : ∀ x, beyond (.number x) b = true → P x)
    (hequal : ∀ x, (Bound.number x).eq b = true → P x) {a : ℚ} (ha : P a) {x : ℚ}
    (hx : (a :: l)[reach beyond b l]? = some x) : P x := by
  induction l generalizing a with
  | nil =>
    have hax : a = x := by simpa [reach] using hx
    exact hax ▸ ha
  | cons y l ih =>
    have htoBound : Scalar.toBound y = .number y := rfl
    simp only [reach, htoBound] at hx
    split at hx
    · next hbeyond => exact ih (hpass y hbeyond) (by simpa using hx)
    · split at hx
      · next heq =>
        have hyx : y = x := by simpa using hx
        exact hyx ▸ hequal y heq
      · have hax : a = x := by simpa using hx
        exact hax ▸ ha

theorem reach_le_length (beyond : Bound ℚ → Bound ℚ → Bool) (b : Bound ℚ) (l : List ℚ) :
    reach beyond b l ≤ l.length := by
  induction l with
  | nil => exact le_rfl
  | cons x l ih =>
    rw [reach, List.length_cons]
    split
    · exact Nat.succ_le_succ ih
    · split <;> omega

theorem reach_eq_length (h : ∀ x ∈ l, beyond (.number x) b = true) :
    reach beyond b l = l.length := by
  induction l with
  | nil => rfl
  | cons x l ih =>
    have hx : beyond (Scalar.toBound x) b = true := h x List.mem_cons_self
    rw [reach, if_pos hx, ih (fun y hy => h y (List.mem_cons_of_mem _ hy)), List.length_cons]

end Reach

variable {q : List ℚ}

theorem quantile_eq {i : Nat} (hi : i < q.length) : quantile q i = q[i] := by
  rw [quantile, List.getD_eq_getElem _ _ hi]

theorem quantile_mono (hq : q.Pairwise (· ≤ ·)) {i j : Nat} (hij : i ≤ j) (hj : j < q.length) :
    quantile q i ≤ quantile q j := by
  rw [quantile_eq (by omega), quantile_eq hj]
  rcases Nat.lt_or_eq_of_le hij with hlt | rfl
  · exact List.pairwise_iff_getElem.mp hq i j (by omega) hj hlt
  · exact le_rfl

/-- All quantiles are between the first and the last. -/
theorem quantile_bounds (hq : q.Pairwise (· ≤ ·)) {x : ℚ} (hx : x ∈ q) :
    quantile q 0 ≤ x ∧ x ≤ quantile q (q.length - 1) := by
  obtain ⟨i, hi, rfl⟩ := List.getElem_of_mem hx
  rw [← quantile_eq hi]
  exact ⟨quantile_mono hq (Nat.zero_le i) hi, quantile_mono hq (by omega) (by omega)⟩

theorem lower_le (q : List ℚ) (low : Bound ℚ) : lower q low ≤ q.length - 1 := by
  rw [← List.length_tail]
  exact reach_le_length _ _ _

/-- The bucket of the lower end begins below it. -/
theorem quantile_lower_le {y : ℚ} (hpos : 0 < q.length) (hy : quantile q 0 ≤ y) :
    quantile q (lower q (.number y)) ≤ y := by
  have hlower := lower_le q (.number y)
  have hfound : (quantile q 0 :: q.tail)[reach Bound.lt (.number y) q.tail]? =
      some (quantile q (lower q (.number y))) := by
    rw [quantile_eq hpos, List.getElem_zero_eq_head, List.cons_head_tail, quantile_eq (by omega)]
    exact List.getElem?_eq_getElem _
  refine reach_passed (P := (· ≤ y)) (fun x hx => ?_) (fun x hx => ?_) hy hfound
  · have hlt : x < y := by simpa [Bound.lt] using hx
    exact hlt.le
  · have heq : x = y := by simpa [Bound.eq] using hx
    exact heq.le

/-- The bucket of the lower end stops above it. -/
theorem le_quantile_lower (hq : q.Pairwise (· ≤ ·)) {y : ℚ}
    (h : lower q (.number y) + 1 < q.length) : y ≤ quantile q (lower q (.number y) + 1) := by
  have hascending : q.tail.Pairwise (fun x x' => y ≤ x → y ≤ x') :=
    (hq.sublist (List.tail_sublist q)).imp (fun hle hy => le_trans hy hle)
  have hfound : q.tail[reach Bound.lt (.number y) q.tail]? =
      some (quantile q (lower q (.number y) + 1)) := by
    rw [quantile_eq h]
    simp only [lower] at h ⊢
    rw [List.getElem?_tail, List.getElem?_eq_getElem h]
  refine reach_spec (fun x hx => ?_) hascending (fun x hx => ?_) hfound
  · simpa [Bound.lt] using hx
  · have heq : x = y := by simpa [Bound.eq] using hx
    exact heq.ge

/-- The bucket of the upper end begins below it. -/
theorem quantile_upper_le (hq : q.Pairwise (· ≤ ·)) {z : ℚ} (h : 0 < upper q (.number z)) :
    quantile q (upper q (.number z) - 1) ≤ z := by
  have hdescending : q.reverse.tail.Pairwise (fun x x' => x ≤ z → x' ≤ z) :=
    ((List.pairwise_reverse.mpr hq).sublist (List.tail_sublist _)).imp
      (fun hle hz => le_trans hle hz)
  have hfound : q.reverse.tail[reach (fun x b => b.lt x) (.number z) q.reverse.tail]? =
      some (quantile q (upper q (.number z) - 1)) := by
    rw [upper] at h ⊢
    rw [quantile_eq (by omega), List.getElem?_tail, List.getElem?_reverse (by omega),
      List.getElem?_eq_getElem (by omega)]
    congr 2
  refine reach_spec (fun x hx => ?_) hdescending (fun x hx => ?_) hfound
  · simpa [Bound.lt] using hx
  · have heq : x = z := by simpa [Bound.eq] using hx
    exact heq.le

/-- The bucket of the upper end stops above it. -/
theorem le_quantile_upper {z : ℚ} (hpos : 0 < q.length) (hz : z ≤ quantile q (q.length - 1)) :
    z ≤ quantile q (upper q (.number z)) := by
  have hreach := reach_le_length (fun x b => b.lt x) (.number z) q.reverse.tail
  rw [List.length_tail, List.length_reverse] at hreach
  have hne : q.reverse ≠ [] := List.reverse_ne_nil_iff.mpr (List.ne_nil_of_length_pos hpos)
  have hreverse : quantile q (q.length - 1) :: q.reverse.tail = q.reverse := by
    have hlast : quantile q (q.length - 1) = q.reverse.head hne := by
      rw [quantile_eq (by omega), List.head_reverse, List.getLast_eq_getElem]
    rw [hlast, List.cons_head_tail]
  have hfound : (quantile q (q.length - 1) ::
      q.reverse.tail)[reach (fun x b => b.lt x) (.number z) q.reverse.tail]? =
        some (quantile q (upper q (.number z))) := by
    rw [hreverse, upper, quantile_eq (by omega), List.getElem?_reverse (by omega)]
    exact List.getElem?_eq_getElem _
  refine reach_passed (P := (z ≤ ·)) (fun x hx => ?_) (fun x hx => ?_) hz hfound
  · have hlt : z < x := by simpa [Bound.lt] using hx
    exact hlt.le
  · have heq : x = z := by simpa [Bound.eq] using hx
    exact heq.ge

theorem upper_le (q : List ℚ) (high : Bound ℚ) : upper q high ≤ q.length - 1 := Nat.sub_le _ _

theorem withinBucket_nonneg (q : List ℚ) {y z : ℚ} (h : y ≤ z) (l : Nat) :
    0 ≤ withinBucket q y z l := by
  simp only [withinBucket]
  split
  · positivity
  · next hwidth =>
    have hdiff : 0 ≤ z - y := sub_nonneg.mpr h
    have hpos := (not_le.mp hwidth).le
    exact div_nonneg (div_nonneg hdiff hpos) (Nat.cast_nonneg _)

theorem firstPart_nonneg {y : ℚ} {l : Nat} (hmono : quantile q l ≤ quantile q (l + 1))
    (hy : y ≤ quantile q (l + 1)) : 0 ≤ firstPart q (.number y) l := by
  simp only [firstPart]
  split
  · exact zero_le_one
  · exact div_nonneg (sub_nonneg.mpr hy) (sub_nonneg.mpr hmono)

theorem lastPart_nonneg {z : ℚ} {r : Nat} (hmono : quantile q (r - 1) ≤ quantile q r)
    (hz : quantile q (r - 1) ≤ z) : 0 ≤ lastPart q (.number z) r := by
  simp only [lastPart]
  split
  · exact zero_le_one
  · exact div_nonneg (sub_nonneg.mpr hz) (sub_nonneg.mpr hmono)

theorem acrossBuckets_nonneg (hq : q.Pairwise (· ≤ ·)) {y z : ℚ}
    (h : lower q (.number y) + 2 ≤ upper q (.number z)) :
    0 ≤ acrossBuckets q (.number y) (.number z) (lower q (.number y)) (upper q (.number z)) := by
  have hupper := upper_le q (.number z)
  set l := lower q (.number y) with hl
  set r := upper q (.number z) with hr
  have hfirst : 0 ≤ firstPart q (.number y) l :=
    firstPart_nonneg (quantile_mono hq (by omega) (by omega)) (le_quantile_lower hq (by omega))
  have hlast : 0 ≤ lastPart q (.number z) r :=
    lastPart_nonneg (quantile_mono hq (by omega) (by omega)) (quantile_upper_le hq (by omega))
  have hbetween : (2 : ℚ) ≤ ((r - l : Nat) : ℚ) := by
    have hnat : 2 ≤ r - l := by omega
    exact_mod_cast hnat
  rw [acrossBuckets]
  refine div_nonneg ?_ (Nat.cast_nonneg _)
  change 0 ≤ firstPart q (.number y) l + ((r - l : Nat) : ℚ) - (1 + 1) + lastPart q (.number z) r
  linarith

/-- A lower end above all quantiles reaches the last one. -/
theorem lower_eq {low : Bound ℚ} (h : ∀ x ∈ q, (Bound.number x).lt low = true) :
    lower q low = q.length - 1 := by
  rw [lower, reach_eq_length (fun x hx => h x (List.mem_of_mem_tail hx)), List.length_tail]

/-- An upper end below all quantiles reaches the first one. -/
theorem upper_eq {high : Bound ℚ} (h : ∀ x ∈ q, high.lt (.number x) = true) :
    upper q high = 0 := by
  rw [upper, reach_eq_length, List.length_tail, List.length_reverse, Nat.sub_self]
  exact fun x hx => h x (List.mem_reverse.mp (List.mem_of_mem_tail hx))

theorem greatest_number (x y : ℚ) :
    (Bound.number x).greatest (.number y) = .number (max x y) := by
  simp only [Bound.greatest, Bound.lt, Bound.isNaN, Scalar.isNaN_rat, Bool.or_false,
    decide_eq_true_eq]
  rw [max_comm, max_def_lt]
  split <;> rfl

theorem least_number (x y : ℚ) :
    (Bound.number x).least (.number y) = .number (min x y) := by
  simp only [Bound.least, Bound.lt, Bound.isNaN, Scalar.isNaN_rat, Bool.or_false,
    decide_eq_true_eq, min_def_lt]
  split <;> rfl

/-- Ends in order become numbers between the first and the last quantile, or meet outside of them.
-/
theorem cut_bounds {low high : Bound ℚ} {first last : ℚ} (hfl : first ≤ last)
    (horder : high.lt low = false) (hne : low.eq high = false) :
    ∃ y z, low.greatest (.number first) = .number y ∧ high.least (.number last) = .number z ∧
      (y ≤ z ∨ last < y ∨ z < first) := by
  have hlow : ∃ y, low.greatest (.number first) = .number y ∧
      (y = first ∨ low = .number y) := by
    cases low with
    | lowest => exact ⟨first, by simp [Bound.greatest, Bound.lt, Bound.isNaN], Or.inl rfl⟩
    | number x =>
      refine ⟨max x first, greatest_number x first, ?_⟩
      rcases max_choice x first with h | h
      · exact Or.inr (by rw [h])
      · exact Or.inl h
    | highest => cases high <;> simp [Bound.lt, Bound.eq] at horder hne
  have hhigh : ∃ z, high.least (.number last) = .number z ∧ (z = last ∨ high = .number z) := by
    cases high with
    | lowest => cases low <;> simp [Bound.lt, Bound.eq] at horder hne
    | number x =>
      refine ⟨min x last, least_number x last, ?_⟩
      rcases min_choice x last with h | h
      · exact Or.inr (by rw [h])
      · exact Or.inl h
    | highest => exact ⟨last, by simp [Bound.least, Bound.lt, Bound.isNaN], Or.inl rfl⟩
  obtain ⟨y, hy, hy'⟩ := hlow
  obtain ⟨z, hz, hz'⟩ := hhigh
  refine ⟨y, z, hy, hz, ?_⟩
  rcases hy' with rfl | rfl <;> rcases hz' with rfl | rfl
  · exact Or.inl hfl
  · rcases le_or_gt y z with h | h
    · exact Or.inl h
    · exact Or.inr (Or.inr h)
  · rcases le_or_gt y z with h | h
    · exact Or.inl h
    · exact Or.inr (Or.inl h)
  · exact Or.inl (by simpa [Bound.lt] using horder)

/-- What the share of a range is made of, once its ends are cut to the histogram. -/
theorem share_eq (hlength : 2 ≤ q.length) {low high low' high' : Bound ℚ}
    (hlow : low.greatest (.number (quantile q 0)) = low')
    (hhigh : high.least (.number (quantile q (q.length - 1))) = high') :
    share q low high =
      if upper q high' ≤ lower q low' then 0
      else if lower q low' + 1 = upper q high' then
        withinBucket q (Scalar.ofBound low') (Scalar.ofBound high') (lower q low')
      else acrossBuckets q low' high' (lower q low') (upper q high') := by
  have hfirst : q.head? = some (quantile q 0) := by
    rw [List.head?_eq_getElem?, List.getElem?_eq_getElem (by omega), quantile_eq (by omega)]
  have hlast : q.getLast? = some (quantile q (q.length - 1)) := by
    rw [List.getLast?_eq_getElem?, List.getElem?_eq_getElem (by omega), quantile_eq (by omega)]
  have htoBound : ∀ x : ℚ, Scalar.toBound x = .number x := fun _ => rfl
  simp only [share, hfirst, hlast, if_neg (not_lt.mpr hlength), htoBound, hlow, hhigh]

theorem share_of_short (hlength : q.length < 2) (low high : Bound ℚ) : share q low high = 0 := by
  rw [share]
  split
  · rw [if_pos hlength]
  · rfl

/-- The share of a range with its ends in order is not negative. -/
theorem share_nonneg (hq : q.Pairwise (· ≤ ·)) {low high : Bound ℚ}
    (horder : high.lt low = false) (hne : low.eq high = false) : 0 ≤ share q low high := by
  rcases lt_or_ge q.length 2 with hshort | hlength
  · exact (share_of_short hshort low high).ge
  · obtain ⟨y, z, hy, hz, hyz⟩ :=
      cut_bounds (quantile_mono hq (Nat.zero_le (q.length - 1)) (by omega)) horder hne
    rw [share_eq hlength hy hz]
    have hupper := upper_le q (.number z)
    split
    · exact le_rfl
    · next hlr =>
      have hle : y ≤ z := by
        rcases hyz with h | h | h
        · exact h
        · have hall : lower q (.number y) = q.length - 1 :=
            lower_eq (fun x hx => decide_eq_true ((quantile_bounds hq hx).2.trans_lt h))
          omega
        · have hall : upper q (.number z) = 0 :=
            upper_eq (fun x hx => decide_eq_true (h.trans_le (quantile_bounds hq hx).1))
          omega
      split
      · exact withinBucket_nonneg q hle _
      · exact acrossBuckets_nonneg hq (by omega)

end PatternCardinality.Statistics.Histogram
