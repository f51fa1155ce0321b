import PatternCardinality.Proofs.Number.Extension
import PatternCardinality.Proofs.Ordered.Map
import PatternCardinality.Proofs.Statistics.Histogram
import PatternCardinality.Statistics.View

/-!
# Statistics over numbers that extend the exact ones

Selectivities, counts and histograms of exact numbers come out as exact ones, whatever a quotient by
zero is: no histogram, summary or count makes one.
-/

namespace PatternCardinality.Statistics

section Maps

variable {α β : Type} (f : α → β)

/-- The same summary with other numbers. -/
def PropertySummary.map (p : PropertySummary α) : PropertySummary β :=
  ⟨f p.count, f p.unique, f p.numeric, p.frequent.mapValues (fun _ => f), p.quantiles.map f⟩

def TypeTotals.map (t : TypeTotals α) : TypeTotals β :=
  ⟨f t.outgoing, f t.incoming, f t.paths, f t.pairs⟩

/-- The same statistics with other numbers. -/
def Store.map (s : Store α) : Store β where
  nodeCount := f s.nodeCount
  labelIds := s.labelIds
  labelCounts := s.labelCounts.mapValues (fun _ => f)
  typeIds := s.typeIds
  typeTotals := s.typeTotals.mapValues (fun _ => TypeTotals.map f)
  propertyIds := s.propertyIds
  relationshipCounts := s.relationshipCounts.mapValues (fun _ => f)
  labelProperties := s.labelProperties.mapValues (fun _ => PropertySummary.map f)
  typeProperties := s.typeProperties.mapValues (fun _ => PropertySummary.map f)

def View.map (v : View α) : View β := ⟨v.store.map f, v.oneSided⟩

end Maps

variable {α : Type} [Scalar α] (ι : Extension α)

theorem getD_mapValues {κ : Type} [Ord κ] [Std.LawfulEqOrd κ] (m : OrderedMap κ ℚ) (k : κ) :
    (m.mapValues (fun _ => ι.of)).getD k 0 = ι.of (m.getD k 0) := by
  rw [OrderedMap.getD, OrderedMap.getD, OrderedMap.get?_mapValues]
  cases m.get? k with
  | none => exact ι.of_zero.symm
  | some x => rfl

namespace Histogram

variable (q : List ℚ)

theorem reach_map {beyond : Bound α → Bound α → Bool} {beyond' : Bound ℚ → Bound ℚ → Bool}
    (h : ∀ b c : Bound ℚ, beyond (b.map ι.of) (c.map ι.of) = beyond' b c) (b : Bound ℚ) :
    reach beyond (b.map ι.of) (q.map ι.of) = reach beyond' b q := by
  induction q with
  | nil => rfl
  | cons x q ih =>
    have hx : Scalar.toBound (ι.of x) = (Bound.number x).map ι.of := ι.of_toBound x
    rw [List.map_cons, reach, reach, hx, h, ι.eq_map, ih]
    rfl

theorem lower_map (low : Bound ℚ) : lower (q.map ι.of) (low.map ι.of) = lower q low := by
  rw [lower, lower, ← List.map_tail, reach_map ι q.tail ι.lt_map]

theorem upper_map (high : Bound ℚ) : upper (q.map ι.of) (high.map ι.of) = upper q high := by
  rw [upper, upper, ← List.map_reverse, ← List.map_tail, List.length_map,
    reach_map ι q.reverse.tail (fun b c => ι.lt_map c b)]

@[simp] theorem quantile_map (i : Nat) : quantile (q.map ι.of) i = ι.of (quantile q i) := by
  rw [quantile, quantile, ← ι.of_zero, List.getD_eq_getElem?_getD, List.getD_eq_getElem?_getD,
    List.getElem?_map, Option.getD_map]

variable {q} (hq : 2 ≤ q.length)

include hq

theorem buckets_ne_zero : ((q.length - 1 : Nat) : ℚ) ≠ 0 :=
  Nat.cast_ne_zero.mpr (by omega)

theorem withinBucket_map (low high : ℚ) (l : Nat) :
    withinBucket (q.map ι.of) (ι.of low) (ι.of high) l = ι.of (withinBucket q low high l) := by
  have hbuckets := buckets_ne_zero hq
  simp only [withinBucket, quantile_map, ι.of_sub, ι.of_le_zero, List.length_map, ι.of_natCast]
  by_cases hwidth : quantile q (l + 1) - quantile q l ≤ 0
  · rw [if_pos hwidth, if_pos hwidth, ι.one_div_of hbuckets]
  · rw [if_neg hwidth, if_neg hwidth, ι.of_div _ _ (fun h => hwidth h.le), ι.of_div _ _ hbuckets]

omit hq in
theorem firstPart_map (low : ℚ) (l : Nat) :
    firstPart (q.map ι.of) (.number (ι.of low)) l = ι.of (firstPart q (.number low) l) := by
  have hlow : (Bound.number (ι.of low)).lt (.number (ι.of (quantile q l))) =
      (Bound.number low).lt (.number (quantile q l)) := ι.lt_map (.number low) (.number _)
  simp only [firstPart, quantile_map, ι.of_toBound, hlow, ι.of_beq, ι.of_ofBound, ι.of_sub]
  by_cases hcase : ((Bound.number low).lt (.number (quantile q l)) ||
      quantile q (l + 1) == quantile q l) = true
  · exact (if_pos hcase).trans (ι.of_one.symm.trans (congrArg ι.of (if_pos hcase).symm))
  · have hne : quantile q (l + 1) - quantile q l ≠ 0 := by
      intro h
      rw [Bool.or_eq_true, not_or] at hcase
      exact hcase.2 (beq_iff_eq.mpr (sub_eq_zero.mp h))
    rw [if_neg hcase, ι.of_div _ _ hne]
    exact congrArg ι.of (if_neg hcase).symm

omit hq in
theorem lastPart_map (high : ℚ) (r : Nat) :
    lastPart (q.map ι.of) (.number (ι.of high)) r = ι.of (lastPart q (.number high) r) := by
  have hhigh : (Bound.number (ι.of (quantile q r))).lt (.number (ι.of high)) =
      (Bound.number (quantile q r)).lt (.number high) := ι.lt_map (.number _) (.number high)
  simp only [lastPart, quantile_map, ι.of_toBound, hhigh, ι.of_beq, ι.of_ofBound, ι.of_sub]
  by_cases hcase : ((Bound.number (quantile q r)).lt (.number high) ||
      quantile q r == quantile q (r - 1)) = true
  · exact (if_pos hcase).trans (ι.of_one.symm.trans (congrArg ι.of (if_pos hcase).symm))
  · have hne : quantile q r - quantile q (r - 1) ≠ 0 := by
      intro h
      rw [Bool.or_eq_true, not_or] at hcase
      exact hcase.2 (beq_iff_eq.mpr (sub_eq_zero.mp h))
    rw [if_neg hcase, ι.of_div _ _ hne]
    exact congrArg ι.of (if_neg hcase).symm

theorem acrossBuckets_map (low high : ℚ) (l r : Nat) :
    acrossBuckets (q.map ι.of) (.number (ι.of low)) (.number (ι.of high)) l r =
      ι.of (acrossBuckets q (.number low) (.number high) l r) := by
  simp only [acrossBuckets, firstPart_map, lastPart_map, List.length_map, ι.of_natCast,
    ← ι.of_one, ι.of_add, ι.of_sub, ι.of_div _ _ (buckets_ne_zero hq)]

omit hq in
/-- Between the ends of a range there are buckets only if both ends are numbers, once cut to the
quantiles. -/
theorem exists_numbers {low high : Bound ℚ} {first last : ℚ}
    (h : lower q (low.greatest (.number first)) < upper q (high.least (.number last))) :
    ∃ y z, low.greatest (.number first) = .number y ∧ high.least (.number last) = .number z := by
  have hlow : ∃ y, low.greatest (.number first) = .number y := by
    cases hcut : low.greatest (.number first) with
    | lowest =>
      rw [Bound.greatest] at hcut
      split at hcut
      · next hbelow => simp [hcut, Bound.lt, Bound.isNaN] at hbelow
      · cases hcut
    | number y => exact ⟨y, rfl⟩
    | highest =>
      have hall : lower q .highest = q.length - 1 := by
        rw [lower, reach_eq_length, List.length_tail]
        exact fun x _ => by simp [Bound.lt]
      have hle := upper_le q (high.least (.number last))
      rw [hcut, hall] at h
      omega
  have hhigh : ∃ z, high.least (.number last) = .number z := by
    cases hcut : high.least (.number last) with
    | lowest =>
      have hnone : upper q .lowest = 0 := by
        rw [upper, reach_eq_length, List.length_tail, List.length_reverse, Nat.sub_self]
        exact fun x _ => by simp [Bound.lt]
      rw [hcut, hnone] at h
      omega
    | number z => exact ⟨z, rfl⟩
    | highest =>
      rw [Bound.least] at hcut
      split at hcut
      · next habove => simp [hcut, Bound.lt, Bound.isNaN] at habove
      · cases hcut
  obtain ⟨y, hy⟩ := hlow
  obtain ⟨z, hz⟩ := hhigh
  exact ⟨y, z, hy, hz⟩

omit hq in
/-- The share of a range makes no quotient by zero and calculates with no unlimited end. -/
theorem share_map (low high : Bound ℚ) :
    share (q.map ι.of) (low.map ι.of) (high.map ι.of) = ι.of (share q low high) := by
  rw [share, share, List.head?_map, List.getLast?_map, List.length_map]
  cases q.head? with
  | none => exact ι.of_zero.symm
  | some first =>
    cases q.getLast? with
    | none => exact ι.of_zero.symm
    | some last =>
      have hfirst : Scalar.toBound (ι.of first) = (Bound.number first).map ι.of := ι.of_toBound first
      have hlast : Scalar.toBound (ι.of last) = (Bound.number last).map ι.of := ι.of_toBound last
      have hexact : ∀ x : ℚ, Scalar.toBound x = .number x := fun _ => rfl
      simp only [Option.map_some, hfirst, hlast, hexact, ι.greatest_map, ι.least_map, lower_map,
        upper_map]
      by_cases hlength : q.length < 2
      · rw [if_pos hlength, if_pos hlength, ι.of_zero]
      · rw [if_neg hlength, if_neg hlength]
        by_cases hbuckets : upper q (high.least (.number last)) ≤
            lower q (low.greatest (.number first))
        · rw [if_pos hbuckets, if_pos hbuckets, ι.of_zero]
        · rw [if_neg hbuckets, if_neg hbuckets]
          obtain ⟨y, z, hy, hz⟩ := exists_numbers (not_le.mp hbuckets)
          have hynumber : (Bound.number y).map ι.of = .number (ι.of y) := rfl
          have hznumber : (Bound.number z).map ι.of = .number (ι.of z) := rfl
          have hwithin := withinBucket_map ι (not_lt.mp hlength) y z
          simp only [hy, hz, hynumber, hznumber, ι.of_ofBound,
            acrossBuckets_map ι (not_lt.mp hlength), hwithin, ι.ite_of]
          rfl

end Histogram

namespace PropertySummary

variable (p : PropertySummary ℚ)

theorem rangeFraction?_map (low high : Bound ℚ) :
    (p.map ι.of).rangeFraction? (low.map ι.of) (high.map ι.of) =
      (p.rangeFraction? low high).map ι.of := by
  simp only [rangeFraction?, map, ι.lt_map, ι.of_beq_zero, Histogram.share_map]
  split <;> rfl

theorem valueShare_map (hunique : p.unique ≠ 0) (hash : Option Int32) :
    (p.map ι.of).valueShare hash = ι.of (p.valueShare hash) := by
  cases hash with
  | none => exact ι.one_div_of hunique
  | some hash =>
    have hfrequency : (p.map ι.of).frequency? hash = (p.frequency? hash).map ι.of := by
      rw [frequency?, map, OrderedMap.get?_mapValues]
      rfl
    simp only [valueShare, hfrequency]
    cases p.frequency? hash with
    | some share => rfl
    | none =>
      have hsize : (p.map ι.of).frequent.size = p.frequent.size := by
        simp [map, OrderedMap.size, OrderedMap.mapValues]
      have hcount : (p.map ι.of).unique = ι.of p.unique := rfl
      simp only [Option.map_none, hsize, hcount, ι.of_natCast, ι.of_le, ι.of_sub]
      by_cases hheavy : p.unique ≤ (p.frequent.size : ℚ)
      · rw [if_pos hheavy, if_pos hheavy, ι.of_zero]
      · rw [if_neg hheavy, if_neg hheavy, ι.one_div_of (sub_pos.mpr (not_le.mp hheavy)).ne']

end PropertySummary

theorem valueSelectivity_map (total : ℚ) (property : Option (PropertySummary ℚ))
    (hash : Option Int32) :
    valueSelectivity (ι.of total) (property.map (PropertySummary.map ι.of)) hash =
      ι.of (valueSelectivity total property hash) := by
  cases property with
  | none => exact ι.of_zero.symm
  | some p =>
    have hcount : (p.map ι.of).count = ι.of p.count := rfl
    have hunique : (p.map ι.of).unique = ι.of p.unique := rfl
    simp only [valueSelectivity, Option.map_some, hcount, hunique, ι.of_beq_zero, ι.of_le_zero]
    by_cases hempty : (p.count == 0 || decide (total ≤ 0)) = true
    · rw [if_pos hempty, if_pos hempty, ι.of_zero]
    · rw [if_neg hempty, if_neg hempty]
      by_cases hnone : (p.unique == 0) = true
      · rw [if_pos hnone, if_pos hnone, ι.of_zero]
      · have htotal : total ≠ 0 := by
          rintro rfl
          simp at hempty
        rw [if_neg hnone, if_neg hnone, p.valueShare_map ι (fun h => hnone (beq_iff_eq.mpr h)),
          ι.of_div _ _ htotal, ι.of_mul]

theorem rangeSelectivity_map (total : ℚ) (property : Option (PropertySummary ℚ))
    (low high : Bound ℚ) :
    rangeSelectivity (ι.of total) (property.map (PropertySummary.map ι.of)) (low.map ι.of)
      (high.map ι.of) = ι.of (rangeSelectivity total property low high) := by
  cases property with
  | none => exact ι.of_zero.symm
  | some p =>
    have hcount : (p.map ι.of).count = ι.of p.count := rfl
    have hunique : (p.map ι.of).unique = ι.of p.unique := rfl
    have hnumeric : (p.map ι.of).numeric = ι.of p.numeric := rfl
    simp only [rangeSelectivity, Option.map_some, hcount, hunique, hnumeric, ι.of_beq_zero,
      ι.of_le_zero, ι.eq_map, p.rangeFraction?_map ι]
    by_cases hnone : p.numeric ≤ 0
    · rw [if_pos hnone, if_pos hnone, ι.of_zero]
    · rw [if_neg hnone, if_neg hnone]
      by_cases hpoint : low.eq high = true
      · rw [if_pos hpoint, if_pos hpoint]
        by_cases hempty : (decide (total ≤ 0) || p.count == 0 || p.unique == 0) = true
        · rw [if_pos hempty, if_pos hempty, ι.of_zero]
        · rw [if_neg hempty, if_neg hempty]
          simp only [Bool.or_eq_true, decide_eq_true_eq, beq_iff_eq, not_or, not_le] at hempty
          obtain ⟨⟨htotal, hcount⟩, hunique⟩ := hempty
          have hvalue : p.numeric / p.count * p.unique ≠ 0 :=
            mul_ne_zero (div_ne_zero (not_le.mp hnone).ne' hcount) hunique
          rw [ι.of_div _ _ htotal.ne', ι.of_div _ _ hcount, ι.of_mul, ι.of_mul,
            ι.one_div_of hvalue, ι.of_mul]
      · rw [if_neg hpoint, if_neg hpoint]
        cases p.rangeFraction? low high with
        | none => exact ι.of_zero.symm
        | some x => rfl

namespace Store

variable (s : Store ℚ)

@[simp] theorem nodes_map (l : LabelId) : (s.map ι.of).nodes l = ι.of (s.nodes l) := by
  rw [nodes, nodes, ← ι.ite_of]
  exact if_congr Iff.rfl rfl (getD_mapValues ι s.labelCounts l)

@[simp] theorem relationshipCount_map (b : LabelId) (t : TypeId) (w : LabelId) :
    (s.map ι.of).relationshipCount b t w = ι.of (s.relationshipCount b t w) :=
  getD_mapValues ι s.relationshipCounts _

@[simp] theorem labelProperty?_map (l : LabelId) (k : PropertyId) :
    (s.map ι.of).labelProperty? l k = (s.labelProperty? l k).map (PropertySummary.map ι.of) :=
  OrderedMap.get?_mapValues

@[simp] theorem typeProperty?_map (t : TypeId) (k : PropertyId) :
    (s.map ι.of).typeProperty? t k = (s.typeProperty? t k).map (PropertySummary.map ι.of) :=
  OrderedMap.get?_mapValues

end Store

namespace View

variable (v : View ℚ)

@[simp] theorem nodes_map (l : LabelId) : (v.map ι.of).nodes l = ι.of (v.nodes l) :=
  v.store.nodes_map ι l

theorem relationshipCount_map (b : LabelId) (t : TypeId) (w : LabelId) :
    (v.map ι.of).relationshipCount b t w = ι.of (v.relationshipCount b t w) := by
  simp only [relationshipCount, map, Store.relationshipCount_map, ι.least_of, ι.ite_of]

@[simp] theorem relationships_map (b : LabelId) (t : TypeId) (w : LabelId)
    (direction : Direction) :
    (v.map ι.of).relationships b t w direction = ι.of (v.relationships b t w direction) := by
  cases direction <;> simp only [relationships, relationshipCount_map, ι.of_add]

@[simp] theorem nodeSelectivity_map (l : LabelId) (k : PropertyId) (hash : Option Int32) :
    (v.map ι.of).nodeSelectivity l k hash = ι.of (v.nodeSelectivity l k hash) := by
  simp only [nodeSelectivity, map, Store.nodes_map, Store.labelProperty?_map, valueSelectivity_map]

@[simp] theorem nodeRangeSelectivity_map (l : LabelId) (k : PropertyId) (low high : Bound ℚ) :
    (v.map ι.of).nodeRangeSelectivity l k (low.map ι.of) (high.map ι.of) =
      ι.of (v.nodeRangeSelectivity l k low high) := by
  simp only [nodeRangeSelectivity, map, Store.nodes_map, Store.labelProperty?_map,
    rangeSelectivity_map]

@[simp] theorem relationshipSelectivity_map (t : TypeId) (k : PropertyId) (hash : Option Int32) :
    (v.map ι.of).relationshipSelectivity t k hash = ι.of (v.relationshipSelectivity t k hash) := by
  simp only [relationshipSelectivity, map, Store.typeCount, Store.relationshipCount_map,
    Store.typeProperty?_map, valueSelectivity_map]

@[simp] theorem relationshipRangeSelectivity_map (t : TypeId) (k : PropertyId)
    (low high : Bound ℚ) :
    (v.map ι.of).relationshipRangeSelectivity t k (low.map ι.of) (high.map ι.of) =
      ι.of (v.relationshipRangeSelectivity t k low high) := by
  simp only [relationshipRangeSelectivity, map, Store.typeCount, Store.relationshipCount_map,
    Store.typeProperty?_map, rangeSelectivity_map]

end View

end PatternCardinality.Statistics
