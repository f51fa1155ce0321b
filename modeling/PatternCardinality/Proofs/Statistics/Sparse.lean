import PatternCardinality.Proofs.Statistics.Covered
import PatternCardinality.Proofs.Statistics.Nested
import PatternCardinality.Statistics.View

/-!
# Ranges of properties that some elements lack

The selectivity of one number counts the elements that have a number at all among those that carry
the label or are of the type. That of a range does not: it is the share of the range among the
numbers, and whoever takes it for a share of the elements takes all of them to have one. So a
range may select more elements than have a number. None does if the range without limits does not,
and if its share is all of the numbers, only where every element has a number.
-/

namespace PatternCardinality

theorem Bound.ordered_of_lt {low high : Bound ℚ} (h : low.lt high = true) :
    high.lt low = false ∧ low.eq high = false := by
  cases low <;> cases high <;> simp_all [lt, eq]
  exact ⟨h.le, h.ne⟩

namespace Statistics

open Histogram

variable {total : ℚ} {p : PropertySummary ℚ} {low high : Bound ℚ}

/-- Some of `total` elements have a number as value of the property. -/
structure PropertySummary.Counted (p : PropertySummary ℚ) (total : ℚ) : Prop where
  numeric_pos : 0 < p.numeric
  numeric_le : p.numeric ≤ p.count
  count_le : p.count ≤ total
  quantiles : p.quantiles.Pairwise (· ≤ ·)

/-- A selectivity of ranges that is the share among the numbers, although it counts for `total`
elements. -/
structure PropertySummary.AmongNumbers (p : PropertySummary ℚ) (total : ℚ)
    (selectivity : Bound ℚ → Bound ℚ → ℚ) : Prop where
  share : ∀ low high, low.lt high = true →
    p.rangeFraction? low high = some (selectivity low high) ∧
      0 ≤ selectivity low high ∧ selectivity low high ≤ 1
  /-- No range selects more elements than have a number if the one without limits does not. -/
  bounded_iff : (∀ low high, low.lt high = true → selectivity low high ≤ p.numeric / total) ↔
    selectivity .lowest .highest ≤ p.numeric / total
  /-- Where the outer buckets have width, none does only if all elements have a number. -/
  complete_iff : ∀ n, p.quantiles.length = n + 2 →
    quantile p.quantiles 0 ≠ quantile p.quantiles 1 →
    quantile p.quantiles n ≠ quantile p.quantiles (n + 1) →
    ((∀ low high, low.lt high = true → selectivity low high ≤ p.numeric / total) ↔
      p.numeric = total)

theorem rangeSelectivity_eq_share (hnumeric : 0 < p.numeric) (h : low.lt high = true) :
    rangeSelectivity total (some p) low high = Histogram.share p.quantiles low high := by
  obtain ⟨horder, hne⟩ := Bound.ordered_of_lt h
  rw [rangeSelectivity, if_neg (not_le.mpr hnumeric), hne, if_neg Bool.false_ne_true,
    PropertySummary.rangeFraction?_eq_share hnumeric horder, Option.getD_some]

theorem rangeSelectivity_amongNumbers (h : p.Counted total) :
    p.AmongNumbers total (rangeSelectivity total (some p)) := by
  have hbounded : (∀ low high, low.lt high = true →
      rangeSelectivity total (some p) low high ≤ p.numeric / total) ↔
        rangeSelectivity total (some p) .lowest .highest ≤ p.numeric / total := by
    refine ⟨fun hall => hall _ _ rfl, fun hwhole low high hlt => le_trans ?_ hwhole⟩
    have hlow : low.lt Bound.lowest = false := by cases low <;> rfl
    have hhigh : Bound.highest.lt high = false := by cases high <;> rfl
    rw [rangeSelectivity_eq_share h.numeric_pos hlt, rangeSelectivity_eq_share h.numeric_pos rfl]
    exact share_mono h.quantiles (Bound.ordered_of_lt hlt).1 hlow hhigh
  refine ⟨fun low high hlt => ?_, hbounded, fun n hlength hfirst hlast => ?_⟩
  · have horder := (Bound.ordered_of_lt hlt).1
    rw [rangeSelectivity_eq_share h.numeric_pos hlt]
    exact ⟨PropertySummary.rangeFraction?_eq_share h.numeric_pos horder,
      share_unit h.quantiles horder⟩
  · have htotal : 0 < total := h.numeric_pos.trans_le (h.numeric_le.trans h.count_le)
    have hall : Histogram.share p.quantiles .lowest .highest = 1 := by
      rw [share_whole h.quantiles hlength.symm rfl rfl, flat, flat, if_neg hfirst, if_neg hlast,
        Nat.sub_zero, Nat.sub_zero]
      exact div_self (Nat.cast_ne_zero.mpr (Nat.succ_ne_zero n))
    rw [hbounded, rangeSelectivity_eq_share h.numeric_pos rfl, hall, one_le_div htotal]
    exact ⟨(h.numeric_le.trans h.count_le).antisymm, Eq.ge⟩

theorem View.nodeRangeSelectivity_eq {v : View ℚ} {l : LabelId} {property : PropertyId}
    (h : v.store.labelProperty? l property = some p) :
    v.nodeRangeSelectivity l property = rangeSelectivity (v.store.nodes l) (some p) := by
  rw [← h]
  rfl

theorem View.relationshipRangeSelectivity_eq {v : View ℚ} {t : TypeId} {property : PropertyId}
    (h : v.store.typeProperty? t property = some p) :
    v.relationshipRangeSelectivity t property =
      rangeSelectivity (v.store.typeCount t) (some p) := by
  rw [← h]
  rfl

/-- Ranges select among the nodes with a label, and among the relationships of a type, as if all of
them had a number. -/
theorem View.rangeSelectivities_amongNumbers (v : View ℚ) (property : PropertyId) :
    (∀ l p, v.store.labelProperty? l property = some p → p.Counted (v.store.nodes l) →
      p.AmongNumbers (v.store.nodes l) (v.nodeRangeSelectivity l property)) ∧
    (∀ t p, v.store.typeProperty? t property = some p → p.Counted (v.store.typeCount t) →
      p.AmongNumbers (v.store.typeCount t) (v.relationshipRangeSelectivity t property)) := by
  constructor
  · intro l p hp h
    rw [nodeRangeSelectivity_eq hp]
    exact rangeSelectivity_amongNumbers h
  · intro t p hp h
    rw [relationshipRangeSelectivity_eq hp]
    exact rangeSelectivity_amongNumbers h

/-- Ten elements have a number from zero to ten. -/
def sparse : PropertySummary ℚ := ⟨10, 10, 10, ∅, [0, 10]⟩

/-- A hundred nodes and twenty relationships, of which ten each have a number. -/
def sparseView : View ℚ :=
  ⟨Store.build 100 [.label "A" 0 100, .addRelationships ⟨0, 0, 0⟩ 20,
    .labelProperty ⟨0, 0⟩ sparse, .typeProperty ⟨0, 0⟩ sparse], false⟩

/-- Not all ranges are within the tenth of the nodes, or the half of the relationships, that have a
number. -/
theorem View.rangeSelectivities_amongNumbers_sparse :
    sparse.AmongNumbers 100 (sparseView.nodeRangeSelectivity 0 0) ∧
      sparse.AmongNumbers 20 (sparseView.relationshipRangeSelectivity 0 0) := by
  have hnodes : sparseView.store.nodes 0 = 100 := by decide +kernel
  have hrelationships : sparseView.store.typeCount 0 = 20 := by decide +kernel
  have hlabel : sparseView.store.labelProperty? 0 0 = some sparse := by rfl
  have htype : sparseView.store.typeProperty? 0 0 = some sparse := by rfl
  have hcounted : ∀ total : ℚ, 10 ≤ total → sparse.Counted total :=
    fun total htotal => ⟨by decide +kernel, by decide +kernel, htotal, by decide +kernel⟩
  obtain ⟨hnode, hrelationship⟩ := View.rangeSelectivities_amongNumbers sparseView 0
  have hnode := hnode 0 sparse hlabel (hcounted _ (by decide +kernel))
  have hrelationship := hrelationship 0 sparse htype (hcounted _ (by decide +kernel))
  rw [hnodes] at hnode
  rw [hrelationships] at hrelationship
  exact ⟨hnode, hrelationship⟩

/-- The range of all numbers selects every element, although few have a number. -/
theorem View.rangeSelectivity_exceeds_numeric :
    sparseView.store.labelProperty? 0 0 = some sparse ∧
      sparseView.store.typeProperty? 0 0 = some sparse ∧
      0 < sparse.numeric ∧ sparse.numeric ≤ sparse.count ∧ 1 ≤ sparse.unique ∧
      sparse.count ≤ sparseView.store.nodes 0 ∧ sparse.count ≤ sparseView.store.typeCount 0 ∧
      sparse.quantiles.Pairwise (· ≤ ·) ∧ (Bound.number (0 : ℚ)).lt (.number 10) = true ∧
      ¬ sparseView.nodeRangeSelectivity 0 0 (.number 0) (.number 10) ≤
        sparse.numeric / sparseView.store.nodes 0 ∧
      ¬ sparseView.relationshipRangeSelectivity 0 0 (.number 0) (.number 10) ≤
        sparse.numeric / sparseView.store.typeCount 0 := by
  refine ⟨rfl, rfl, ?_⟩
  decide +kernel

end Statistics

end PatternCardinality
