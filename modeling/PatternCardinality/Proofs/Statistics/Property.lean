import PatternCardinality.Proofs.Statistics.Dominated
import PatternCardinality.Proofs.Statistics.Histogram

/-!
# Selectivities are not negative

Summaries of properties that hold counts, shares and quantiles in order give no negative
selectivity, neither for values nor for ranges.
-/

namespace PatternCardinality.Statistics

/-- Counts and shares are not negative, and quantiles do not decrease. -/
structure PropertySummary.Sound (p : PropertySummary ℚ) : Prop where
  count : 0 ≤ p.count
  unique : 0 ≤ p.unique
  numeric : 0 ≤ p.numeric
  frequent : ∀ hash share, p.frequency? hash = some share → 0 ≤ share
  quantiles : p.quantiles.Pairwise (· ≤ ·)

/-- Statistics with dominated counts and sound summaries of properties. -/
structure Store.Consistent (s : Store ℚ) : Prop extends s.Dominated where
  labelProperty : ∀ l property p, s.labelProperty? l property = some p → p.Sound
  typeProperty : ∀ t property p, s.typeProperty? t property = some p → p.Sound

section Selectivity

variable {total : ℚ} {property : Option (PropertySummary ℚ)}

theorem valueShare_nonneg {p : PropertySummary ℚ} (h : p.Sound) (hash : Option Int32) :
    0 ≤ p.valueShare hash := by
  unfold PropertySummary.valueShare
  split
  · exact div_nonneg zero_le_one h.unique
  · split
    · next share hshare => exact h.frequent _ share hshare
    · dsimp only
      split
      · exact le_rfl
      · next hheavy => exact div_nonneg zero_le_one (sub_nonneg.mpr (not_le.mp hheavy).le)

theorem valueSelectivity_nonneg (h : ∀ p, property = some p → p.Sound) (hash : Option Int32) :
    0 ≤ valueSelectivity total property hash := by
  simp only [valueSelectivity]
  split
  · exact le_rfl
  · next p =>
    have hp := h p rfl
    split
    · exact le_rfl
    · next hsome =>
      have htotal : 0 ≤ total := by
        by_contra hneg
        have hle : total ≤ 0 := (not_le.mp hneg).le
        simp [hle] at hsome
      split
      · exact le_rfl
      · exact mul_nonneg (div_nonneg hp.count htotal) (valueShare_nonneg hp hash)

theorem rangeSelectivity_nonneg (h : ∀ p, property = some p → p.Sound) (low high : Bound ℚ) :
    0 ≤ rangeSelectivity total property low high := by
  simp only [rangeSelectivity]
  split
  · exact le_rfl
  · next p =>
    have hp := h p rfl
    split
    · exact le_rfl
    · split
      · split
        · exact le_rfl
        · next hsome =>
          have htotal : 0 ≤ total := by
            by_contra hneg
            have hle : total ≤ 0 := (not_le.mp hneg).le
            simp [hle] at hsome
          have hnumeric : 0 ≤ p.numeric / p.count := div_nonneg hp.numeric hp.count
          exact mul_nonneg (mul_nonneg (div_nonneg hp.count htotal) hnumeric)
            (div_nonneg zero_le_one (mul_nonneg hnumeric hp.unique))
      · next hne =>
        rw [PropertySummary.rangeFraction?]
        split
        · exact le_rfl
        · next hrange =>
          rw [Bool.or_eq_true, not_or] at hrange
          exact Histogram.share_nonneg hp.quantiles (Bool.not_eq_true _ ▸ hrange.1)
            (Bool.not_eq_true _ ▸ hne)

end Selectivity

namespace View

variable {v : View ℚ} (h : v.store.Consistent)

include h

theorem nodeSelectivity_nonneg (l : LabelId) (property : PropertyId) (hash : Option Int32) :
    0 ≤ v.nodeSelectivity l property hash :=
  valueSelectivity_nonneg (h.labelProperty l property) hash

theorem nodeRangeSelectivity_nonneg (l : LabelId) (property : PropertyId) (low high : Bound ℚ) :
    0 ≤ v.nodeRangeSelectivity l property low high :=
  rangeSelectivity_nonneg (h.labelProperty l property) low high

theorem relationshipSelectivity_nonneg (t : TypeId) (property : PropertyId)
    (hash : Option Int32) : 0 ≤ v.relationshipSelectivity t property hash :=
  valueSelectivity_nonneg (h.typeProperty t property) hash

theorem relationshipRangeSelectivity_nonneg (t : TypeId) (property : PropertyId)
    (low high : Bound ℚ) : 0 ≤ v.relationshipRangeSelectivity t property low high :=
  rangeSelectivity_nonneg (h.typeProperty t property) low high

end View

end PatternCardinality.Statistics
