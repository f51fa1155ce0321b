import PatternCardinality.Proofs.Estimate.Hierarchy
import PatternCardinality.Proofs.Number.TotalOrder
import PatternCardinality.Proofs.Ordered.Sorting

/-!
# Labels in the order of evidence

Pieces of evidence for different labels are never equal, whatever numbers they consist of. So labels
have one order: every list of the same labels is sorted alike, and a list that is in order is sorted
already.
-/

namespace PatternCardinality.Estimate

variable {α : Type} [Scalar α]

namespace Evidence

variable {a b : Evidence α}

theorem label_eq_of_order (h : order a b = .eq) : a.label = b.label := by
  rw [order, Ordering.then_eq_eq, Ordering.then_eq_eq] at h
  exact Std.LawfulEqOrd.eq_of_compare h.2.2

/-- Evidence is compared by one key after the other. -/
instance [Std.TransCmp (Scalar.compareDescending (α := α))] : Std.TransCmp (order (α := α)) := by
  have hswap : ∀ x y : α, Scalar.compareDescending x y = (Scalar.compareDescending y x).swap :=
    fun _ _ => Std.OrientedCmp.eq_swap
  have htrans : ∀ x y z : α, (Scalar.compareDescending x y).isLE →
      (Scalar.compareDescending y z).isLE → (Scalar.compareDescending x z).isLE :=
    fun _ _ _ => Std.TransCmp.isLE_trans
  have hkey : ∀ key : Evidence α → α,
      Std.TransCmp (fun a b => Scalar.compareDescending (key a) (key b)) := fun key =>
    { eq_swap := hswap _ _, isLE_trans := htrans _ _ _ }
  have hdensity := hkey density
  have hshare := hkey share
  exact inferInstanceAs (Std.TransCmp (compareLex
    (fun a b : Evidence α => Scalar.compareDescending a.density b.density) (compareLex
      (fun a b => Scalar.compareDescending a.share b.share) (compareOn label))))

end Evidence

section Sorted

variable {db : Database α} {share : LabelId → α} {labels labels' : List LabelId}

/-- What speaks for a label. -/
def Database.evidence (db : Database α) (share : LabelId → α) (l : LabelId) : Evidence α :=
  ⟨l, db.density (share l) l, share l⟩

/-- Labels are sorted as the evidence for them is. -/
theorem sortByEvidence_eq_sortBy : sortByEvidence db share labels =
    sortBy (fun l m => ((db.evidence share l).order (db.evidence share m)).isLE) labels := by
  have hsort : sortBy (fun a b => (Evidence.order a b).isLE) (labels.map (db.evidence share)) =
      (sortBy (fun l m => ((db.evidence share l).order (db.evidence share m)).isLE) labels).map
        (db.evidence share) := sortBy_map (fun _ _ => rfl) labels
  change (sortBy _ (labels.map (db.evidence share))).map Evidence.label = _
  rw [hsort, List.map_map]
  exact List.map_id _

variable [Std.TransCmp (Scalar.compareDescending (α := α))]

theorem pairwise_sortByEvidence : (sortByEvidence db share labels).Pairwise (fun l m =>
    ((db.evidence share l).order (db.evidence share m)).isLE = true) := by
  rw [sortByEvidence_eq_sortBy]
  refine pairwise_sortBy (fun l m => ?_) (fun _ _ _ => Std.TransCmp.isLE_trans) labels
  have hswap : (db.evidence share m).order (db.evidence share l) =
      ((db.evidence share l).order (db.evidence share m)).swap := Std.OrientedCmp.eq_swap
  rw [hswap]
  cases (db.evidence share l).order (db.evidence share m) <;> simp

/-- Labels that are in order are sorted. -/
theorem eq_sortByEvidence (hperm : labels'.Perm labels) (h : labels'.Pairwise (fun l m =>
    ((db.evidence share l).order (db.evidence share m)).isLE = true)) :
    labels' = sortByEvidence db share labels := by
  refine (hperm.trans sortByEvidence_perm.symm).eq_of_pairwise (fun l m _ _ hle hge => ?_) h
    pairwise_sortByEvidence
  exact Evidence.label_eq_of_order (Std.OrientedCmp.isLE_antisymm hle hge)

/-- Labels that are all different have strictly less and less evidence. -/
theorem decreasing_sortByEvidence (h : labels.Nodup) :
    (sortByEvidence db share labels).Pairwise (fun l m =>
      (db.evidence share l).order (db.evidence share m) = .lt) := by
  have hnodup : (sortByEvidence db share labels).Nodup := sortByEvidence_perm.nodup_iff.mpr h
  refine pairwise_sortByEvidence.imp₂ (fun l m hle hne => ?_) hnodup
  cases horder : (db.evidence share l).order (db.evidence share m) with
  | lt => rfl
  | eq => exact absurd (Evidence.label_eq_of_order horder) hne
  | gt => simp [horder] at hle

end Sorted

/-- In front of a label are those with a greater density, and of equally dense ones those with a
greater share, and of those with equal shares those with smaller identifiers. What is no number
counts as the greatest, and zero is above negative zero. -/
def Evidence.Ahead (a b : Evidence Float) : Prop :=
  Double.Ahead a.density b.density ∨ Double.Level a.density b.density ∧
    (Double.Ahead a.share b.share ∨ Double.Level a.share b.share ∧ a.label < b.label)

theorem Evidence.order_eq_lt_iff {a b : Evidence Float} : a.order b = .lt ↔ a.Ahead b := by
  rw [order, Ordering.then_eq_lt, Ordering.then_eq_lt, Double.compareDescending_eq_lt_iff,
    Double.compareDescending_eq_lt_iff, Double.compareDescending_eq_eq_iff,
    Double.compareDescending_eq_eq_iff, Std.compare_eq_lt]
  rfl

/-- Doubles of every kind put labels in one order. Sorting keeps the labels, does not depend on the
order in which they are given, and lists each label in front of those with less evidence, which no
other list of them does. -/
theorem sortByEvidence_canonical (db : Database Float) (share : LabelId → Float)
    {labels : List LabelId} (h : labels.Nodup) :
    (∀ a b : Evidence Float, a.Ahead b → ¬b.Ahead a) ∧
      (∀ a b : Evidence Float, a.label ≠ b.label → a.Ahead b ∨ b.Ahead a) ∧
      (∀ a b c : Evidence Float, a.Ahead b → b.Ahead c → a.Ahead c) ∧
      (∀ a b : Evidence Float, a.order b = .lt ↔ a.Ahead b) ∧
      (sortByEvidence db share labels).Perm labels ∧
      (∀ labels' : List LabelId, labels'.Perm labels →
        sortByEvidence db share labels' = sortByEvidence db share labels) ∧
      ∀ labels' : List LabelId, labels'.Perm labels →
        (labels'.Pairwise (fun l m => (db.evidence share l).Ahead (db.evidence share m)) ↔
          labels' = sortByEvidence db share labels) := by
  have hpairwise {labels' : List LabelId} : labels'.Pairwise (fun l m =>
      (db.evidence share l).Ahead (db.evidence share m)) ↔ labels'.Pairwise (fun l m =>
      (db.evidence share l).order (db.evidence share m) = .lt) := by
    simp only [Evidence.order_eq_lt_iff]
  refine ⟨fun a b hab hba => ?_, fun a b hne => ?_, fun a b c hab hbc => ?_,
    fun a b => Evidence.order_eq_lt_iff, sortByEvidence_perm, fun labels' hperm => ?_,
    fun labels' hperm => ?_⟩
  · rw [← Evidence.order_eq_lt_iff] at hab hba
    exact Std.OrientedCmp.not_lt_of_lt hab hba
  · rw [← Evidence.order_eq_lt_iff, ← Evidence.order_eq_lt_iff]
    cases horder : a.order b with
    | lt => exact Or.inl rfl
    | eq => exact absurd (Evidence.label_eq_of_order horder) hne
    | gt => exact Or.inr (Std.OrientedCmp.lt_of_gt horder)
  · rw [← Evidence.order_eq_lt_iff] at hab hbc ⊢
    exact Std.TransCmp.lt_trans hab hbc
  · exact eq_sortByEvidence (sortByEvidence_perm.trans hperm) pairwise_sortByEvidence
  · rw [hpairwise]
    constructor
    · intro hdecreasing
      exact eq_sortByEvidence hperm (hdecreasing.imp fun hlt => by rw [hlt]; rfl)
    · rintro rfl
      exact decreasing_sortByEvidence h

/-- Ten nodes with one label, none with another, and five with a third. -/
def uneven : Database Float :=
  ⟨⟨{ Statistics.Store.empty 15 with
    labelCounts := OrderedMap.ofList [(0, 10), (1, 0), (2, 5)] }, true⟩, .disjoint [0, 1, 2]⟩

/-- A share that is no number comes first, and a density of zero, which is that of a label without
nodes whatever its share, comes in front of negative zero. -/
theorem sortByEvidence_canonical_strange :
    let share : LabelId → Float := fun l => if l = 0 then 0 / 0 else if l = 1 then 1 / 0 else -0.0
    ([2, 1, 0] : List LabelId).Nodup ∧ sortByEvidence uneven share [2, 1, 0] = [0, 1, 2] ∧
      sortByEvidence uneven share [1, 0, 2] = sortByEvidence uneven share [2, 1, 0] := by
  intro share
  have hnodup : ([2, 1, 0] : List LabelId).Nodup := by decide
  obtain ⟨-, -, -, -, -, hsame, -⟩ := sortByEvidence_canonical uneven share hnodup
  exact ⟨hnodup, by decide +kernel, hsame _ (by decide +kernel)⟩

end PatternCardinality.Estimate
