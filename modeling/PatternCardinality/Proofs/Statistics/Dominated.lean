import PatternCardinality.Estimate.Database
import PatternCardinality.Proofs.Number.Exact
import PatternCardinality.Proofs.Ordered.Map

/-!
# Counts that wildcards dominate

In statistics of a graph no label has more nodes than there are, and relationships at nodes with a
label are among those at any nodes. What the estimator asks for inherits both, also where it sees
one-sided counts only.
-/

namespace PatternCardinality

open Estimate Statistics

namespace Statistics

/-- Counts are not negative, and those with a wildcard are the larger ones. -/
structure Store.Dominated (s : Store ℚ) : Prop where
  nodes_nonneg : ∀ l, 0 ≤ s.nodes l
  nodes_le : ∀ l, s.nodes l ≤ s.nodes anyLabel
  count_nonneg : ∀ b t w, 0 ≤ s.relationshipCount b t w
  count_le_any_target : ∀ b t w, s.relationshipCount b t w ≤ s.relationshipCount b t anyLabel
  count_le_any_base : ∀ b t w, s.relationshipCount b t w ≤ s.relationshipCount anyLabel t w

namespace View

variable {v : View ℚ} (h : v.store.Dominated)

include h

theorem relationshipCount_nonneg (b : LabelId) (t : TypeId) (w : LabelId) :
    0 ≤ v.relationshipCount b t w := by
  rw [relationshipCount]
  split
  · rw [Scalar.least_rat]
    exact le_min (h.count_nonneg _ _ _) (h.count_nonneg _ _ _)
  · exact h.count_nonneg _ _ _

theorem relationshipCount_le_any_target (b : LabelId) (t : TypeId) (w : LabelId) :
    v.relationshipCount b t w ≤ v.relationshipCount b t anyLabel := by
  simp only [relationshipCount]
  split
  · rw [Scalar.least_rat, Scalar.least_rat]
    exact min_le_min_right _ (h.count_le_any_target _ _ _)
  · exact h.count_le_any_target _ _ _

theorem relationshipCount_le_any_base (b : LabelId) (t : TypeId) (w : LabelId) :
    v.relationshipCount b t w ≤ v.relationshipCount anyLabel t w := by
  simp only [relationshipCount]
  split
  · rw [Scalar.least_rat, Scalar.least_rat]
    exact min_le_min_left _ (h.count_le_any_base _ _ _)
  · exact h.count_le_any_base _ _ _

theorem relationships_nonneg (b : LabelId) (t : TypeId) (w : LabelId) (direction : Direction) :
    0 ≤ v.relationships b t w direction := by
  cases direction with
  | outgoing => exact relationshipCount_nonneg h b t w
  | incoming => exact relationshipCount_nonneg h w t b
  | both => exact add_nonneg (relationshipCount_nonneg h b t w) (relationshipCount_nonneg h w t b)

theorem relationships_le_any_target (b : LabelId) (t : TypeId) (w : LabelId)
    (direction : Direction) :
    v.relationships b t w direction ≤ v.relationships b t anyLabel direction := by
  cases direction with
  | outgoing => exact relationshipCount_le_any_target h b t w
  | incoming => exact relationshipCount_le_any_base h w t b
  | both =>
    exact add_le_add (relationshipCount_le_any_target h b t w)
      (relationshipCount_le_any_base h w t b)

theorem relationships_le_any_base (b : LabelId) (t : TypeId) (w : LabelId)
    (direction : Direction) :
    v.relationships b t w direction ≤ v.relationships anyLabel t w direction := by
  cases direction with
  | outgoing => exact relationshipCount_le_any_base h b t w
  | incoming => exact relationshipCount_le_any_target h w t b
  | both =>
    exact add_le_add (relationshipCount_le_any_base h b t w)
      (relationshipCount_le_any_target h w t b)

end View

end Statistics

namespace Estimate.Database

variable {db : Database ℚ}

theorem relationships_singleton (base : LabelId) (t : TypeId) (target : LabelId)
    (direction : Direction) :
    db.relationships base (OrderedSet.singleton t) target direction =
      db.view.relationships base t target direction := by
  rw [relationships, Scalar.sum_rat]
  simp [OrderedSet.singleton]

variable (h : db.view.store.Dominated)

include h

theorem relationships_nonneg (base : LabelId) (types : OrderedSet TypeId) (target : LabelId)
    (direction : Direction) : 0 ≤ db.relationships base types target direction := by
  rw [relationships, Scalar.sum_rat]
  refine List.sum_nonneg (fun x hx => ?_)
  obtain ⟨t, -, rfl⟩ := List.mem_map.mp hx
  exact View.relationships_nonneg h base t target direction

theorem relationships_le_any_target (base : LabelId) (types : OrderedSet TypeId) (target : LabelId)
    (direction : Direction) :
    db.relationships base types target direction ≤
      db.relationships base types anyLabel direction := by
  rw [relationships, relationships, Scalar.sum_rat, Scalar.sum_rat]
  exact List.sum_le_sum (fun t _ => View.relationships_le_any_target h base t target direction)

theorem relationships_le_any_base (base : LabelId) (types : OrderedSet TypeId) (target : LabelId)
    (direction : Direction) :
    db.relationships base types target direction ≤
      db.relationships anyLabel types target direction := by
  rw [relationships, relationships, Scalar.sum_rat, Scalar.sum_rat]
  exact List.sum_le_sum (fun t _ => View.relationships_le_any_base h base t target direction)

theorem averageDegree_nonneg (base : LabelId) (types : OrderedSet TypeId) (target : LabelId)
    (direction : Direction) : 0 ≤ db.averageDegree base types target direction := by
  rw [averageDegree]
  split
  · exact le_rfl
  · exact div_nonneg (relationships_nonneg h _ _ _ _) (h.nodes_nonneg base)

theorem averageDegree_le_any_target (base : LabelId) (types : OrderedSet TypeId)
    (target : LabelId) (direction : Direction) :
    db.averageDegree base types target direction ≤
      db.averageDegree base types anyLabel direction := by
  simp only [averageDegree]
  split
  · exact le_rfl
  · exact div_le_div_of_nonneg_right (relationships_le_any_target h _ _ _ _)
      (h.nodes_nonneg base)

theorem density_nonneg {share : ℚ} (hshare : 0 ≤ share) (l : LabelId) :
    0 ≤ db.density share l := by
  rw [density]
  split
  · exact div_nonneg hshare (h.nodes_nonneg l)
  · exact le_rfl

end Estimate.Database

/-- Four persons out of ten nodes know three cities, of which one is a capital, in five ways. -/
def acquaintances : Store ℚ :=
  { Store.empty 10 with
    labelIds := OrderedMap.ofList [("Person", 1), ("City", 2), ("Capital", 3)]
    labelCounts := OrderedMap.ofList [(1, 4), (2, 3), (3, 1)]
    typeIds := OrderedMap.singleton "KNOWS" 7
    relationshipCounts := OrderedMap.tabulate (fun _ => 5)
      (OrderedSet.ofList [⟨1, 7, 2⟩, ⟨1, 7, anyLabel⟩, ⟨anyLabel, 7, 2⟩, ⟨anyLabel, 7, anyLabel⟩]) }

theorem acquaintances_count (b : LabelId) (t : TypeId) (w : LabelId) :
    acquaintances.relationshipCount b t w =
      if (b = 1 ∨ b = anyLabel) ∧ t = 7 ∧ (w = 2 ∨ w = anyLabel) then 5 else 0 := by
  simp only [Store.relationshipCount, acquaintances, OrderedMap.getD, OrderedMap.get?_tabulate,
    OrderedSet.mem_ofList]
  grind

theorem acquaintances_nodes (l : LabelId) : acquaintances.nodes l =
    if l = anyLabel then 10
    else if l = 3 then 1 else if l = 2 then 3 else if l = 1 then 4 else 0 := by
  simp only [Store.nodes, acquaintances, OrderedMap.getD, OrderedMap.ofList, List.foldl_cons,
    List.foldl_nil, OrderedMap.get?_insert, OrderedMap.get?_empty]
  grind [Store.empty]

theorem acquaintances_dominated : acquaintances.Dominated := by
  refine ⟨fun l => ?_, fun l => ?_, fun b t w => ?_, fun b t w => ?_, fun b t w => ?_⟩
  · rw [acquaintances_nodes]
    split_ifs <;> norm_num
  · have hany : acquaintances.nodes anyLabel = 10 := rfl
    rw [hany, acquaintances_nodes]
    split_ifs <;> norm_num
  · rw [acquaintances_count]
    split_ifs <;> norm_num
  · rw [acquaintances_count, acquaintances_count]
    split_ifs <;> simp_all
  · rw [acquaintances_count, acquaintances_count]
    split_ifs <;> simp_all

end PatternCardinality
