import Mathlib.Algebra.BigOperators.Ring.List
import Mathlib.Algebra.Order.BigOperators.Group.List
import Mathlib.Tactic.Ring
import PatternCardinality.Proofs.Estimate.Binding
import PatternCardinality.Proofs.Estimate.Operator
import PatternCardinality.Proofs.Number.Exact

/-!
# Types selected after a step

A step from all nodes along some types has as many results as there are relationships of these
types. To select types afterwards leaves the results of a step along the identifiers that both sets
contain, in any direction. So the order does not matter as long as the sets are compared by their
identifiers. The wildcard is an identifier of its own here: after a step along all types no other
type is found among those that it followed.
-/

namespace PatternCardinality.Estimate

open Statistics

section Counts

variable {db : Database ℚ} {base target : LabelId} {direction : Direction}

theorem relationships_eq_sum (db : Database ℚ) (base : LabelId) (types : TypeSet)
    (target : LabelId) (direction : Direction) : db.relationships base types target direction =
      (types.toList.map (fun t => db.view.relationships base t target direction)).sum := by
  rw [Database.relationships, Scalar.sum_rat]

/-- Types in a set and the others. -/
theorem relationships_split (p : TypeId → Bool) (types : TypeSet) :
    db.relationships base (types.filter p) target direction +
        db.relationships base (types.filter (fun t => !p t)) target direction =
      db.relationships base types target direction := by
  have hperm := List.filter_append_perm p types.toList
  simp only [relationships_eq_sum, OrderedSet.filter, ← List.sum_append, ← List.map_append]
  exact (hperm.map _).sum_eq

/-- Every relationship is met twice if it is followed both ways. -/
def ways : Direction → ℚ
  | .both => 2
  | _ => 1

theorem ways_pos (direction : Direction) : 0 < ways direction := by
  cases direction <;> simp [ways]

/-- Between any nodes there are as many relationships either way. -/
theorem relationships_ways (types : TypeSet) (direction : Direction) :
    db.relationships anyLabel types anyLabel direction =
      ways direction * db.relationships anyLabel types anyLabel .outgoing := by
  rw [relationships_eq_sum, relationships_eq_sum, ← List.sum_map_mul_left]
  refine congrArg List.sum (List.map_congr_left (fun t _ => ?_))
  cases direction <;> simp only [View.relationships, ways] <;> ring

variable (h : ∀ t, 0 ≤ db.view.relationships base t target direction)

include h

theorem relationships_nonneg_of (types : TypeSet) :
    0 ≤ db.relationships base types target direction := by
  rw [relationships_eq_sum]
  exact List.sum_nonneg (List.forall_mem_map.mpr (fun t _ => h t))

theorem relationships_filter_le (p : TypeId → Bool) (types : TypeSet) :
    db.relationships base (types.filter p) target direction ≤
      db.relationships base types target direction := by
  rw [← relationships_split p types]
  exact le_add_of_nonneg_right (relationships_nonneg_of h _)

theorem relationships_eq_zero_iff {types : TypeSet} :
    db.relationships base types target direction = 0 ↔
      ∀ t ∈ types, db.view.relationships base t target direction = 0 := by
  rw [relationships_eq_sum]
  constructor
  · intro hsum t ht
    refine List.all_zero_of_le_zero_le_of_sum_eq_zero (fun x hx => ?_) hsum
      (List.mem_map_of_mem ht)
    obtain ⟨u, -, rfl⟩ := List.mem_map.mp hx
    exact h u
  · intro hzero
    exact List.sum_eq_zero (List.forall_mem_map.mpr hzero)

end Counts

section Results

variable {α : Type} [Scalar α]

theorem size_fromAllNodes (t : Traversal α) (base : LabelShares α) :
    (t.fromAllNodes base).size = t.db.relationships anyLabel t.types anyLabel t.direction := by
  simp only [Traversal.fromAllNodes]
  split <;> rfl

/-- A step from all nodes, along a variable with a name of its own. -/
theorem expand_all (db : Database α) {v w e : String} (hv : e ≠ v) (hw : e ≠ w) {all : Profile α}
    (hall : scan db v = .ok all) (direction : Direction) (types : TypeSet) :
    ∃ r, expand db v direction e types w all = .ok r ∧ r.Binds {w, v} {e} ∧
      r.types? e = some types ∧ r.size = db.relationships anyLabel types anyLabel direction := by
  obtain ⟨p, hp, hbinds⟩ := scan_binds db v
  cases hall.symm.trans hp
  have hapart : ∀ u ∈ (insert w {v} : Set String), u ∉ (insert e ∅ : Set String) := by
    rintro u (rfl | rfl) (heq | hnone)
    · exact hw heq.symm
    · exact hnone
    · exact hv heq.symm
    · exact hnone
  obtain ⟨r, hr, hbinds', htypes⟩ := expand_binds db hbinds (Set.mem_singleton v)
    (Set.notMem_empty e) hapart direction types
  obtain ⟨shares, -, hshape⟩ := expand_eq_ok hr
  have hinitial : all.initial = true := by rw [scan_eq_ok hall]
  refine ⟨r, hr, by simpa using hbinds', htypes, ?_⟩
  rw [hshape, reached, if_pos hinitial, size_fromAllNodes]

end Results

section Selection

variable {db : Database ℚ} (h : ∀ t, 0 ≤ db.view.relationships anyLabel t anyLabel .outgoing)

include h

/-- Types that are selected keep their part of a number of relationships. -/
theorem selected_part (old allowed : TypeSet) :
    db.relationships anyLabel old anyLabel .outgoing *
        (if 0 < db.relationships anyLabel old anyLabel .outgoing then
          db.relationships anyLabel (allowed.filter (fun t => decide (t ∈ old))) anyLabel .outgoing /
            db.relationships anyLabel old anyLabel .outgoing else 0) =
      db.relationships anyLabel (allowed.filter (fun t => decide (t ∈ old))) anyLabel .outgoing := by
  have hcommon : allowed.filter (fun t => decide (t ∈ old)) =
      old.filter (fun t => decide (t ∈ allowed)) := by
    refine OrderedSet.ext (fun t => ?_)
    simp only [OrderedSet.mem_filter, decide_eq_true_iff, and_comm]
  have hnonneg := relationships_nonneg_of h (allowed.filter (fun t => decide (t ∈ old)))
  split
  · next hpos => exact mul_div_cancel₀ _ hpos.ne'
  · next hzero =>
    have hle := relationships_filter_le h (fun t => decide (t ∈ allowed)) old
    rw [← hcommon] at hle
    rw [mul_zero]
    exact le_antisymm hnonneg (hle.trans (not_lt.mp hzero))

end Selection

/-- The types of a second set that a first one allows, which may be the wildcard for every type. -/
def allowed (first second : TypeSet) : TypeSet :=
  if first = OrderedSet.singleton anyType then second
  else second.filter (fun t => decide (t ∈ first))

/-- To select types after a step from all nodes has as many results as a step along the identifiers
in both sets. These are the results of a step along the types that the first set allows, except
after a step along the wildcard if there are relationships of a type that is selected. -/
theorem selectTypes_expand {db : Database ℚ}
    (h : ∀ t, 0 ≤ db.view.relationships anyLabel t anyLabel .outgoing) {v w e : String} (hv : e ≠ v)
    (hw : e ≠ w) (direction : Direction) (first second : TypeSet) :
    ∃ all step selected common narrow, scan db v = .ok all ∧
      expand db v direction e first w all = .ok step ∧
      selectTypes db e second step = .ok selected ∧
      expand db v direction e (second.filter (fun t => decide (t ∈ first))) w all = .ok common ∧
      expand db v direction e (allowed first second) w all = .ok narrow ∧
      selected.size = common.size ∧
      (selected.size = narrow.size ↔ first ≠ OrderedSet.singleton anyType ∨
        ∀ t ∈ second, t ≠ anyType → db.view.relationships anyLabel t anyLabel .outgoing = 0) := by
  obtain ⟨all, hall, -⟩ := scan_binds db v
  have hexpand := expand_all db hv hw hall direction
  obtain ⟨step, hstep, hbinds, htypes, hsize⟩ := hexpand first
  obtain ⟨common, hcommon, -, -, hcommonSize⟩ :=
    hexpand (second.filter (fun t => decide (t ∈ first)))
  obtain ⟨narrow, hnarrow, -, -, hnarrowSize⟩ := hexpand (allowed first second)
  obtain ⟨selected, hselected, -⟩ := selectTypes_binds db hbinds (Set.mem_singleton e) second
  have hboth : selected.size = common.size := by
    obtain ⟨old, ratio, hold, hratio, hshape⟩ := selectTypes_eq_ok hselected
    cases htypes.symm.trans hold
    rw [hshape, hcommonSize, hratio, hsize, relationships_ways, mul_assoc, selected_part h,
      ← relationships_ways]
  refine ⟨all, step, selected, common, narrow, hall, hstep, hselected, hcommon, hnarrow, hboth, ?_⟩
  rw [hboth, hcommonSize, hnarrowSize, relationships_ways, relationships_ways (allowed _ _),
    mul_right_inj' (ways_pos direction).ne', allowed]
  by_cases hany : first = OrderedSet.singleton anyType
  · -- what is lost are the selected types other than the wildcard
    subst hany
    rw [if_pos rfl,
      ← relationships_split (fun t => decide (t ∈ OrderedSet.singleton anyType)) second,
      left_eq_add, relationships_eq_zero_iff h]
    simp [OrderedSet.mem_filter, OrderedSet.mem_singleton]
  · simp [hany]

/-- Five relationships of one type and three of another. -/
def traffic : Database ℚ :=
  ⟨⟨Store.build 10 [.addRelationships ⟨anyLabel, 0, anyLabel⟩ 5,
    .addRelationships ⟨anyLabel, 1, anyLabel⟩ 3], false⟩, .single []⟩

theorem traffic_relationships (t : TypeId) :
    traffic.view.relationships anyLabel t anyLabel .outgoing =
      if t = anyType then 8 else if t = 0 then 5 else if t = 1 then 3 else 0 := by
  have hkeys : ∀ u : TypeId, (⟨anyLabel, t, anyLabel⟩ : RelationshipKey) = ⟨anyLabel, u, anyLabel⟩ ↔
      t = u := fun u => by simp
  have hzero : RelationshipKey.generalizations ⟨anyLabel, 0, anyLabel⟩ =
    [⟨anyLabel, 0, anyLabel⟩, ⟨anyLabel, anyType, anyLabel⟩] := by decide
  have hone : RelationshipKey.generalizations ⟨anyLabel, 1, anyLabel⟩ =
    [⟨anyLabel, 1, anyLabel⟩, ⟨anyLabel, anyType, anyLabel⟩] := by decide
  simp only [View.relationships, View.relationshipCount, traffic, Store.relationshipCount,
    Store.build, Store.enter, List.foldl_cons, List.foldl_nil, hzero, hone, Store.increase,
    OrderedMap.getD, OrderedMap.get?_insert, hkeys]
  by_cases hany : t = anyType
  · subst hany
    decide +kernel
  · by_cases h₀ : t = 0
    · subst h₀
      decide +kernel
    · by_cases h₁ : t = 1
      · subst h₁
        decide +kernel
      · simp [hany, h₀, h₁, Store.empty]

theorem traffic_nonneg (t : TypeId) :
    0 ≤ traffic.view.relationships anyLabel t anyLabel .outgoing := by
  rw [traffic_relationships]
  split_ifs <;> norm_num

/-- Of two types that are followed both ways one is selected, and one that is not known. -/
theorem selectTypes_expand_traffic :
    (∀ t, 0 ≤ traffic.view.relationships anyLabel t anyLabel .outgoing) ∧ "e" ≠ "a" ∧ "e" ≠ "b" ∧
      ∃ all step selected common narrow, scan traffic "a" = .ok all ∧
        expand traffic "a" .both "e" (OrderedSet.ofList [0, 1]) "b" all = .ok step ∧
        selectTypes traffic "e" (OrderedSet.ofList [1, 7]) step = .ok selected ∧
        expand traffic "a" .both "e" (OrderedSet.ofList [1]) "b" all = .ok common ∧
        expand traffic "a" .both "e" (allowed (OrderedSet.ofList [0, 1]) (OrderedSet.ofList [1, 7]))
          "b" all = .ok narrow ∧
        selected.size = common.size ∧ selected.size = narrow.size := by
  obtain ⟨all, step, selected, common, narrow, hall, hstep, hselected, hcommon, hnarrow, hboth,
    hallowed⟩ := selectTypes_expand traffic_nonneg (show "e" ≠ "a" by decide)
      (show "e" ≠ "b" by decide) .both (OrderedSet.ofList [0, 1]) (OrderedSet.ofList [1, 7])
  exact ⟨traffic_nonneg, by decide, by decide, all, step, selected, common, narrow, hall, hstep,
    hselected, hcommon, hnarrow, hboth, hallowed.mpr (.inl (by decide))⟩

/-- A step along all types, which are those of the eight relationships that there are, has eight
results, but none that the first type would be selected in. -/
theorem selectTypes_loses_type :
    (∀ t, 0 ≤ traffic.view.relationships anyLabel t anyLabel .outgoing) ∧
      (∀ t, t ≠ anyType → t ∉ OrderedSet.ofList [0, 1] →
        traffic.view.relationships anyLabel t anyLabel .outgoing = 0) ∧
      traffic.view.relationships anyLabel anyType anyLabel .outgoing =
        traffic.relationships anyLabel (OrderedSet.ofList [0, 1]) anyLabel .outgoing ∧
      ∃ all step selected narrow, scan traffic "a" = .ok all ∧
        expand traffic "a" .outgoing "e" (OrderedSet.singleton anyType) "b" all = .ok step ∧
        selectTypes traffic "e" (OrderedSet.singleton 0) step = .ok selected ∧
        expand traffic "a" .outgoing "e"
          (allowed (OrderedSet.singleton anyType) (OrderedSet.singleton 0)) "b" all = .ok narrow ∧
        step.size = 8 ∧ selected.size = 0 ∧ narrow.size = 5 := by
  refine ⟨traffic_nonneg, fun t hany ht => ?_, by decide +kernel, ?_⟩
  · rw [OrderedSet.mem_ofList, List.mem_pair, not_or] at ht
    rw [traffic_relationships, if_neg hany, if_neg ht.1, if_neg ht.2]
  · exact ⟨_, _, _, _, rfl, rfl, rfl, rfl, by decide +kernel, by decide +kernel, by decide +kernel⟩

end PatternCardinality.Estimate
