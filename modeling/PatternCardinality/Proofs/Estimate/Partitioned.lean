import Mathlib.Algebra.BigOperators.Ring.List
import PatternCardinality.Proofs.Estimate.Binding
import PatternCardinality.Proofs.Estimate.Certain

/-!
# Nodes with exactly one label

Where every node carries exactly one label, the shares of the labels among all nodes make a whole,
and the counts with a wildcard are the sums of those of the labels. The mass of all nodes then falls
on the labels as they are, and the mass of the nodes with a label on that label alone, so a step
from all nodes has the exact result also where it is estimated.
-/

namespace PatternCardinality.Estimate

open Labels Statistics

/-- A label, or the wildcard. -/
def Database.Known (db : Database ℚ) (l : LabelId) : Prop := l ∈ db.labels ∨ l = anyLabel

/-- Statistics of a graph in which every node carries exactly one label, seen in full: the nodes are
those of the labels, and so are the relationships at either end. -/
structure Database.Partitioned (db : Database ℚ) : Prop where
  disjoint : ∃ labels, db.distribution = Distribution.disjoint labels
  full : db.view.oneSided = false
  nodes_nonneg : ∀ l ∈ db.labels, 0 ≤ db.nodes l
  total_eq : db.total = (db.labels.toList.map db.nodes).sum
  total_pos : 0 < db.total
  count_nonneg : ∀ b t w, db.Known b → db.Known w → 0 ≤ db.view.store.relationshipCount b t w
  count_eq_zero : ∀ l ∈ db.labels, db.nodes l = 0 → ∀ t w, db.Known w →
    db.view.store.relationshipCount l t w = 0 ∧ db.view.store.relationshipCount w t l = 0
  count_any_base : ∀ t w, db.Known w → db.view.store.relationshipCount anyLabel t w =
    (db.labels.toList.map (fun l => db.view.store.relationshipCount l t w)).sum
  count_any_target : ∀ b t, db.Known b → db.view.store.relationshipCount b t anyLabel =
    (db.labels.toList.map (fun l => db.view.store.relationshipCount b t l)).sum

variable {db : Database ℚ} {b l m w : LabelId}

theorem Database.known_of_mem (hl : l ∈ db.labels) : db.Known l := Or.inl hl

theorem Database.known_any (db : Database ℚ) : db.Known anyLabel := Or.inr rfl

namespace Database.Partitioned

variable (h : db.Partitioned)

include h

theorem groups_eq : db.distribution.groups = db.labels.toList.map OrderedSet.singleton := by
  obtain ⟨labels, hd⟩ := h.disjoint
  rw [Database.labels, hd]
  exact Distribution.groups_disjoint labels

section Counts

theorem relationshipCount_eq (b : LabelId) (t : TypeId) (w : LabelId) :
    db.view.relationshipCount b t w = db.view.store.relationshipCount b t w := by
  rw [View.relationshipCount, h.full]
  rfl

theorem relationships_nonneg (hb : db.Known b) (hw : db.Known w) (types : TypeSet)
    (direction : Direction) : 0 ≤ db.relationships b types w direction := by
  rw [relationships, Scalar.sum_rat]
  refine List.sum_nonneg (fun x hx => ?_)
  obtain ⟨t, -, rfl⟩ := List.mem_map.mp hx
  have hfrom := h.count_nonneg b t w hb hw
  have hto := h.count_nonneg w t b hw hb
  cases direction <;> simp only [View.relationships, h.relationshipCount_eq]
  · exact hfrom
  · exact hto
  · exact add_nonneg hfrom hto

theorem relationships_eq_zero (hl : l ∈ db.labels) (hzero : db.nodes l = 0) (hw : db.Known w)
    (types : TypeSet) (direction : Direction) : db.relationships l types w direction = 0 := by
  rw [relationships, Scalar.sum_rat]
  refine List.sum_eq_zero (fun x hx => ?_)
  obtain ⟨t, -, rfl⟩ := List.mem_map.mp hx
  obtain ⟨hfrom, hto⟩ := h.count_eq_zero l hl hzero t w hw
  cases direction <;> simp only [View.relationships, h.relationshipCount_eq, hfrom, hto, add_zero]

/-- The relationships at any nodes are those at the nodes of all labels. -/
theorem sum_relationships (hw : db.Known w) (types : TypeSet) (direction : Direction) :
    (db.labels.toList.map (fun l => db.relationships l types w direction)).sum =
      db.relationships anyLabel types w direction := by
  have htype : ∀ t, (db.labels.toList.map (fun l => db.view.relationships l t w direction)).sum =
      db.view.relationships anyLabel t w direction := by
    intro t
    have hbase := h.count_any_base t w hw
    have htarget := h.count_any_target w t hw
    cases direction <;>
      simp only [View.relationships, h.relationshipCount_eq, hbase, htarget, List.sum_map_add]
  simp only [relationships, Scalar.sum_rat, ← htype]
  -- the sums over types and over labels change places
  induction types.toList with
  | nil => simp
  | cons t types ih => simp only [List.map_cons, List.sum_cons, List.sum_map_add, ih]

theorem relationships_le_any (hl : l ∈ db.labels) (hw : db.Known w) (types : TypeSet)
    (direction : Direction) :
    db.relationships l types w direction ≤ db.relationships anyLabel types w direction := by
  rw [← h.sum_relationships hw]
  refine List.single_le_sum (fun x hx => ?_) _ (List.mem_map_of_mem hl)
  obtain ⟨m, hm, rfl⟩ := List.mem_map.mp hx
  exact h.relationships_nonneg (Database.known_of_mem hm) hw types direction

/-- Nodes with a label have their relationships in all. -/
theorem nodes_mul_averageDegree (hl : l ∈ db.labels) (hw : db.Known w) (types : TypeSet)
    (direction : Direction) :
    db.nodes l * db.averageDegree l types w direction = db.relationships l types w direction := by
  rw [averageDegree]
  split
  · next hnone =>
    have hzero : db.nodes l = 0 := le_antisymm hnone (h.nodes_nonneg l hl)
    rw [mul_zero, h.relationships_eq_zero hl hzero hw]
  · next hsome => exact mul_div_cancel₀ _ (not_le.mp hsome).ne'

end Counts

section Degrees

variable (types : TypeSet) (direction : Direction)

/-- Shares that make a whole fall on the labels as they are. -/
theorem degreeTo_eq_sum {shares : LabelShares ℚ} (hshares : ∀ l ∈ db.labels, 0 ≤ shares.of l)
    (hsum : (db.labels.toList.map shares.of).sum = 1) (target : LabelId) :
    (⟨db, types, direction⟩ : Traversal ℚ).degreeTo shares target =
      (db.labels.toList.map
        (fun l => shares.of l * db.averageDegree l types target direction)).sum := by
  set walk := (⟨db, types, direction⟩ : Traversal ℚ).massOf shares with hwalk
  have hgroups : walk = Walk.throughGroups db.distribution
      (fun group => sortByEvidence db shares.of group.toList) (fun _ => shares.of) 0
      (db.labels.toList.map OrderedSet.singleton) (Vector.replicate 1 1) := by
    rw [hwalk, Traversal.massOf, Walk.complete, h.groups_eq]
  obtain ⟨hvisits, hrest⟩ : (walk.visits.map (fun v => (∏ i, v.mass.get i) *
      db.averageDegree v.label types target direction)).sum = (db.labels.toList.map
        (fun l => (∏ _i : Fin 1, shares.of l) * db.averageDegree l types target direction)).sum ∧
      ∏ i, walk.rest.get i = ∏ i : Fin 1, ((Vector.replicate 1 (1 : ℚ)).get i -
        (db.labels.toList.map shares.of).sum) := by
    rw [hgroups]
    exact Walk.throughGroups_of_singletons
      (fun l x => x * db.averageDegree l types target direction) (fun _ => zero_mul _)
      (fun _ => rfl) (fun _ => hshares) (fun i => (hsum.trans (Walk.get_replicate 1 i).symm).le)
  simp only [Fin.prod_univ_one, Walk.get_replicate, hsum, sub_self] at hvisits hrest
  rw [Traversal.degreeTo_eq, ← hwalk, hrest, zero_mul, add_zero]
  exact hvisits

theorem of_scanned (hl : l ∈ db.labels) :
    LabelShares.of (scanned db) l = db.nodes l / db.total := by
  rw [scanned, LabelShares.of_tabulate hl, if_pos h.total_pos]

/-- Among all nodes, the expected number of relationships is that of all over the nodes. -/
theorem degreeTo_scanned (hw : db.Known w) :
    (⟨db, types, direction⟩ : Traversal ℚ).degreeTo (scanned db) w =
      db.relationships anyLabel types w direction / db.total := by
  have hshares : ∀ l ∈ db.labels, 0 ≤ LabelShares.of (scanned db) l := by
    intro l hl
    rw [h.of_scanned hl]
    exact div_nonneg (h.nodes_nonneg l hl) h.total_pos.le
  have hsum : (db.labels.toList.map (LabelShares.of (scanned db))).sum = 1 := by
    calc (db.labels.toList.map (LabelShares.of (scanned db))).sum
        = (db.labels.toList.map (fun l => db.nodes l * db.total⁻¹)).sum :=
          congrArg List.sum (List.map_congr_left (fun l hl => h.of_scanned hl))
      _ = db.total * db.total⁻¹ := by rw [List.sum_map_mul_right, h.total_eq]
      _ = 1 := mul_inv_cancel₀ h.total_pos.ne'
  have hterm : ∀ l ∈ db.labels, LabelShares.of (scanned db) l *
      db.averageDegree l types w direction =
        db.relationships l types w direction * db.total⁻¹ := by
    intro l hl
    rw [h.of_scanned hl, div_mul_eq_mul_div, h.nodes_mul_averageDegree hl hw, div_eq_mul_inv]
  rw [h.degreeTo_eq_sum types direction hshares hsum, List.map_congr_left hterm,
    List.sum_map_mul_right, h.sum_relationships hw, div_eq_mul_inv]

/-- A label that is selected is certain, and no other label is possible. -/
theorem of_narrowed (shares : LabelShares ℚ) (hl : l ∈ db.labels) (hm : m ∈ db.labels) :
    LabelShares.of (narrowed db shares l) m = if m = l then 1 else 0 := by
  obtain ⟨labels, hd⟩ := h.disjoint
  have hgroup : db.distribution.groupOf? m = db.distribution.groupOf? l ↔ m = l := by
    rw [Database.labels, hd] at hl
    rw [hd]
    exact Distribution.groupOf?_disjoint_inj hl
  have hbelow : ∀ sub k, db.distribution.isBelow sub k = false := by
    intro sub k
    rw [hd]
    exact Distribution.isBelow_disjoint labels sub k
  rw [narrowed, LabelShares.of_tabulate hm, narrowedShare]
  by_cases heq : m = l
  · simp [heq]
  · simp [heq, hbelow, hgroup]

theorem degreeTo_narrowed (shares : LabelShares ℚ) (hl : l ∈ db.labels) (target : LabelId) :
    (⟨db, types, direction⟩ : Traversal ℚ).degreeTo (narrowed db shares l) target =
      db.averageDegree l types target direction := by
  have hof : ∀ m ∈ db.labels, LabelShares.of (narrowed db shares l) m = if m = l then 1 else 0 :=
    fun m hm => h.of_narrowed shares hl hm
  have hsingle : ∀ f : LabelId → ℚ,
      (db.labels.toList.map (fun m => (if m = l then 1 else 0) * f m)).sum = f l := by
    intro f
    have hcount : db.labels.toList.count l = 1 :=
      List.count_eq_one_of_mem (OrderedSet.nodup_toList db.labels) hl
    simp only [ite_mul, one_mul, zero_mul, List.sum_map_ite_eq, hcount, one_nsmul, sub_zero,
      List.map_const', List.sum_replicate, nsmul_zero, add_zero]
  have hshares : ∀ m ∈ db.labels, 0 ≤ LabelShares.of (narrowed db shares l) m := by
    intro m hm
    rw [hof m hm]
    split <;> norm_num
  have hsum : (db.labels.toList.map (LabelShares.of (narrowed db shares l))).sum = 1 := by
    rw [List.map_congr_left hof]
    simpa using hsingle (fun _ => 1)
  rw [h.degreeTo_eq_sum types direction hshares hsum,
    ← hsingle (fun m => db.averageDegree m types target direction)]
  exact congrArg List.sum (List.map_congr_left (fun m hm => by rw [hof m hm]))

/-- The label of the base keeps the share of the relationships that begin at it. -/
theorem baseShare_scanned (hl : l ∈ db.labels)
    (hpos : 0 < db.relationships anyLabel types anyLabel direction) :
    (⟨db, types, direction⟩ : Traversal ℚ).baseShare db.total
        (db.relationships anyLabel types anyLabel direction / db.total) (scanned db) l =
      db.relationships l types anyLabel direction /
        db.relationships anyLabel types anyLabel direction := by
  have htotal := h.total_pos
  set count := db.relationships anyLabel types anyLabel direction
  simp only [Traversal.baseShare, h.of_scanned hl]
  rcases (h.nodes_nonneg l hl).eq_or_lt with hzero | hnodes
  · -- no node carries the label, so no relationship begins at one
    simp [← hzero, h.relationships_eq_zero hl hzero.symm db.known_any]
  · have hkept : ¬db.nodes l / db.total ≤ 0 := not_le.mpr (div_pos hnodes htotal)
    have hselected : db.total * (db.nodes l / db.total) = db.nodes l := mul_div_cancel₀ _ htotal.ne'
    have hshare : db.averageDegree l types anyLabel direction * (db.nodes l / db.total) /
        (count / db.total) = db.relationships l types anyLabel direction / count := by
      rw [← mul_div_assoc, mul_comm, h.nodes_mul_averageDegree hl db.known_any]
      exact div_div_div_cancel_right₀ htotal.ne' _ _
    have hle : db.relationships l types anyLabel direction / count ≤ 1 :=
      (div_le_one hpos).mpr (h.relationships_le_any hl db.known_any types direction)
    rw [if_neg hkept, hselected, if_pos hnodes, h.degreeTo_narrowed types direction _ hl, hshare,
      Scalar.least_rat, min_eq_left hle]

/-- The estimate of a step from all nodes is exact. -/
theorem fromResult_scanned :
    (⟨db, types, direction⟩ : Traversal ℚ).fromResult db.total (scanned db) none =
      (⟨db, types, direction⟩ : Traversal ℚ).fromAllNodes (scanned db) := by
  have htotal := h.total_pos
  have hdegree : ∀ w, db.Known w →
      (⟨db, types, direction⟩ : Traversal ℚ).degreeTo (scanned db) w =
        db.relationships anyLabel types w direction / db.total :=
    fun w hw => h.degreeTo_scanned types direction hw
  set count := db.relationships anyLabel types anyLabel direction with hcount
  have hsize : db.total * (count / db.total) = count := mul_div_cancel₀ _ htotal.ne'
  simp only [Traversal.fromResult, Traversal.fromAllNodes, hdegree _ db.known_any, ← hcount, hsize]
  by_cases hnone : count ≤ 0
  · rw [if_pos hnone, if_pos (div_nonpos_of_nonpos_of_nonneg hnone htotal.le)]
  · have hpos : 0 < count := not_le.mp hnone
    have hratio : ∀ x : ℚ, x / db.total / (count / db.total) = x / count :=
      fun x => div_div_div_cancel_right₀ htotal.ne' x count
    rw [if_neg hnone, if_neg (not_le.mpr (div_pos hpos htotal))]
    congr 1
    · refine OrderedMap.tabulate_congr (fun l hl => ?_)
      exact h.baseShare_scanned types direction hl hpos
    · refine OrderedMap.tabulate_congr (fun l hl => ?_)
      rw [hdegree l (Database.known_of_mem hl), hratio]

end Degrees

end Database.Partitioned

/-- Where every node carries exactly one label, a step from all nodes has the same result whether it
is taken from the exact counts or estimated: the same size, and the same shares of all labels at
both ends. -/
theorem expand_scan (h : db.Partitioned) {v target : String} (hfresh : target ≠ v)
    (direction : Direction) (relationship : String) (types : TypeSet) :
    ∃ p, scan db v = .ok p ∧ p.initial = true ∧
      expand db v direction relationship types target p =
        expand db v direction relationship types target { p with initial := false } ∧
      (relationship ≠ v → relationship ≠ target →
        ∃ r, expand db v direction relationship types target p = .ok r) := by
  obtain ⟨p, hp, hbinds⟩ := scan_binds db v
  have hscan := scan_eq_ok hp
  refine ⟨p, hp, by rw [hscan], ?_, fun hv htarget => ?_⟩
  · have hget : (OrderedMap.singleton v (scanned db)).get? target = none := by
      rw [OrderedMap.get?_singleton, if_neg hfresh]
    have hlabels : ∀ initial, (⟨OrderedMap.singleton v (scanned db), ∅, db.total, initial⟩ :
        Profile ℚ).labels v = .ok (scanned db) := by
      intro initial
      rw [Profile.labels_eq_ok, OrderedMap.get?_singleton, if_pos rfl]
    have hsame := h.fromResult_scanned types direction
    simp only [hscan, expand, hlabels, hget, hsame, bind, Except.bind, Profile.isRelationship,
      if_true, Bool.false_eq_true, if_false]
  · have hapart : ∀ w ∈ insert target ({v} : Set String),
        w ∉ insert relationship (∅ : Set String) := by
      simp [hv.symm, htarget.symm]
    obtain ⟨r, hr, -⟩ := expand_binds db hbinds (Set.mem_singleton v)
      (Set.notMem_empty relationship) hapart direction types
    exact ⟨r, hr⟩

/-- Four persons and six cars; persons own cars in five ways, and three cars have a driver. -/
def garage : Store ℚ :=
  { Store.empty 10 with
    labelCounts := OrderedMap.ofList [(1, 4), (2, 6)]
    relationshipCounts := OrderedMap.tabulate (fun k => if k.type = 7 then 5 else 3)
      (OrderedSet.ofList [⟨1, 7, 2⟩, ⟨1, 7, anyLabel⟩, ⟨anyLabel, 7, 2⟩, ⟨anyLabel, 7, anyLabel⟩,
        ⟨2, 8, 1⟩, ⟨2, 8, anyLabel⟩, ⟨anyLabel, 8, 1⟩, ⟨anyLabel, 8, anyLabel⟩]) }

/-- A label without nodes is known too. -/
def motorists : Database ℚ := ⟨⟨garage, false⟩, Distribution.disjoint [2, 3, 1]⟩

theorem garage_count (b : LabelId) (t : TypeId) (w : LabelId) :
    garage.relationshipCount b t w =
      if (b = 1 ∨ b = anyLabel) ∧ t = 7 ∧ (w = 2 ∨ w = anyLabel) then 5
      else if (b = 2 ∨ b = anyLabel) ∧ t = 8 ∧ (w = 1 ∨ w = anyLabel) then 3 else 0 := by
  have hkeys : (⟨b, t, w⟩ : RelationshipKey) ∈ OrderedSet.ofList [⟨1, 7, 2⟩, ⟨1, 7, anyLabel⟩,
      ⟨anyLabel, 7, 2⟩, ⟨anyLabel, 7, anyLabel⟩, ⟨2, 8, 1⟩, ⟨2, 8, anyLabel⟩, ⟨anyLabel, 8, 1⟩,
      ⟨anyLabel, 8, anyLabel⟩] ↔
        ((b = 1 ∨ b = anyLabel) ∧ t = 7 ∧ (w = 2 ∨ w = anyLabel)) ∨
          ((b = 2 ∨ b = anyLabel) ∧ t = 8 ∧ (w = 1 ∨ w = anyLabel)) := by
    simp only [OrderedSet.mem_ofList, List.mem_cons, RelationshipKey.mk.injEq, List.not_mem_nil,
      or_false]
    constructor
    · rintro (⟨rfl, rfl, rfl⟩ | ⟨rfl, rfl, rfl⟩ | ⟨rfl, rfl, rfl⟩ | ⟨rfl, rfl, rfl⟩ |
        ⟨rfl, rfl, rfl⟩ | ⟨rfl, rfl, rfl⟩ | ⟨rfl, rfl, rfl⟩ | ⟨rfl, rfl, rfl⟩) <;> simp
    · rintro (⟨rfl | rfl, rfl, rfl | rfl⟩ | ⟨rfl | rfl, rfl, rfl | rfl⟩) <;> simp
  simp only [Store.relationshipCount, garage, OrderedMap.getD, OrderedMap.get?_tabulate, hkeys]
  by_cases hfirst : (b = 1 ∨ b = anyLabel) ∧ t = 7 ∧ (w = 2 ∨ w = anyLabel)
  · simp [hfirst]
  · by_cases hsecond : (b = 2 ∨ b = anyLabel) ∧ t = 8 ∧ (w = 1 ∨ w = anyLabel)
    · simp [hsecond]
    · simp [hfirst, hsecond]

theorem motorists_labels : motorists.labels.toList = [1, 2, 3] := by decide

theorem motorists_nodes (l : LabelId) : motorists.nodes l =
    if l = anyLabel then 10 else if l = 2 then 6 else if l = 1 then 4 else 0 := by
  simp only [Database.nodes, View.nodes, motorists, Store.nodes, garage, OrderedMap.getD,
    OrderedMap.ofList, List.foldl_cons, List.foldl_nil, OrderedMap.get?_insert,
    OrderedMap.get?_empty]
  grind [Store.empty]

theorem motorists_partitioned : motorists.Partitioned := by
  have hmem : ∀ {l}, l ∈ motorists.labels → l = 1 ∨ l = 2 ∨ l = 3 := by
    intro l hl
    rw [OrderedSet.mem_toList, motorists_labels] at hl
    simpa using hl
  have hknown : ∀ {l}, motorists.Known l → l = 1 ∨ l = 2 ∨ l = 3 ∨ l = anyLabel := by
    rintro l (hl | hl)
    · exact (hmem hl).imp_right (Or.imp_right Or.inl)
    · exact Or.inr (Or.inr (Or.inr hl))
  have hcount : ∀ b t w, motorists.view.store.relationshipCount b t w = _ := garage_count
  have hsplit : ∀ t : TypeId, (if t = 7 then (5 : ℚ) else if t = 8 then 3 else 0) =
      (if t = 7 then 5 else 0) + if t = 8 then 3 else 0 := by
    intro t
    by_cases ht : t = 7 <;> simp [ht]
  refine ⟨⟨_, rfl⟩, rfl, fun l _ => ?_, ?_, ?_, fun b t w _ _ => ?_, fun l hl hzero t w hw => ?_,
    fun t w hw => ?_, fun b t hb => ?_⟩
  · rw [motorists_nodes]
    split_ifs <;> norm_num
  · rw [motorists_labels]
    change motorists.nodes anyLabel = _
    simp [motorists_nodes, anyLabel]
    norm_num
  · change 0 < motorists.nodes anyLabel
    simp [motorists_nodes]
  · rw [hcount]
    split_ifs <;> norm_num
  · rcases hmem hl with rfl | rfl | rfl
    · simp [motorists_nodes, anyLabel] at hzero
    · simp [motorists_nodes, anyLabel] at hzero
    · simp [hcount, anyLabel]
  · rcases hknown hw with rfl | rfl | rfl | rfl <;>
      simp [motorists_labels, hcount, anyLabel, hsplit]
  · rcases hknown hb with rfl | rfl | rfl | rfl <;>
      simp [motorists_labels, hcount, anyLabel, hsplit, add_comm]

/-- Cars are reached, and owned, in eight ways. -/
theorem expand_scan_motorists :
    motorists.Partitioned ∧ "b" ≠ "a" ∧ ∃ p, scan motorists "a" = .ok p ∧ p.initial = true ∧
      expand motorists "a" .both "$e0" (OrderedSet.ofList [7, 8]) "b" p =
        expand motorists "a" .both "$e0" (OrderedSet.ofList [7, 8]) "b"
          { p with initial := false } ∧
      ("$e0" ≠ "a" → "$e0" ≠ "b" →
        ∃ r, expand motorists "a" .both "$e0" (OrderedSet.ofList [7, 8]) "b" p = .ok r) :=
  ⟨motorists_partitioned, by decide, expand_scan motorists_partitioned (by decide) .both "$e0" _⟩

end PatternCardinality.Estimate
