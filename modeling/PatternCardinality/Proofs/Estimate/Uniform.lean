import PatternCardinality.Proofs.Estimate.Partitioned
import PatternCardinality.Proofs.Estimate.Renaming

/-!
# A single label on every node

Where every node carries the only label that there is, labels tell nothing. As long as a result has
matches, the label is certain at each of its node variables, and to identify two variables divides
the size by the number of nodes, in whichever way it is done. Results without matches may have
different shares, but no operator makes matches out of them.
-/

namespace PatternCardinality.Estimate

open Labels Statistics

/-- Statistics of a graph in which every node carries one label: each count with the label is that
of the wildcard. -/
structure Database.Uniform (db : Database ℚ) (L : LabelId) : Prop where
  groups : db.distribution.groups = [OrderedSet.singleton L]
  nodes : db.nodes L = db.total
  total_pos : 0 < db.total
  count_nonneg : ∀ t, 0 ≤ db.view.store.relationshipCount anyLabel t anyLabel
  count_eq : ∀ b t w, db.Known b → db.Known w → db.view.store.relationshipCount b t w =
    db.view.store.relationshipCount anyLabel t anyLabel

/-- The shares where a label is certain and there is no other. -/
def LabelShares.certain (L : LabelId) : LabelShares ℚ := OrderedMap.singleton L 1

theorem LabelShares.of_certain (L l : LabelId) :
    (LabelShares.certain L).of l = if l = L then 1 else 0 := by
  rw [LabelShares.of, LabelShares.certain, OrderedMap.getD, OrderedMap.get?_singleton]
  split <;> rfl

@[simp] theorem LabelShares.of_certain_self (L : LabelId) : (LabelShares.certain L).of L = 1 := by
  rw [LabelShares.of_certain, if_pos rfl]

theorem LabelShares.certain_insert (L : LabelId) :
    (LabelShares.certain L).insert L 1 = LabelShares.certain L := OrderedMap.insert_insert ∅ L 1 1

theorem smallerShares_certain (L : LabelId) :
    smallerShares (LabelShares.certain L) (LabelShares.certain L) = LabelShares.certain L := by
  have hget : (LabelShares.certain L).get? L = some 1 := by
    rw [LabelShares.certain, OrderedMap.get?_singleton, if_pos rfl]
  have hentries : (LabelShares.certain L).entries = [(L, 1)] := rfl
  simp only [smallerShares, hentries, List.foldl_cons, List.foldl_nil, hget, Scalar.least_rat,
    min_self, LabelShares.certain_insert]

variable {db : Database ℚ} {L : LabelId}

/-- All mass falls on a label that is certain, in as many vectors as there are. -/
theorem Walk.complete_of_certain {d : Distribution} (hd : d.groups = [OrderedSet.singleton L])
    {n : ℕ} [NeZero n] {sort : OrderedSet LabelId → List LabelId}
    (hsort : sort (OrderedSet.singleton L) = [L]) {share : Fin n → LabelId → ℚ}
    (hshare : ∀ i, share i L = 1) :
    Walk.complete d sort share = ⟨[⟨0, L, Vector.replicate n 1⟩], Vector.replicate n 0⟩ := by
  have hexcluded : ∀ i : Fin n, 1 - (Vector.replicate n (1 : ℚ))[i] = 0 := by simp
  rw [complete, hd, throughGroups, if_neg not_exhausted]
  dsimp only
  rw [ofFn_eq_replicate hexcluded, hsort, throughGroup_of_certain hshare]
  rfl

open LabelShares (certain)

/-- A step leads to no matches, or the label is certain at both of its ends. -/
def Traversal.Reached.Certain (L : LabelId) (r : Traversal.Reached ℚ) : Prop :=
  r.size = 0 ∨ 0 < r.size ∧ r.base = certain L ∧ r.target = certain L

/-- Where a join by groups begins, with all of the only label to cover. -/
def Partition.Progress.start (L : LabelId) : Partition.Progress ℚ :=
  ⟨0, 1, [0], [OrderedSet.singleton L]⟩

namespace Database.Uniform

variable (h : db.Uniform L)

include h

theorem labels_eq : db.labels = OrderedSet.singleton L := by
  rw [Database.labels, Distribution.labels, h.groups]
  rfl

theorem known : db.Known L := by
  refine Or.inl ?_
  rw [h.labels_eq]
  exact OrderedSet.mem_singleton.mpr rfl

theorem tabulate_eq (f : LabelId → ℚ) :
    OrderedMap.tabulate f db.labels = OrderedMap.singleton L (f L) := by
  rw [h.labels_eq]
  rfl

theorem tabulate_certain {f : LabelId → ℚ} (hf : f L = 1) :
    OrderedMap.tabulate f db.labels = certain L := by
  rw [h.tabulate_eq, hf, LabelShares.certain]

theorem filter_labels : db.labels.filter (fun l => decide (0 < db.nodes l)) = db.labels := by
  refine OrderedSet.ext (fun l => ?_)
  rw [OrderedSet.mem_filter, h.labels_eq, OrderedSet.mem_singleton, decide_eq_true_iff]
  refine and_iff_left_of_imp ?_
  rintro rfl
  exact h.nodes ▸ h.total_pos

theorem groupOf? : db.distribution.groupOf? L = some 0 := by
  simp [Distribution.groupOf?, h.groups, OrderedSet.mem_singleton]

section Counts

variable {b w : LabelId} (types : TypeSet) (direction : Direction)

theorem relationshipCount_eq (hb : db.Known b) (t : TypeId) (hw : db.Known w) :
    db.view.relationshipCount b t w = db.view.store.relationshipCount anyLabel t anyLabel := by
  rw [View.relationshipCount]
  split
  · rw [h.count_eq b t anyLabel hb db.known_any, h.count_eq anyLabel t w db.known_any hw,
      Scalar.least_rat, min_self]
  · exact h.count_eq b t w hb hw

/-- Relationships at nodes with the label are all relationships. -/
theorem relationships_eq (hb : db.Known b) (hw : db.Known w) :
    db.relationships b types w direction = db.relationships anyLabel types anyLabel direction := by
  have htype : ∀ t, db.view.relationships b t w direction =
      db.view.relationships anyLabel t anyLabel direction := by
    intro t
    cases direction <;> simp only [View.relationships, h.relationshipCount_eq hb t hw,
      h.relationshipCount_eq hw t hb, h.relationshipCount_eq db.known_any t db.known_any]
  simp only [relationships, htype]

theorem relationships_nonneg : 0 ≤ db.relationships anyLabel types anyLabel direction := by
  rw [relationships, Scalar.sum_rat]
  refine List.sum_nonneg (fun x hx => ?_)
  obtain ⟨t, -, rfl⟩ := List.mem_map.mp hx
  have hcount := h.count_nonneg t
  cases direction <;>
    simp only [View.relationships, h.relationshipCount_eq db.known_any t db.known_any]
  · exact hcount
  · exact hcount
  · exact add_nonneg hcount hcount

theorem averageDegree_eq (hw : db.Known w) : db.averageDegree L types w direction =
    db.relationships anyLabel types anyLabel direction / db.total := by
  rw [averageDegree, h.nodes, if_neg (not_le.mpr h.total_pos),
    h.relationships_eq types direction h.known hw]

end Counts

/-! ### Steps -/

section Steps

variable (types : TypeSet) (direction : Direction)

theorem degreeTo_certain {w : LabelId} (hw : db.Known w) :
    (⟨db, types, direction⟩ : Traversal ℚ).degreeTo (certain L) w =
      db.relationships anyLabel types anyLabel direction / db.total := by
  have hwalk : (⟨db, types, direction⟩ : Traversal ℚ).massOf (certain L) =
      ⟨[⟨0, L, Vector.replicate 1 1⟩], Vector.replicate 1 0⟩ :=
    Walk.complete_of_certain h.groups rfl (fun _ => LabelShares.of_certain_self L)
  simp [Traversal.degreeTo, hwalk, Traversal.degree, h.averageDegree_eq types direction hw]

/-- Towards a node that is bound, there are as many relationships as to any one node. -/
theorem degreeToBound_certain :
    (⟨db, types, direction⟩ : Traversal ℚ).degreeToBound (certain L) (certain L) =
      db.relationships anyLabel types anyLabel direction / db.total / db.total := by
  have hdensity : db.density 1 L = 1 / db.total := by
    rw [Database.density, h.nodes, if_pos h.total_pos]
  have hlive : ¬(1 : ℚ) ≤ 0 := not_le.mpr zero_lt_one
  have hgroup : (⟨db, types, direction⟩ : Traversal ℚ).throughBoundGroup (certain L) (certain L)
      [L] ∅ 0 0 =
        (db.relationships anyLabel types anyLabel direction / db.total / db.total, 1) := by
    simp [Traversal.throughBoundGroup, hlive, hdensity,
      h.degreeTo_certain types direction h.known, div_eq_mul_inv]
  have hsort : sortByEvidence db (certain L).of (OrderedSet.singleton L).toList = [L] := rfl
  simp [Traversal.degreeToBound, h.groups, Traversal.throughBoundGroups, hsort, hlive, hgroup,
    h.total_pos, Scalar.least_rat]

theorem narrowed_certain (shares : LabelShares ℚ) : narrowed db shares L = certain L :=
  h.tabulate_certain (by simp [narrowedShare])

theorem fromAllNodes_certain (base : LabelShares ℚ) :
    Traversal.Reached.Certain L ((⟨db, types, direction⟩ : Traversal ℚ).fromAllNodes base) := by
  have hnonneg := h.relationships_nonneg types direction
  simp only [Traversal.fromAllNodes]
  split
  · next hnone => exact .inl (le_antisymm hnone hnonneg)
  · next hsome =>
    have hpos := not_le.mp hsome
    refine .inr ⟨hpos, h.tabulate_certain ?_, h.tabulate_certain ?_⟩
    · rw [h.relationships_eq types direction h.known db.known_any, div_self hpos.ne']
    · rw [h.relationships_eq types direction db.known_any h.known, div_self hpos.ne']

/-- The label stays certain at the base, as no step leads to more than all relationships. -/
theorem baseShare_certain {size degree : ℚ} (hsize : 0 < size) (hdegree : 0 < degree)
    (hle : degree ≤ db.relationships anyLabel types anyLabel direction / db.total) :
    (⟨db, types, direction⟩ : Traversal ℚ).baseShare size degree (certain L) L = 1 := by
  have hlive : ¬(1 : ℚ) ≤ 0 := not_le.mpr zero_lt_one
  simp only [Traversal.baseShare, LabelShares.of_certain_self, hlive, if_false, mul_one, hsize,
    if_true, h.narrowed_certain, h.degreeTo_certain types direction db.known_any,
    Scalar.least_rat]
  exact min_eq_right ((one_le_div hdegree).mpr hle)

theorem fromResult_certain (hone : 1 ≤ db.total) {size : ℚ} (hsize : 0 < size)
    {target : Option (LabelShares ℚ)} (htarget : ∀ s ∈ target, s = certain L) :
    Traversal.Reached.Certain L
      ((⟨db, types, direction⟩ : Traversal ℚ).fromResult size (certain L) target) := by
  have hany := h.degreeTo_certain types direction db.known_any
  have hlabel := h.degreeTo_certain types direction h.known
  have hbound := h.degreeToBound_certain types direction
  set count := db.relationships anyLabel types anyLabel direction
  rcases (h.relationships_nonneg types direction).eq_or_lt with hzero | hpos
  · refine .inl ?_
    cases target with
    | none => simp [Traversal.fromResult, hany, count, ← hzero]
    | some s =>
      rw [htarget s rfl]
      simp [Traversal.fromResult, hbound, count, ← hzero]
  · have hdegree : 0 < count / db.total := div_pos hpos h.total_pos
    cases target with
    | none =>
      simp only [Traversal.fromResult, hany, if_neg (not_le.mpr hdegree)]
      refine .inr ⟨mul_pos hsize hdegree, h.tabulate_certain ?_, h.tabulate_certain ?_⟩
      · exact h.baseShare_certain types direction hsize hdegree le_rfl
      · rw [hlabel, div_self hdegree.ne']
    | some s =>
      have hmeet : 0 < count / db.total / db.total := div_pos hdegree h.total_pos
      rw [htarget s rfl]
      simp only [Traversal.fromResult, hbound, if_neg (not_le.mpr hmeet), h.filter_labels]
      refine .inr ⟨mul_pos hsize hmeet, h.tabulate_certain ?_, h.tabulate_certain ?_⟩
      · exact h.baseShare_certain types direction hsize hmeet (div_le_self hdegree.le hone)
      · simp [Traversal.boundTargetShare, hlabel, h.nodes, div_self hmeet.ne', Scalar.least_rat]

end Steps

/-! ### Variables identified -/

section Merging

/-- Label by label, two matches agree in a node with the probability of any two nodes. -/
theorem mergeFactor_certain :
    mergeFactor db (certain L) (certain L) = 1 / db.total := by
  have hwalk : jointMass db (certain L) (certain L) =
      ⟨[⟨0, L, Vector.replicate 2 1⟩], Vector.replicate 2 0⟩ := by
    refine Walk.complete_of_certain h.groups rfl (fun i => ?_)
    rw [pairShare]
    split <;> exact LabelShares.of_certain_self L
  simp [mergeFactor, hwalk, h.nodes, h.total_pos, not_le.mpr h.total_pos]

/-- The only label covers the only group, and it is paired with itself. -/
theorem cover_certain : (Partition.Progress.start L).cover db [1] (certain L) (certain L) 0 L =
    ⟨1 / db.total, 1, [1], [∅]⟩ := by
  have hlive : ¬(1 : ℚ) ≤ 0 := not_le.mpr zero_lt_one
  have htotal : ¬db.total ≤ 0 := not_le.mpr h.total_pos
  have hself : Partition.conditional db 1 L L = 1 := by
    have hratio : db.total / db.total = 1 := div_self h.total_pos.ne'
    simp [Partition.conditional, h.nodes, htotal, hratio, Scalar.least_rat]
  have hfree : L ∈ (Partition.Progress.start L).free 0 := OrderedSet.mem_singleton.mpr rfl
  have hleft : (((Partition.Progress.start L).free 0).erase L).filter
      (fun m => !decide (m ∈ db.distribution.below L)) = ∅ := by
    refine OrderedSet.ext (fun m => ?_)
    simp [OrderedSet.mem_filter, OrderedSet.mem_erase, Partition.Progress.start,
      Partition.Progress.free, OrderedSet.mem_singleton]
  have hpaired : (Partition.Progress.start L).paired db [1] (certain L) 0 L 1 = 1 / db.total := by
    simp [Partition.Progress.paired, Partition.Progress.start, Partition.Progress.free,
      Partition.Progress.coverage, OrderedSet.singleton, hlive, h.nodes, htotal, hself]
  simp only [Partition.Progress.cover, hleft, hfree, if_true, LabelShares.of_certain_self,
    zero_lt_one, hpaired]
  simp [Partition.Progress.start, Partition.Progress.coverage, Partition.addAt]

/-- Group by group, it is the same probability. -/
theorem partitionFactor_certain :
    Partition.factor db (certain L) (certain L) = 1 / db.total := by
  have horder : sortByEvidence db (fun l => Scalar.greatest ((certain L).of l) ((certain L).of l))
      db.labels.toList = [L] := by
    rw [h.labels_eq]
    rfl
  have hsizes : Partition.sizes db = [1] := by simp [Partition.sizes, h.groups]
  have hfree : (Partition.Progress.start L).coverage 0 < 1 := zero_lt_one
  have hremaining : ¬(Partition.Progress.start L).remaining ≤ 0 := not_le.mpr zero_lt_one
  have hthrough : Partition.Progress.through db [1] (certain L) (certain L) [L]
      (Partition.Progress.start L) = ⟨1 / db.total, 0, [1], [∅]⟩ := by
    simp only [Partition.Progress.through, if_neg hremaining, h.groupOf?, if_pos hfree,
      h.cover_certain]
    simp [Partition.Progress.coverage, Scalar.least_rat]
  rw [Partition.Progress.start] at hthrough
  simp only [Partition.factor, horder, hsizes, h.groups, List.length_singleton, List.replicate_one,
    hthrough, zero_mul, add_zero]

/-- With at least one node, identified variables may both carry the label for certain. -/
theorem mergedShares_certain (hone : 1 ≤ db.total) :
    mergedShares (1 / db.total) (certain L) (certain L) = certain L := by
  have hfactor : ¬(1 / db.total : ℚ) = 0 := (one_div_pos.mpr h.total_pos).ne'
  have hshare : mergedShare (1 / db.total) 1 1 = 1 := by
    simp only [mergedShare, Scalar.least_rat, min_self, Bool.or_eq_true, beq_iff_eq, one_ne_zero,
      hfactor, or_self, if_false, one_div_one_div, Scalar.clampUnit_rat]
    rw [max_eq_right h.total_pos.le, min_eq_left hone]
  have hentries : (certain L).entries = [(L, 1)] := rfl
  simp only [mergedShares, hentries, List.foldl_cons, List.foldl_nil, LabelShares.of_certain_self,
    hshare, LabelShares.certain_insert]

theorem joinedShares_certain : joinedShares db (certain L) (certain L) = certain L :=
  h.tabulate_certain (by simp [joinedShare])

end Merging

end Database.Uniform

end PatternCardinality.Estimate
