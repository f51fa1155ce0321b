import PatternCardinality.Proofs.Estimate.Extension

/-!
# Joins over numbers that extend the exact ones

A join divides by counts of nodes that are positive, by the factor of a merge where it is not zero,
and by sums of shares that are positive.
-/

namespace PatternCardinality.Estimate

open Labels Statistics

variable {α : Type} [Scalar α] (ι : Extension α) (db : Database ℚ)

section Joined

theorem joinedShares_map (left right : LabelShares ℚ) :
    joinedShares (db.map ι.of) (left.map ι.of) (right.map ι.of) =
      (joinedShares db left right).map ι.of := by
  rw [joinedShares, joinedShares, LabelShares.map_tabulate]
  refine OrderedMap.tabulate_congr (fun l _ => ?_)
  simp only [joinedShare, LabelShares.of_map, ι.one_sub_of, ι.of_mul, ι.of_add]

theorem joinedNodes_map (left right : OrderedMap String (LabelShares ℚ)) :
    joinedNodes (db.map ι.of) (left.mapValues (fun _ => LabelShares.map ι.of))
        (right.mapValues (fun _ => LabelShares.map ι.of)) =
      Prod.map (OrderedMap.mapValues (fun _ => LabelShares.map ι.of)) id
        (joinedNodes db left right) := by
  let carry : OrderedMap String (LabelShares ℚ) × Nat → OrderedMap String (LabelShares α) × Nat :=
    Prod.map (OrderedMap.mapValues (fun _ => LabelShares.map ι.of)) id
  have hentries : (right.mapValues (fun _ => LabelShares.map ι.of)).entries =
      right.entries.map (fun e => (e.1, e.2.map ι.of)) := rfl
  have hstart : (left.mapValues (fun _ => LabelShares.map ι.of), 0) = carry (left, 0) := rfl
  rw [joinedNodes, joinedNodes, hentries, List.foldl_map, hstart]
  refine List.foldl_hom carry ?_
  rintro ⟨nodes, shared⟩ ⟨v, shares⟩
  simp only [carry, Prod.map_apply, id_eq, OrderedMap.get?_mapValues]
  cases left.get? v with
  | none => simp only [Option.map_none, Prod.map_apply, id_eq, OrderedMap.mapValues_insert]
  | some known =>
    simp only [Option.map_some, Prod.map_apply, id_eq, OrderedMap.mapValues_insert,
      joinedShares_map]

theorem matchProbability_map (shared : Nat) :
    matchProbability (db.map ι.of) shared = ι.of (matchProbability db shared) := by
  simp only [matchProbability, Database.total_map, ι.zero_lt_of, ι.of_natCast]
  by_cases hshared : shared = 0
  · rw [if_pos hshared, if_pos hshared, ι.of_one]
  · rw [if_neg hshared, if_neg hshared, ι.ite_pos_div]

theorem join_map (left right : Profile ℚ) :
    join (db.map ι.of) (left.map ι.of) (right.map ι.of) =
      Profile.carry ι.of (join db left right) := by
  have hjoined := joinedNodes_map ι db left.nodes right.nodes
  simp only [join, Profile.map, hjoined, Prod.map_fst, Prod.map_snd, id_eq, matchProbability_map,
    ι.of_mul]
  exact Profile.make_map ι _ _ _ false

end Joined

section Evidence

theorem sortByJointEvidence_map (staying leaving : LabelShares ℚ) (labels : List LabelId) :
    sortByEvidence (db.map ι.of)
        (fun l => Scalar.greatest ((staying.map ι.of).of l) ((leaving.map ι.of).of l)) labels =
      sortByEvidence db (fun l => Scalar.greatest (staying.of l) (leaving.of l)) labels := by
  simp only [LabelShares.of_map, ι.greatest_of]
  exact sortByEvidence_map ι db _ labels

end Evidence

section Merged

theorem jointMass_map (staying leaving : LabelShares ℚ) :
    jointMass (db.map ι.of) (staying.map ι.of) (leaving.map ι.of) =
      (jointMass db staying leaving).map ι.of := by
  have hpair : pairShare (staying.map ι.of) (leaving.map ι.of) =
      fun i l => ι.of (pairShare staying leaving i l) := by
    funext i l
    simp only [pairShare]
    split
    · exact staying.of_map ι l
    · exact leaving.of_map ι l
  simp only [jointMass, hpair, sortByJointEvidence_map]
  exact Walk.complete_map ι db.distribution (pairShare staying leaving) _

theorem mergeFactor_map (staying leaving : LabelShares ℚ) :
    mergeFactor (db.map ι.of) (staying.map ι.of) (leaving.map ι.of) =
      ι.of (mergeFactor db staying leaving) := by
  have hstep : ∀ (factor : ℚ) (v : Visit ℚ 2),
      (if (db.map ι.of).nodes v.label ≤ 0 then ι.of factor
        else ι.of factor +
          (v.mass.map ι.of)[0] * (v.mass.map ι.of)[1] / (db.map ι.of).nodes v.label) =
      ι.of (if db.nodes v.label ≤ 0 then factor
        else factor + v.mass[0] * v.mass[1] / db.nodes v.label) := by
    intro factor v
    simp only [Database.nodes_map, ι.of_le_zero, Vector.getElem_map, ι.of_mul]
    by_cases hnone : db.nodes v.label ≤ 0
    · rw [if_pos hnone, if_pos hnone]
    · rw [if_neg hnone, if_neg hnone, ι.of_div _ _ (not_le.mp hnone).ne', ι.of_add]
  have hknown : ∀ (visits : List (Visit ℚ 2)) (factor : ℚ),
      (visits.map (Visit.map ι.of)).foldl (fun factor v =>
        if (db.map ι.of).nodes v.label ≤ 0 then factor
        else factor + v.mass[0] * v.mass[1] / (db.map ι.of).nodes v.label) (ι.of factor) =
      ι.of (visits.foldl (fun factor v => if db.nodes v.label ≤ 0 then factor
        else factor + v.mass[0] * v.mass[1] / db.nodes v.label) factor) := by
    intro visits factor
    rw [List.foldl_map]
    exact List.foldl_hom ι.of hstep
  have htotal := hknown (jointMass db staying leaving).visits 0
  rw [ι.of_zero] at htotal
  simp only [mergeFactor, jointMass_map, Walk.map, htotal, Database.total_map, ι.zero_lt_of,
    Vector.getElem_map, ι.of_mul, ι.ite_pos_add_div]

theorem mergedShare_map (factor s t : ℚ) :
    mergedShare (ι.of factor) (ι.of s) (ι.of t) = ι.of (mergedShare factor s t) := by
  simp only [mergedShare, ι.least_of, ι.of_beq_zero]
  by_cases hzero : (Scalar.least s t == 0 || factor == 0) = true
  · rw [if_pos hzero, if_pos hzero, ι.of_zero]
  · have hfactor : factor ≠ 0 := by
      rintro rfl
      simp at hzero
    rw [if_neg hzero, if_neg hzero, ι.of_div _ _ hfactor, ι.clampUnit_of]

theorem mergedShares_map (factor : ℚ) (staying leaving : LabelShares ℚ) :
    mergedShares (ι.of factor) (staying.map ι.of) (leaving.map ι.of) =
      (mergedShares factor staying leaving).map ι.of :=
  OrderedMap.mapValues_foldl_entries ι.of ι.of (fun _ _ => by
    rw [LabelShares.of_map, mergedShare_map])

theorem smallerShares_map (staying leaving : LabelShares ℚ) :
    smallerShares (staying.map ι.of) (leaving.map ι.of) =
      (smallerShares staying leaving).map ι.of := by
  refine OrderedMap.mapValues_foldl_entries ι.of ι.of (fun m e => ?_)
  rw [OrderedMap.get?_mapValues]
  cases m.get? e.1 with
  | none => rfl
  | some t => exact ι.least_of t e.2

theorem identified_map (p : Profile ℚ) (staying leaving : String) (shares : LabelShares ℚ)
    (factor : ℚ) :
    identified (p.map ι.of) staying leaving (shares.map ι.of) (ι.of factor) =
      Profile.carry ι.of (identified p staying leaving shares factor) := by
  have hnodes : ((p.map ι.of).nodes.erase leaving).insert staying (shares.map ι.of) =
      ((p.nodes.erase leaving).insert staying shares).mapValues (fun _ => LabelShares.map ι.of) := by
    rw [OrderedMap.mapValues_insert, OrderedMap.mapValues_erase]
    rfl
  have hsize : (p.map ι.of).size * ι.of factor = ι.of (p.size * factor) := ι.of_mul _ _
  rw [identified, identified, hnodes, hsize]
  exact Profile.make_map ι _ p.relationships _ false

theorem mergeOn_map (staying leaving : String) (p : Profile ℚ) :
    mergeOn (db.map ι.of) staying leaving (p.map ι.of) =
      Profile.carry ι.of (mergeOn db staying leaving p) := by
  rw [mergeOn, mergeOn]
  split
  · rfl
  · rw [Profile.labels_map, Profile.labels_map]
    refine Outcome.bimap_bind (fun s => Outcome.bimap_bind (fun l => ?_))
    simp only [mergeFactor_map, mergedShares_map]
    exact identified_map ι p staying leaving _ _

end Merged

namespace Partition

theorem nodeShare_map (l : LabelId) : nodeShare (db.map ι.of) l = ι.of (nodeShare db l) := by
  simp only [nodeShare, Database.total_map, Database.nodes_map, ι.zero_lt_of, ι.ite_pos_div]

theorem getD_map (xs : List ℚ) (i : Nat) : (xs.map ι.of).getD i 0 = ι.of (xs.getD i 0) := by
  rw [← ι.of_zero, List.getD_map]

theorem addAt_map (xs : List ℚ) (i : Nat) (x : ℚ) :
    addAt (xs.map ι.of) i (ι.of x) = (addAt xs i x).map ι.of := by
  rw [addAt, addAt, getD_map, ι.of_add, List.map_set]

theorem fill_map (labels : List LabelId) (processed : OrderedSet LabelId) (sizes : List ℚ)
    (remaining : ℚ) :
    fill (db.map ι.of) labels processed (sizes.map ι.of) (ι.of remaining) =
      (fill db labels processed sizes remaining).map ι.of := by
  induction labels generalizing processed sizes remaining with
  | nil => rfl
  | cons l labels ih =>
    simp only [fill, Database.distribution_map]
    by_cases hprocessed : l ∈ processed
    · rw [if_pos hprocessed, if_pos hprocessed, ih]
    · rw [if_neg hprocessed, if_neg hprocessed]
      cases db.distribution.groupOf? l with
      | none => exact ih _ _ _
      | some group =>
        simp only [nodeShare_map, ι.of_mul, ι.of_sub, ι.of_le_zero, addAt_map, ih]
        split <;> rfl

theorem sizes_map : sizes (db.map ι.of) = (sizes db).map ι.of := by
  have hshare : nodeShare (db.map ι.of) = fun l => ι.of (nodeShare db l) :=
    funext (nodeShare_map ι db)
  simp only [sizes, hshare, sortByEvidence_map, Database.distribution_map, Database.labels_map]
  by_cases hfew : db.distribution.groups.length < 2
  · rw [if_pos hfew, if_pos hfew, List.map_replicate, ι.of_one]
  · have hfill := fill_map ι db (sortByEvidence db (nodeShare db) db.labels.toList) ∅
      (List.replicate db.distribution.groups.length 0) 1
    rw [List.map_replicate, ι.of_zero, ι.of_one] at hfill
    simp only [if_neg hfew, hfill, ι.sum_of, ι.zero_lt_of]
    split
    · next hpos =>
      rw [List.map_map, List.map_map]
      exact List.map_congr_left (fun x _ => ι.of_div x _ hpos.ne')
    · rfl

theorem conditional_map (size : ℚ) (given label : LabelId) :
    conditional (db.map ι.of) (ι.of size) given label = ι.of (conditional db size given label) := by
  simp only [conditional, Database.distribution_map, Database.nodes_map, Database.total_map,
    ι.of_le_zero]
  by_cases hbelow : db.distribution.isBelow label given = true
  · rw [if_pos hbelow, if_pos hbelow]
    by_cases hnone : db.nodes given ≤ 0
    · rw [if_pos hnone, if_pos hnone, ι.of_zero]
    · rw [if_neg hnone, if_neg hnone, ι.of_div _ _ (not_le.mp hnone).ne', ι.least_one]
  · rw [if_neg hbelow, if_neg hbelow]
    by_cases habove : (decide (label = given) || db.distribution.isBelow given label) = true
    · rw [if_pos habove, if_pos habove, ι.of_one]
    · rw [if_neg habove, if_neg habove]
      by_cases htotal : db.total ≤ 0
      · rw [if_pos htotal, if_pos htotal, ι.of_zero]
      · rw [if_neg htotal, if_neg htotal, ι.of_div _ _ (not_le.mp htotal).ne']
        by_cases hsize : size ≤ 0
        · rw [if_pos hsize, if_pos hsize]
        · rw [if_neg hsize, if_neg hsize, ι.of_div _ _ (not_le.mp hsize).ne', ι.least_one]

namespace Progress

/-- The same progress with other numbers. -/
def map {β : Type} (f : ℚ → β) (s : Progress ℚ) : Progress β :=
  ⟨f s.factor, f s.remaining, s.covered.map f, s.uncovered⟩

variable (sizes : List ℚ) (staying leaving : LabelShares ℚ)

@[simp] theorem coverage_map (s : Progress ℚ) (group : Nat) :
    (s.map ι.of).coverage group = ι.of (s.coverage group) := getD_map ι s.covered group

theorem paired_map (group : Nat) (l : LabelId) (share : ℚ) (s : Progress ℚ) :
    (s.map ι.of).paired (db.map ι.of) (sizes.map ι.of) (leaving.map ι.of) group l (ι.of share) =
      ι.of (s.paired db sizes leaving group l share) := by
  refine List.foldl_hom ι.of (fun factor m => ?_)
  simp only [Database.nodes_map, LabelShares.of_map, ι.of_le_zero, coverage_map, getD_map,
    conditional_map, ι.one_sub_of, ι.of_mul]
  by_cases hnone : (decide (leaving.of m ≤ 0) || decide (db.nodes m ≤ 0)) = true
  · rw [if_pos hnone, if_pos hnone]
  · have hnodes : db.nodes m ≠ 0 := by
      intro hzero
      simp [hzero] at hnone
    rw [if_neg hnone, if_neg hnone, ι.of_div _ _ hnodes, ι.of_add]

theorem cover_map (group : Nat) (l : LabelId) (s : Progress ℚ) :
    (s.map ι.of).cover (db.map ι.of) (sizes.map ι.of) (staying.map ι.of) (leaving.map ι.of) group
        l =
      (s.cover db sizes staying leaving group l).map ι.of := by
  have hfree : (s.map ι.of).free group = s.free group := rfl
  simp only [cover, LabelShares.of_map, Database.distribution_map, ι.zero_lt_of, paired_map,
    coverage_map, ι.one_sub_of, ι.of_mul, hfree]
  by_cases hl : l ∈ s.free group
  · rw [if_pos hl, if_pos hl]
    simp only [map, addAt_map, ι.ite_of]
    rfl
  · rw [if_neg hl, if_neg hl]
    rfl

theorem through_map (labels : List LabelId) (s : Progress ℚ) :
    through (db.map ι.of) (sizes.map ι.of) (staying.map ι.of) (leaving.map ι.of) labels
        (s.map ι.of) =
      (through db sizes staying leaving labels s).map ι.of := by
  induction labels generalizing s with
  | nil => rfl
  | cons l labels ih =>
    have hremaining : (s.map ι.of).remaining = ι.of s.remaining := rfl
    simp only [through, hremaining, ι.of_le_zero, Database.distribution_map]
    by_cases hdone : s.remaining ≤ 0
    · rw [if_pos hdone, if_pos hdone]
    · rw [if_neg hdone, if_neg hdone]
      cases db.distribution.groupOf? l with
      | none => exact ih s
      | some group =>
        have hcovered : (if (s.map ι.of).coverage group < 1 then (s.map ι.of).cover (db.map ι.of)
              (sizes.map ι.of) (staying.map ι.of) (leaving.map ι.of) group l
            else s.map ι.of) =
            (if s.coverage group < 1 then s.cover db sizes staying leaving group l else s).map
              ι.of := by
          simp only [coverage_map, ι.of_lt_one, cover_map]
          exact (apply_ite (map ι.of) _ _ _).symm
        have hserved : ∀ r : Progress ℚ,
            ι.of r.remaining - Scalar.least (ι.of r.remaining) ((r.map ι.of).coverage group) =
              ι.of (r.remaining - Scalar.least r.remaining (r.coverage group)) := by
          intro r
          rw [coverage_map, ι.least_of, ι.of_sub]
        simp only [hcovered, ← ih]
        exact congrArg (fun x => through _ _ _ _ labels { map ι.of _ with remaining := x }) (hserved _)

end Progress

theorem factor_map (staying leaving : LabelShares ℚ) :
    factor (db.map ι.of) (staying.map ι.of) (leaving.map ι.of) =
      ι.of (factor db staying leaving) := by
  have hstart : (⟨0, 1, List.replicate db.distribution.groups.length 0, db.distribution.groups⟩ :
      Progress α) = Progress.map ι.of
        ⟨0, 1, List.replicate db.distribution.groups.length 0, db.distribution.groups⟩ := by
    simp [Progress.map, ι.of_zero, ι.of_one]
  simp only [factor, sortByJointEvidence_map, sizes_map, Database.distribution_map,
    Database.labels_map, hstart, Progress.through_map, Database.total_map]
  simp [Progress.map]

end Partition

theorem selfJoin_map (staying leaving : String) (p : Profile ℚ) :
    selfJoin (db.map ι.of) staying leaving (p.map ι.of) =
      Profile.carry ι.of (selfJoin db staying leaving p) := by
  rw [selfJoin, selfJoin]
  split
  · rfl
  · rw [Profile.labels_map, Profile.labels_map]
    refine Outcome.bimap_bind (fun s => Outcome.bimap_bind (fun l => ?_))
    simp only [Partition.factor_map, smallerShares_map]
    exact identified_map ι p staying leaving _ _

end PatternCardinality.Estimate
