import PatternCardinality.Proofs.Estimate.Extension

/-!
# Selections over numbers that extend the exact ones

A selection divides by a share only once it is known to be positive, and takes means only over
candidates that exist.
-/

namespace PatternCardinality

/-- The same condition with other numbers. -/
def Predicate.map {α β : Type} (f : α → β) : Predicate α → Predicate β
  | text s => .text s
  | range low high => .range (low.map f) (high.map f)

namespace Estimate

open Labels Statistics

section Maps

variable {α β : Type} (f : α → β)

def PropertyPredicates.map (predicates : PropertyPredicates α) : PropertyPredicates β :=
  predicates.mapValues (fun _ => Predicate.map f)

end Maps

variable {α : Type} [Scalar α] (ι : Extension α)

section Labels

variable (db : Database ℚ) (v : String) (p : Profile ℚ)

theorem scan_map : scan (db.map ι.of) v = Profile.carry ι.of (scan db v) := by
  have hshares : OrderedMap.tabulate
      (fun l => if 0 < ι.of db.total then ι.of (db.nodes l) / ι.of db.total else 0) db.labels =
        LabelShares.map ι.of (OrderedMap.tabulate
          (fun l => if 0 < db.total then db.nodes l / db.total else 0) db.labels) := by
    simp only [LabelShares.map_tabulate, ι.zero_lt_of, ι.ite_pos_div]
  simp only [scan, Database.total_map, Database.nodes_map, Database.labels_map]
  rw [hshares]
  exact Profile.make_map ι (OrderedMap.singleton v _) ∅ db.total true

theorem selectLabel_map (label : LabelId) :
    selectLabel (db.map ι.of) v label (p.map ι.of) =
      Profile.carry ι.of (selectLabel db v label p) := by
  rw [selectLabel, selectLabel, Profile.labels_map]
  refine Outcome.bimap_bind (fun shares => ?_)
  simp only [LabelShares.of_map, ι.of_le_zero]
  by_cases hnone : shares.of label ≤ 0
  · rw [if_pos hnone, if_pos hnone, ← ι.of_zero]
    exact Profile.make_map ι p.nodes p.relationships 0 false
  · have hnodes : (p.map ι.of).nodes.insert v (narrowed (db.map ι.of) (shares.map ι.of) label) =
        (p.nodes.insert v (narrowed db shares label)).mapValues (fun _ => LabelShares.map ι.of) := by
      rw [narrowed_map ι db shares (not_le.mp hnone).ne', OrderedMap.mapValues_insert]
      rfl
    have hsize : (p.map ι.of).size * ι.of (shares.of label) = ι.of (p.size * shares.of label) :=
      ι.of_mul _ _
    rw [if_neg hnone, if_neg hnone, hnodes, hsize]
    exact Profile.make_map ι _ p.relationships _ false

theorem selectTypes_map (allowed : TypeSet) :
    selectTypes (db.map ι.of) v allowed (p.map ι.of) =
      Profile.carry ι.of (selectTypes db v allowed p) := by
  have htypes : (p.map ι.of).types? v = p.types? v := rfl
  rw [selectTypes, selectTypes, htypes]
  cases p.types? v with
  | none => rfl
  | some old =>
    have hsize : ∀ ratio, (p.map ι.of).size * ι.of ratio = ι.of (p.size * ratio) := ι.of_mul p.size
    simp only [Database.relationships_map, ι.zero_lt_of, ι.ite_pos_div, hsize]
    exact Profile.make_map ι p.nodes _ _ false

end Labels

section Means

variable {selectivity : Int32 → ℚ} {candidates : List Int32}

theorem meanSelectivity_map (hcandidates : candidates ≠ []) :
    meanSelectivity (fun c => ι.of (selectivity c)) candidates =
      ι.of (meanSelectivity selectivity candidates) := by
  have hlength : ((candidates.length : Nat) : ℚ) ≠ 0 :=
    Nat.cast_ne_zero.mpr (List.length_pos_iff.mpr hcandidates).ne'
  have hsum := ι.foldl_add_of (candidates.map selectivity) 0
  rw [List.map_map, ι.of_zero] at hsum
  rw [meanSelectivity, meanSelectivity, ι.of_natCast, ← ι.of_div _ _ hlength, ← hsum]
  rfl

/-- The least of numbers is a number. -/
theorem exists_foldl_least (means : List ℚ) (x : ℚ) :
    ∃ y, means.foldl (fun b m => b.least (Scalar.toBound m)) (Bound.number x) = Bound.number y := by
  induction means generalizing x with
  | nil => exact ⟨x, rfl⟩
  | cons m means ih =>
    have hleast : ∃ y, (Bound.number x).least (Scalar.toBound m) = .number y := by
      rw [Bound.least]
      split
      · exact ⟨x, rfl⟩
      · exact ⟨m, rfl⟩
    obtain ⟨y, hy⟩ := hleast
    rw [List.foldl_cons, hy]
    exact ih y

theorem ofBound_foldl_least {means : List ℚ} (hmeans : means ≠ []) :
    Scalar.ofBound ((means.map ι.of).foldl (fun b m => b.least (Scalar.toBound m)) Bound.highest) =
      ι.of (Scalar.ofBound
        (means.foldl (fun b m => b.least (Scalar.toBound m)) Bound.highest)) := by
  have hstep : ∀ (b : Bound ℚ) (m : ℚ),
      (b.map ι.of).least (Scalar.toBound (ι.of m)) = (b.least (Scalar.toBound m)).map ι.of :=
    fun b m => by rw [ι.of_toBound]; exact ι.least_map b (.number m)
  have hfold : ∀ b : Bound ℚ,
      (means.map ι.of).foldl (fun b m => b.least (Scalar.toBound m)) (b.map ι.of) =
        (means.foldl (fun b m => b.least (Scalar.toBound m)) b).map ι.of := by
    intro b
    rw [List.foldl_map]
    exact List.foldl_hom (Bound.map ι.of) hstep
  obtain ⟨m, rest, rfl⟩ := List.exists_cons_of_ne_nil hmeans
  have hfirst : Bound.highest.least (Scalar.toBound m) = Bound.number m := by
    simp [Bound.least, Bound.lt, Bound.isNaN, Scalar.toBound]
  obtain ⟨y, hy⟩ := exists_foldl_least rest m
  refine (congrArg Scalar.ofBound (hfold .highest)).trans ?_
  rw [List.foldl_cons, hfirst, hy]
  exact ι.of_ofBound y

/-- With a candidate and a predicate there is a mean, and the least of the means is a number. -/
theorem combinedSelectivity_map {predicates : PropertyPredicates ℚ}
    (hcandidates : candidates ≠ []) (hpredicates : predicates.isEmpty = false)
    {selectivity : Int32 → PropertyId → Predicate ℚ → ℚ}
    {selectivity' : Int32 → PropertyId → Predicate α → α}
    (h : ∀ c k predicate, selectivity' c k (predicate.map ι.of) = ι.of (selectivity c k predicate)) :
    combinedSelectivity candidates (predicates.map ι.of) selectivity' =
      Prod.map ι.of id (combinedSelectivity candidates predicates selectivity) := by
  have hentries : (predicates.map ι.of).entries =
      predicates.entries.map (fun e => (e.1, e.2.map ι.of)) := rfl
  have hmeans : (predicates.map ι.of).entries.map
      (fun e => meanSelectivity (fun c => selectivity' c e.1 e.2) candidates) =
        (predicates.entries.map
          (fun e => meanSelectivity (fun c => selectivity c e.1 e.2) candidates)).map ι.of := by
    rw [hentries, List.map_map, List.map_map]
    refine List.map_congr_left (fun e _ => ?_)
    simp only [Function.comp_apply, h, meanSelectivity_map ι hcandidates]
  have hselected : ∀ c, (predicates.map ι.of).entries.any
      (fun e => decide (0 < selectivity' c e.1 e.2)) =
        predicates.entries.any (fun e => decide (0 < selectivity c e.1 e.2)) := by
    intro c
    simp only [hentries, List.any_map, Function.comp_def, h, ι.zero_lt_of]
  have hnonempty : predicates.entries.map
      (fun e => meanSelectivity (fun c => selectivity c e.1 e.2) candidates) ≠ [] := by
    rw [ne_eq, List.map_eq_nil_iff]
    intro hempty
    simp [OrderedMap.isEmpty, hempty] at hpredicates
  simp only [combinedSelectivity, hmeans, hselected, ofBound_foldl_least ι hnonempty]
  rfl

theorem size_predicates_map (predicates : PropertyPredicates ℚ) :
    (predicates.map ι.of).size = predicates.size := List.length_map ..

theorem defaultSelectivity_map : (defaultSelectivity : α) = ι.of defaultSelectivity := by
  rw [defaultSelectivity, ι.of_natCast, ι.one_div_of (by norm_num)]
  rfl

end Means

section Properties

variable [NumberHash α] [NumberHash ℚ]
  (hhash : ∀ b : Bound ℚ, NumberHash.hash (b.map ι.of) = NumberHash.hash b)

include hhash

theorem predicateSelectivity_map {point : Option Int32 → ℚ} {range : Bound ℚ → Bound ℚ → ℚ}
    {range' : Bound α → Bound α → α}
    (hrange : ∀ b c, range' (b.map ι.of) (c.map ι.of) = ι.of (range b c)) (predicate : Predicate ℚ) :
    predicateSelectivity (fun h => ι.of (point h)) range' (predicate.map ι.of) =
      ι.of (predicateSelectivity point range predicate) := by
  have hvalue : (predicate.map ι.of).valueHash? = predicate.valueHash? := by
    cases predicate with
    | text s => rfl
    | range low high => simp only [Predicate.map, Predicate.valueHash?, ι.eq_map, hhash]
  cases predicate with
  | text s => rfl
  | range low high =>
    simp only [predicateSelectivity, ← hvalue]
    simp only [Predicate.map, ι.eq_map, hrange, ι.ite_of]

theorem nodeSelectivity_map (db : Database ℚ) (l : LabelId) (k : PropertyId)
    (predicate : Predicate ℚ) :
    nodeSelectivity (db.map ι.of) l k (predicate.map ι.of) =
      ι.of (nodeSelectivity db l k predicate) := by
  have hpoint : (db.map ι.of).view.nodeSelectivity l k =
      fun h => ι.of (db.view.nodeSelectivity l k h) := funext (db.view.nodeSelectivity_map ι l k)
  rw [nodeSelectivity, nodeSelectivity, hpoint]
  exact predicateSelectivity_map ι hhash (db.view.nodeRangeSelectivity_map ι l k) predicate

theorem relationshipSelectivity_map (db : Database ℚ) (t : TypeId) (k : PropertyId)
    (predicate : Predicate ℚ) :
    relationshipSelectivity (db.map ι.of) t k (predicate.map ι.of) =
      ι.of (relationshipSelectivity db t k predicate) := by
  have hpoint : (db.map ι.of).view.relationshipSelectivity t k =
      fun h => ι.of (db.view.relationshipSelectivity t k h) :=
    funext (db.view.relationshipSelectivity_map ι t k)
  rw [relationshipSelectivity, relationshipSelectivity, hpoint]
  exact predicateSelectivity_map ι hhash (db.view.relationshipRangeSelectivity_map ι t k) predicate

theorem nodeReduction_map (db : Database ℚ) (shares : LabelShares ℚ)
    {predicates : PropertyPredicates ℚ} (hpredicates : predicates.isEmpty = false)
    (fixed : Option ℚ) :
    nodeReduction (db.map ι.of) (shares.map ι.of) (predicates.map ι.of) (fixed.map ι.of) =
      Prod.map ι.of id (nodeReduction db shares predicates fixed) := by
  have hcandidates : ((shares.map ι.of).filter (fun _ s => decide (0 < s))).keys =
      (shares.filter (fun _ s => decide (0 < s))).keys := by
    simp only [OrderedMap.keys, OrderedMap.filter, LabelShares.map, OrderedMap.mapValues,
      List.filter_map, List.map_map, Function.comp_def, ι.zero_lt_of]
  simp only [nodeReduction, hcandidates, size_predicates_map]
  by_cases hempty : (shares.filter (fun _ s => decide (0 < s))).keys.isEmpty = true
  · rw [if_pos hempty, if_pos hempty, defaultSelectivity_map ι, ι.power_of]
    rfl
  · rw [if_neg hempty, if_neg hempty]
    cases fixed with
    | some s => exact congrArg (·, ∅) (ι.power_of s _)
    | none =>
      have hne : (shares.filter (fun _ s => decide (0 < s))).keys ≠ [] := by
        rintro hnil
        simp [hnil] at hempty
      exact combinedSelectivity_map ι hne hpredicates (nodeSelectivity_map ι hhash db)

theorem selectNodes_map (db : Database ℚ) (v : String) {predicates : PropertyPredicates ℚ}
    (hpredicates : predicates.isEmpty = false) (fixed : Option ℚ) (shares : LabelShares ℚ)
    (p : Profile ℚ) :
    selectNodes (db.map ι.of) v (predicates.map ι.of) (fixed.map ι.of) (shares.map ι.of)
        (p.map ι.of) =
      Profile.carry ι.of (selectNodes db v predicates fixed shares p) := by
  rw [selectNodes, selectNodes, nodeReduction_map ι hhash db shares hpredicates fixed]
  obtain ⟨selectivity, kept⟩ := nodeReduction db shares predicates fixed
  have hsize : (p.map ι.of).size * ι.of selectivity = ι.of (p.size * selectivity) := ι.of_mul _ _
  simp only [Prod.map_apply, id_eq, hsize, ι.zero_lt_of]
  by_cases hpos : 0 < selectivity
  · have hrescaled : (shares.map ι.of).mapValues
        (fun l s => if l ∈ kept then Scalar.least (s / ι.of selectivity) 1 else 0) =
          LabelShares.map ι.of (shares.mapValues
            (fun l s => if l ∈ kept then Scalar.least (s / selectivity) 1 else 0)) := by
      refine OrderedMap.eq_of_entries ?_
      simp only [LabelShares.map, OrderedMap.mapValues, List.map_map, Function.comp_def,
        ι.of_div _ _ hpos.ne', ι.least_one, ι.ite_of_zero]
    rw [if_pos hpos, if_pos hpos, hrescaled]
    exact (congrArg (fun nodes => Profile.make nodes _ _ _)
      (OrderedMap.mapValues_insert (LabelShares.map ι.of) p.nodes v _).symm).trans
        (Profile.make_map ι _ p.relationships _ false)
  · rw [if_neg hpos, if_neg hpos]
    exact Profile.make_map ι p.nodes p.relationships _ false

theorem selectRelationships_map (db : Database ℚ) (v : String) {predicates : PropertyPredicates ℚ}
    (hpredicates : predicates.isEmpty = false) (fixed : Option ℚ) (types : TypeSet)
    (p : Profile ℚ) :
    selectRelationships (db.map ι.of) v (predicates.map ι.of) (fixed.map ι.of) types (p.map ι.of) =
      Profile.carry ι.of (selectRelationships db v predicates fixed types p) := by
  have hsize : ∀ s, (p.map ι.of).size * ι.of s = ι.of (p.size * s) := ι.of_mul p.size
  simp only [selectRelationships]
  by_cases hempty : types.isEmpty = true
  · rw [if_pos hempty, if_pos hempty]
    rfl
  · rw [if_neg hempty, if_neg hempty]
    cases fixed with
    | some s =>
      simp only [Option.map_some, size_predicates_map, ι.power_of, hsize]
      exact Profile.make_map ι p.nodes _ _ false
    | none =>
      have hne : types.toList ≠ [] := by
        intro hnil
        simp [OrderedSet.isEmpty, hnil] at hempty
      simp only [Option.map_none,
        combinedSelectivity_map ι hne hpredicates (relationshipSelectivity_map ι hhash db),
        Prod.map_fst, Prod.map_snd, id_eq, hsize]
      exact Profile.make_map ι p.nodes _ _ false

theorem selectProperties_map (db : Database ℚ) (v : String) (predicates : PropertyPredicates ℚ)
    (fixed : Option ℚ) (p : Profile ℚ) :
    selectProperties (db.map ι.of) v (predicates.map ι.of) (fixed.map ι.of) (p.map ι.of) =
      Profile.carry ι.of (selectProperties db v predicates fixed p) := by
  have hisEmpty : (predicates.map ι.of).isEmpty = predicates.isEmpty := List.isEmpty_map ..
  have hshares : (p.map ι.of).nodes.get? v = (p.nodes.get? v).map (LabelShares.map ι.of) :=
    OrderedMap.get?_mapValues
  have htypes : (p.map ι.of).types? v = p.types? v := rfl
  rw [selectProperties, selectProperties, hisEmpty, hshares, htypes]
  by_cases hempty : predicates.isEmpty = true
  · rw [if_pos hempty, if_pos hempty]
    rfl
  · have hpredicates : predicates.isEmpty = false := Bool.eq_false_iff.mpr hempty
    rw [if_neg hempty, if_neg hempty]
    cases p.nodes.get? v with
    | some shares => exact selectNodes_map ι hhash db v hpredicates fixed shares p
    | none =>
      cases p.types? v with
      | some types => exact selectRelationships_map ι hhash db v hpredicates fixed types p
      | none => rfl

end Properties

end Estimate

end PatternCardinality
