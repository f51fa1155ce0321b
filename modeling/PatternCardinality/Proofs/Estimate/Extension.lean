import PatternCardinality.Estimate.Operator
import PatternCardinality.Proofs.Ordered.Sorting
import PatternCardinality.Proofs.Outcome
import PatternCardinality.Proofs.Statistics.Extension

/-!
# Estimates over numbers that extend the exact ones

Selections, traversals and joins of exact results come out as exact ones, whatever a quotient by
zero is: each of them tells a count or a share of zero apart before it divides by it.
-/

namespace PatternCardinality

section Failures

variable {α β : Type} (f : α → β)

def SettingsFault.map : SettingsFault α → SettingsFault β
  | unknownVariant name => .unknownVariant name
  | unknownStrategy name => .unknownStrategy name
  | selectivity s => .selectivity (f s)
  | wrongHeader path first second => .wrongHeader path first second
  | badGroup text => .badGroup text

def PredicateFault.map : PredicateFault α → PredicateFault β
  | brokenRange low high => .brokenRange (low.map f) (high.map f)
  | unknownComparison op => .unknownComparison op
  | differentValues first second => .differentValues first second
  | mixedKinds => .mixedKinds
  | expectedPoint owner => .expectedPoint owner
  | expectedEquals property => .expectedEquals property
  | badNumber literal owner property => .badNumber literal owner property
  | expectedComma rest => .expectedComma rest
  | expectedQuote rest => .expectedQuote rest
  | unterminatedName rest => .unterminatedName rest
  | unterminatedText rest => .unterminatedText rest

/-- The same failure with other numbers. -/
def Failure.map : Failure α → Failure β
  | sharedLabel label first second => .sharedLabel label first second
  | unknownLabels names => .unknownLabels names
  | unknownType name => .unknownType name
  | unknownProperty name => .unknownProperty name
  | badStatistics line fault => .badStatistics line fault
  | badSettings fault => .badSettings (fault.map f)
  | unreadableFile fault => .unreadableFile fault
  | badTable fault => .badTable fault
  | badJson => .badJson
  | unboundVariable name => .unboundVariable name
  | boundVariable name => .boundVariable name
  | overlappingVariables names => .overlappingVariables names
  | sameVariable name => .sameVariable name
  | emptyTypes name => .emptyTypes name
  | wrongArity operator expected actual => .wrongArity operator expected actual
  | emptyPredicates name => .emptyPredicates name
  | badPattern fault => .badPattern fault
  | badPredicate fault => .badPredicate (fault.map f)

end Failures

namespace Estimate

open Labels Statistics

section Maps

variable {α β : Type} (f : α → β)

/-- The same data with other numbers. -/
def Database.map (db : Database α) : Database β := ⟨db.view.map f, db.distribution⟩

def LabelShares.map (shares : LabelShares α) : LabelShares β := shares.mapValues (fun _ => f)

/-- The same result with other numbers. -/
def Profile.map (p : Profile α) : Profile β :=
  ⟨p.nodes.mapValues (fun _ => LabelShares.map f), p.relationships, f p.size, p.initial⟩

/-- The same outcome with other numbers. -/
def Profile.carry : Except (Failure α) (Profile α) → Except (Failure β) (Profile β) :=
  Outcome.bimap (Failure.map f) (Profile.map f)

def Visit.map {n : Nat} (v : Visit α n) : Visit β n := ⟨v.group, v.label, v.mass.map f⟩

def Walk.map {n : Nat} (w : Walk α n) : Walk β n := ⟨w.visits.map (Visit.map f), w.rest.map f⟩

end Maps

variable {α : Type} [Scalar α] (ι : Extension α)

namespace Database

variable (db : Database ℚ)

@[simp] theorem distribution_map : (db.map ι.of).distribution = db.distribution := rfl

@[simp] theorem labels_map : (db.map ι.of).labels = db.labels := rfl

@[simp] theorem nodes_map (l : LabelId) : (db.map ι.of).nodes l = ι.of (db.nodes l) :=
  db.view.nodes_map ι l

@[simp] theorem total_map : (db.map ι.of).total = ι.of db.total := db.view.nodes_map ι anyLabel

@[simp] theorem relationships_map (b : LabelId) (types : OrderedSet TypeId) (w : LabelId)
    (direction : Direction) :
    (db.map ι.of).relationships b types w direction =
      ι.of (db.relationships b types w direction) := by
  simp only [relationships, map, View.relationships_map, ι.sum_map]

@[simp] theorem averageDegree_map (b : LabelId) (types : OrderedSet TypeId) (w : LabelId)
    (direction : Direction) :
    (db.map ι.of).averageDegree b types w direction =
      ι.of (db.averageDegree b types w direction) := by
  simp only [averageDegree, nodes_map, relationships_map, ι.of_le_zero, ι.ite_nonpos_div]

@[simp] theorem density_map (share : ℚ) (l : LabelId) :
    (db.map ι.of).density (ι.of share) l = ι.of (db.density share l) := by
  simp only [density, nodes_map, ι.zero_lt_of, ι.ite_pos_div]

end Database

section Sorting

variable (db : Database ℚ)

/-- The order of labels is that of the exact evidence. -/
theorem sortByEvidence_map (share : LabelId → ℚ) (labels : List LabelId) :
    sortByEvidence (db.map ι.of) (fun l => ι.of (share l)) labels =
      sortByEvidence db share labels := by
  let carry (e : Evidence ℚ) : Evidence α := ⟨e.label, ι.of e.density, ι.of e.share⟩
  have horder : ∀ a b : Evidence ℚ,
      (Evidence.order (carry a) (carry b)).isLE = (Evidence.order a b).isLE := by
    intro a b
    simp only [Evidence.order, carry, ι.compareDescending_of]
  have hevidence : labels.map (fun l => (⟨l, (db.map ι.of).density (ι.of (share l)) l,
      ι.of (share l)⟩ : Evidence α)) =
        (labels.map (fun l => ⟨l, db.density (share l) l, share l⟩)).map carry := by
    rw [List.map_map]
    exact List.map_congr_left (fun l _ => by simp [carry])
  rw [sortByEvidence, hevidence, sortBy_map horder, List.map_map, sortByEvidence]
  rfl

end Sorting

namespace Walk

variable {n : Nat} (d : Distribution) (share : Fin n → LabelId → ℚ)

theorem exhausted_map (rest : Vector ℚ n) : exhausted (rest.map ι.of) = exhausted rest := by
  simp only [exhausted, Vector.toList_map, List.any_map]
  refine List.any_congr rfl (fun r => ?_)
  simp

theorem outside_map (supers : OrderedSet LabelId) (i : Fin n) :
    outside (fun i l => ι.of (share i l)) supers i = ι.of (outside share supers i) := by
  simp only [outside, ι.one_sub_of, ι.product_map]

theorem remaining_map (excluded rest : Vector ℚ n) (supers : OrderedSet LabelId) :
    remaining (fun i l => ι.of (share i l)) (excluded.map ι.of) (rest.map ι.of) supers =
      (remaining share excluded rest supers).map ι.of := by
  ext i hi
  simp [remaining, outside_map]

theorem throughGroup_map (excluded : Vector ℚ n) (group : Nat) (labels : List LabelId)
    (supers covered : OrderedSet LabelId) (rest : Vector ℚ n) :
    throughGroup d (fun i l => ι.of (share i l)) (excluded.map ι.of) group labels supers covered
        (rest.map ι.of) =
      (throughGroup d share excluded group labels supers covered rest).map ι.of := by
  induction labels generalizing supers covered rest with
  | nil => rfl
  | cons l labels ih =>
    rw [throughGroup, throughGroup, exhausted_map]
    split
    · rfl
    · dsimp only
      split
      · exact ih _ _ _
      · have hmass : ∀ next : Vector ℚ n, (Vector.ofFn fun i : Fin n =>
            (rest.map ι.of)[i] - (next.map ι.of)[i]) =
              (Vector.ofFn fun i : Fin n => rest[i] - next[i]).map ι.of := by
          intro next
          ext i hi
          simp
        rw [remaining_map, ih, hmass]
        rfl

theorem throughGroups_map (sort : OrderedSet LabelId → List LabelId) (group : Nat)
    (groups : List (OrderedSet LabelId)) (rest : Vector ℚ n) :
    throughGroups d sort (fun i l => ι.of (share i l)) group groups (rest.map ι.of) =
      (throughGroups d sort share group groups rest).map ι.of := by
  induction groups generalizing group rest with
  | nil => rfl
  | cons labels groups ih =>
    have hexcluded : (Vector.ofFn fun i : Fin n => 1 - (rest.map ι.of)[i]) =
        (Vector.ofFn fun i : Fin n => 1 - rest[i]).map ι.of := by
      ext i hi
      simp
    rw [throughGroups, throughGroups, exhausted_map]
    split
    · rfl
    · dsimp only
      rw [hexcluded, throughGroup_map]
      simp only [map, ih, List.map_append]

theorem complete_map (sort : OrderedSet LabelId → List LabelId) :
    complete d sort (fun i l => ι.of (share i l)) = (complete d sort share).map ι.of := by
  have hone : Vector.replicate n (1 : α) = (Vector.replicate n (1 : ℚ)).map ι.of := by
    ext i hi
    simp [ι.of_one]
  rw [complete, complete, hone, throughGroups_map]

end Walk

@[simp] theorem LabelShares.of_map (shares : LabelShares ℚ) (l : LabelId) :
    LabelShares.of (shares.map ι.of) l = ι.of (shares.of l) := getD_mapValues ι shares l

theorem LabelShares.map_tabulate (f : LabelId → ℚ) (labels : OrderedSet LabelId) :
    LabelShares.map ι.of (OrderedMap.tabulate f labels) =
      OrderedMap.tabulate (fun l => ι.of (f l)) labels := OrderedMap.mapValues_tabulate ι.of f labels

theorem narrowed_map (db : Database ℚ) (shares : LabelShares ℚ) {label : LabelId}
    (hkept : shares.of label ≠ 0) :
    narrowed (db.map ι.of) (shares.map ι.of) label =
      (narrowed db shares label).map ι.of := by
  rw [narrowed, narrowed, LabelShares.map_tabulate, Database.labels_map, Database.distribution_map]
  refine OrderedMap.tabulate_congr (fun l _ => ?_)
  simp only [narrowedShare, LabelShares.of_map, ι.of_div _ _ hkept, ι.least_one, ι.ite_of_zero,
    ι.ite_of, ι.ite_one_of]

namespace Profile

variable (nodes : OrderedMap String (LabelShares ℚ)) (relationships : OrderedMap String TypeSet)
  (size : ℚ) (initial : Bool) (p : Profile ℚ)

theorem make_map :
    make (nodes.mapValues (fun _ => LabelShares.map ι.of)) relationships (ι.of size) initial =
      carry ι.of (make nodes relationships size initial) := by
  have hoverlap : overlapping (nodes.mapValues (fun _ => LabelShares.map ι.of)) relationships =
      overlapping nodes relationships := by
    rw [overlapping, overlapping, OrderedMap.keys_mapValues]
  rw [make, make, hoverlap]
  cases overlapping nodes relationships with
  | nil => rfl
  | cons name names => rfl

theorem labels_map (v : String) :
    (p.map ι.of).labels v = Outcome.bimap (Failure.map ι.of) (LabelShares.map ι.of) (p.labels v) := by
  have hshares : (p.map ι.of).nodes.get? v = (p.nodes.get? v).map (LabelShares.map ι.of) :=
    OrderedMap.get?_mapValues
  rw [labels, labels, hshares]
  cases p.nodes.get? v with
  | none => rfl
  | some shares => rfl

end Profile

namespace Traversal

variable (t : Traversal ℚ)

/-- The same step over other numbers. -/
def map (t : Traversal ℚ) : Traversal α := ⟨t.db.map ι.of, t.types, t.direction⟩

def Reached.map (r : Reached ℚ) : Reached α := ⟨ι.of r.size, r.base.map ι.of, r.target.map ι.of⟩

@[simp] theorem degree_map (b w : LabelId) : (t.map ι).degree b w = ι.of (t.degree b w) :=
  t.db.averageDegree_map ι b t.types w t.direction

@[simp] theorem degreeTo_map (shares : LabelShares ℚ) (w : LabelId) :
    (t.map ι).degreeTo (shares.map ι.of) w = ι.of (t.degreeTo shares w) := by
  have hmass : (t.map ι).massOf (shares.map ι.of) = (t.massOf shares).map ι.of := by
    have hshares : (shares.map ι.of).of = fun l => ι.of (shares.of l) :=
      funext (shares.of_map ι)
    simp only [massOf, hshares, map, Database.distribution_map, sortByEvidence_map]
    exact Walk.complete_map ι t.db.distribution (fun _ => shares.of) _
  have hvisits : ∀ (visits : List (Visit ℚ 1)) (s : ℚ),
      (visits.map (Visit.map ι.of)).foldl (fun d v => d + v.mass[0] * (t.map ι).degree v.label w)
        (ι.of s) = ι.of (visits.foldl (fun d v => d + v.mass[0] * t.degree v.label w) s) := by
    intro visits s
    rw [List.foldl_map]
    exact List.foldl_hom ι.of (fun s v => by simp [Visit.map])
  simp only [degreeTo, hmass, Walk.map, ← ι.of_zero, hvisits]
  simp

theorem throughBoundGroup_map (base target : LabelShares ℚ) (labels : List LabelId)
    (covered : OrderedSet LabelId) (degree coverage : ℚ) :
    (t.map ι).throughBoundGroup (base.map ι.of) (target.map ι.of) labels covered (ι.of degree)
        (ι.of coverage) =
      Prod.map ι.of ι.of (t.throughBoundGroup base target labels covered degree coverage) := by
  induction labels generalizing covered degree coverage with
  | nil => rfl
  | cons l labels ih =>
    have hdensity : ∀ share, (t.map ι).db.density (ι.of share) l = ι.of (t.db.density share l) :=
      fun share => t.db.density_map ι share l
    simp only [throughBoundGroup, ι.one_le_of, degreeTo_map, LabelShares.of_map, hdensity,
      ι.one_sub_of, ι.of_mul, ι.of_add, ih]
    split
    · rfl
    · split <;> rfl

theorem throughBoundGroups_map (base target : LabelShares ℚ) (groups : List (OrderedSet LabelId))
    (degree remaining : ℚ) :
    (t.map ι).throughBoundGroups (base.map ι.of) (target.map ι.of) groups (ι.of degree)
        (ι.of remaining) =
      Prod.map ι.of ι.of (t.throughBoundGroups base target groups degree remaining) := by
  induction groups generalizing degree remaining with
  | nil => rfl
  | cons group groups ih =>
    have hshares : (target.map ι.of).of = fun l => ι.of (target.of l) := funext (target.of_map ι)
    have hsort : sortByEvidence (t.map ι).db (target.map ι.of).of group.toList =
        sortByEvidence t.db target.of group.toList :=
      hshares ▸ sortByEvidence_map ι t.db target.of group.toList
    have hgroup := throughBoundGroup_map ι t base target (sortByEvidence t.db target.of group.toList)
      ∅ degree 0
    rw [ι.of_zero] at hgroup
    simp only [throughBoundGroups, hsort, hgroup, ι.of_le_zero, Prod.map_fst, Prod.map_snd,
      ι.least_of, ι.of_sub, ih]
    split <;> rfl

@[simp] theorem degreeToBound_map (base target : LabelShares ℚ) :
    (t.map ι).degreeToBound (base.map ι.of) (target.map ι.of) =
      ι.of (t.degreeToBound base target) := by
  have hgroups := throughBoundGroups_map ι t base target t.db.distribution.groups 0 1
  rw [ι.of_zero, ι.of_one] at hgroups
  have htotal : (t.map ι).db.total = ι.of t.db.total := t.db.total_map ι
  have hdistribution : (t.map ι).db.distribution = t.db.distribution := rfl
  simp only [degreeToBound, hdistribution, hgroups, htotal, Prod.map_fst, Prod.map_snd,
    degreeTo_map, ι.zero_lt_of, ι.of_mul, ι.ite_pos_add_div]

theorem nothing_map : (t.map ι).nothing = LabelShares.map ι.of t.nothing := by
  rw [nothing, nothing, LabelShares.map_tabulate, ι.of_zero]
  rfl

theorem fromAllNodes_map (base : LabelShares ℚ) :
    (t.map ι).fromAllNodes (base.map ι.of) = (t.fromAllNodes base).map ι := by
  have hcount : ∀ b w, (t.map ι).db.relationships b (t.map ι).types w (t.map ι).direction =
      ι.of (t.db.relationships b t.types w t.direction) :=
    fun b w => t.db.relationships_map ι b t.types w t.direction
  simp only [fromAllNodes, hcount, ι.of_le_zero, nothing_map]
  by_cases hnone : t.db.relationships anyLabel t.types anyLabel t.direction ≤ 0
  · rw [if_pos hnone, if_pos hnone]
    rfl
  · rw [if_neg hnone, if_neg hnone]
    have hdiv : ∀ x : ℚ, ι.of x / ι.of (t.db.relationships anyLabel t.types anyLabel t.direction) =
        ι.of (x / t.db.relationships anyLabel t.types anyLabel t.direction) :=
      fun x => ι.of_div _ _ (not_le.mp hnone).ne'
    simp only [hdiv, Reached.map, LabelShares.map_tabulate]
    rfl

theorem baseShare_map (size degree : ℚ) (hdegree : degree ≠ 0) (base : LabelShares ℚ)
    (l : LabelId) :
    (t.map ι).baseShare (ι.of size) (ι.of degree) (base.map ι.of) l =
      ι.of (t.baseShare size degree base l) := by
  simp only [baseShare, LabelShares.of_map, ι.of_le_zero, ι.of_mul, ι.ite_zero_of, ι.zero_lt_of]
  by_cases hselected : 0 < if base.of l ≤ 0 then 0 else size * base.of l
  · have hkept : base.of l ≠ 0 := by
      intro hzero
      simp [hzero] at hselected
    have hnarrowed : narrowed (t.map ι).db (base.map ι.of) l =
        (narrowed t.db base l).map ι.of := narrowed_map ι t.db base hkept
    rw [if_pos hselected, if_pos hselected, hnarrowed, degreeTo_map, ι.of_mul,
      ι.of_div _ _ hdegree, ι.least_one]
  · rw [if_neg hselected, if_neg hselected, ι.of_zero]

theorem boundTargetShare_map (degree : ℚ) (hdegree : degree ≠ 0) (base target : LabelShares ℚ)
    {l : LabelId} (hl : t.db.nodes l ≠ 0) :
    (t.map ι).boundTargetShare (ι.of degree) (base.map ι.of) (target.map ι.of) l =
      ι.of (t.boundTargetShare degree base target l) := by
  have hnodes : (t.map ι).db.nodes l = ι.of (t.db.nodes l) := t.db.nodes_map ι l
  simp only [boundTargetShare, degreeTo_map, LabelShares.of_map, hnodes, ι.of_mul,
    ι.of_div _ _ hl, ι.of_div _ _ hdegree, ι.least_one]

theorem baseShares_map (size degree : ℚ) (hdegree : degree ≠ 0) (base : LabelShares ℚ) :
    OrderedMap.tabulate ((t.map ι).baseShare (ι.of size) (ι.of degree) (base.map ι.of))
        (t.map ι).db.labels =
      LabelShares.map ι.of (OrderedMap.tabulate (t.baseShare size degree base) t.db.labels) := by
  rw [LabelShares.map_tabulate]
  exact OrderedMap.tabulate_congr (fun l _ => t.baseShare_map ι size degree hdegree base l)

/-- The shares at a bound target are those of labels with nodes, so none is divided by zero. -/
theorem boundTargetShares_map (degree : ℚ) (hdegree : degree ≠ 0) (base target : LabelShares ℚ) :
    OrderedMap.tabulate
        ((t.map ι).boundTargetShare (ι.of degree) (base.map ι.of) (target.map ι.of))
        ((t.map ι).db.labels.filter (fun l => decide (0 < (t.map ι).db.nodes l))) =
      LabelShares.map ι.of (OrderedMap.tabulate (t.boundTargetShare degree base target)
        (t.db.labels.filter (fun l => decide (0 < t.db.nodes l)))) := by
  have hpopulated : (t.map ι).db.labels.filter (fun l => decide (0 < (t.map ι).db.nodes l)) =
      t.db.labels.filter (fun l => decide (0 < t.db.nodes l)) := by
    simp only [map, Database.nodes_map, Database.labels_map, ι.zero_lt_of]
  rw [hpopulated, LabelShares.map_tabulate]
  refine OrderedMap.tabulate_congr (fun l hl => ?_)
  have hnodes := of_decide_eq_true (OrderedSet.mem_filter.mp hl).2
  exact t.boundTargetShare_map ι degree hdegree base target hnodes.ne'

theorem fromResult_map (size : ℚ) (base : LabelShares ℚ) (target : Option (LabelShares ℚ)) :
    (t.map ι).fromResult (ι.of size) (base.map ι.of) (target.map (LabelShares.map ι.of)) =
      (t.fromResult size base target).map ι := by
  cases target with
  | none =>
    simp only [fromResult, Option.map_none, degreeTo_map, ι.of_le_zero, ι.of_mul, nothing_map]
    by_cases hdegree : t.degreeTo base anyLabel ≤ 0
    · rw [if_pos hdegree, if_pos hdegree]
      rfl
    · have hne : t.degreeTo base anyLabel ≠ 0 := (not_le.mp hdegree).ne'
      rw [if_neg hdegree, if_neg hdegree, t.baseShares_map ι size _ hne]
      simp only [Reached.map, LabelShares.map_tabulate, ι.of_div _ _ hne]
      rfl
  | some target =>
    simp only [fromResult, Option.map_some, degreeToBound_map, ι.of_le_zero, ι.of_mul, nothing_map]
    by_cases hdegree : t.degreeToBound base target ≤ 0
    · rw [if_pos hdegree, if_pos hdegree]
      rfl
    · have hne : t.degreeToBound base target ≠ 0 := (not_le.mp hdegree).ne'
      rw [if_neg hdegree, if_neg hdegree, t.baseShares_map ι size _ hne,
        t.boundTargetShares_map ι _ hne]
      rfl

end Traversal

theorem expand_map (db : Database ℚ) (base : String) (direction : Direction)
    (relationship : String) (types : TypeSet) (target : String) (p : Profile ℚ) :
    expand (db.map ι.of) base direction relationship types target (p.map ι.of) =
      Profile.carry ι.of (expand db base direction relationship types target p) := by
  rw [expand, expand, Profile.labels_map]
  refine Outcome.bimap_bind (fun shares => ?_)
  have hbound : (p.map ι.of).isRelationship relationship = p.isRelationship relationship := rfl
  rw [hbound]
  split
  · rfl
  · have hreached : (if p.initial then (Traversal.map ι ⟨db, types, direction⟩).fromAllNodes
          (shares.map ι.of)
        else (Traversal.map ι ⟨db, types, direction⟩).fromResult (ι.of p.size) (shares.map ι.of)
          ((p.map ι.of).nodes.get? target)) =
        (if p.initial then Traversal.fromAllNodes ⟨db, types, direction⟩ shares
          else Traversal.fromResult ⟨db, types, direction⟩ p.size shares
            (p.nodes.get? target)).map ι := by
      have htarget : (p.map ι.of).nodes.get? target =
          (p.nodes.get? target).map (LabelShares.map ι.of) := OrderedMap.get?_mapValues
      rw [htarget, Traversal.fromAllNodes_map, Traversal.fromResult_map]
      exact (apply_ite (Traversal.Reached.map ι) _ _ _).symm
    refine (congrArg (fun r : Traversal.Reached α => Profile.make
      (((p.map ι.of).nodes.insert base r.base).insert target r.target)
      (p.relationships.insert relationship types) r.size false) hreached).trans ?_
    have hnodes : ∀ r : Traversal.Reached ℚ,
        ((p.map ι.of).nodes.insert base (r.map ι).base).insert target (r.map ι).target =
          ((p.nodes.insert base r.base).insert target r.target).mapValues
            (fun _ => LabelShares.map ι.of) :=
      fun r => by rw [OrderedMap.mapValues_insert, OrderedMap.mapValues_insert]; rfl
    rw [hnodes]
    exact Profile.make_map ι _ _ _ _

end Estimate

end PatternCardinality
