import PatternCardinality.Proofs.Estimate.Binding
import PatternCardinality.Proofs.Estimate.Expression
import PatternCardinality.Proofs.Estimate.Hierarchy
import PatternCardinality.Proofs.Estimate.Shares
import PatternCardinality.Proofs.Statistics.Property

/-!
# Estimates make sense

Over consistent statistics no operator leaves the realm of sizes and shares: sizes are not negative,
shares lie between zero and one, and no name is bound both ways. Some operators cut their results to
that realm; the others stay in it since counts with wildcards dominate those with labels.
-/

namespace PatternCardinality.Estimate

open Labels Statistics

variable {db : Database ℚ}

namespace Traversal

variable {t : Traversal ℚ} (h : t.db.view.store.Dominated)

include h

theorem throughBoundGroup_nonneg (base : LabelShares ℚ) {target : LabelShares ℚ}
    (ht : target.AllShares) (labels : List LabelId) (covered : OrderedSet LabelId)
    {degree : ℚ} (coverage : ℚ) (hd : 0 ≤ degree) :
    0 ≤ (t.throughBoundGroup base target labels covered degree coverage).1 := by
  induction labels generalizing covered degree coverage with
  | nil => exact hd
  | cons l labels ih =>
    rw [throughBoundGroup]
    split
    · exact hd
    · next hcoverage =>
      dsimp only
      split
      · exact ih _ _ hd
      · refine ih _ _ (add_nonneg hd ?_)
        have hfree : 0 ≤ 1 - coverage := sub_nonneg.mpr (not_le.mp hcoverage).le
        exact mul_nonneg (mul_nonneg hfree (degreeTo_nonneg h base l))
          (Database.density_nonneg h (ht.of l).1 l)

theorem throughBoundGroups_nonneg (base : LabelShares ℚ) {target : LabelShares ℚ}
    (ht : target.AllShares) (groups : List (OrderedSet LabelId)) {degree remaining : ℚ}
    (hd : 0 ≤ degree) (hr : 0 ≤ remaining) :
    0 ≤ (t.throughBoundGroups base target groups degree remaining).1 ∧
      0 ≤ (t.throughBoundGroups base target groups degree remaining).2 := by
  induction groups generalizing degree remaining with
  | nil => exact ⟨hd, hr⟩
  | cons group groups ih =>
    rw [throughBoundGroups]
    split
    · exact ⟨hd, hr⟩
    · refine ih (throughBoundGroup_nonneg h base ht _ _ _ hd) ?_
      rw [Scalar.least_rat]
      exact sub_nonneg.mpr (min_le_left _ _)

theorem degreeToBound_nonneg (base : LabelShares ℚ) {target : LabelShares ℚ}
    (ht : target.AllShares) : 0 ≤ t.degreeToBound base target := by
  obtain ⟨hdegree, hremaining⟩ := throughBoundGroups_nonneg h base ht t.db.distribution.groups
    (le_refl (0 : ℚ)) (zero_le_one : (0 : ℚ) ≤ 1)
  simp only [degreeToBound]
  split
  · next htotal =>
    exact add_nonneg hdegree
      (div_nonneg (mul_nonneg hremaining (degreeTo_nonneg h base anyLabel)) (le_of_lt htotal))
  · exact hdegree

end Traversal

/-- A step reaches a size that is not negative, and tables of shares. -/
structure Traversal.Reached.Sound (r : Traversal.Reached ℚ) : Prop where
  size : 0 ≤ r.size
  base : r.base.AllShares
  target : r.target.AllShares

namespace Traversal

variable {t : Traversal ℚ} (h : t.db.view.store.Dominated)

theorem allShares_nothing (t : Traversal ℚ) : t.nothing.AllShares :=
  LabelShares.allShares_tabulate (fun _ _ => isShare_zero)

include h

theorem fromAllNodes_sound {base : LabelShares ℚ} (hb : base.AllShares) :
    (t.fromAllNodes base).Sound := by
  have hsize := Database.relationships_nonneg h anyLabel t.types anyLabel t.direction
  simp only [fromAllNodes]
  split
  · exact ⟨hsize, hb, t.allShares_nothing⟩
  · refine ⟨hsize, LabelShares.allShares_tabulate (fun l _ => ?_),
      LabelShares.allShares_tabulate (fun l _ => ?_)⟩
    · exact isShare_div (Database.relationships_nonneg h l t.types anyLabel t.direction)
        (Database.relationships_le_any_base h l t.types anyLabel t.direction)
    · exact isShare_div (Database.relationships_nonneg h anyLabel t.types l t.direction)
        (Database.relationships_le_any_target h anyLabel t.types l t.direction)

theorem isShare_baseShare {size degree : ℚ} {base : LabelShares ℚ} (hd : 0 < degree)
    (l : LabelId) : IsShare (t.baseShare size degree base l) := by
  simp only [baseShare]
  by_cases hkept : base.of l ≤ 0
  · rw [if_pos hkept, if_neg (lt_irrefl _)]
    exact isShare_zero
  · rw [if_neg hkept]
    split
    · exact isShare_least (div_nonneg
        (mul_nonneg (degreeTo_nonneg h _ anyLabel) (not_le.mp hkept).le) hd.le)
    · exact isShare_zero

theorem isShare_boundTargetShare {degree : ℚ} (base : LabelShares ℚ) {target : LabelShares ℚ}
    (ht : target.AllShares) (hd : 0 < degree) (l : LabelId) :
    IsShare (t.boundTargetShare degree base target l) :=
  isShare_least (div_nonneg (div_nonneg (mul_nonneg (degreeTo_nonneg h base l) (ht.of l).1)
    (h.nodes_nonneg l)) hd.le)

theorem fromResult_sound {size : ℚ} (hsize : 0 ≤ size) {base : LabelShares ℚ}
    (hb : base.AllShares) {target : Option (LabelShares ℚ)}
    (ht : ∀ shares, target = some shares → shares.AllShares) :
    (t.fromResult size base target).Sound := by
  cases target with
  | none =>
    have hdegree := degreeTo_nonneg h base anyLabel
    simp only [fromResult]
    split
    · exact ⟨mul_nonneg hsize hdegree, hb, t.allShares_nothing⟩
    · next hpos =>
      refine ⟨mul_nonneg hsize hdegree, LabelShares.allShares_tabulate (fun l _ => ?_),
        LabelShares.allShares_tabulate (fun l _ => ?_)⟩
      · exact isShare_baseShare h (not_le.mp hpos) l
      · exact isShare_div (degreeTo_nonneg h base l) (degreeTo_le_any h base l)
  | some shares =>
    have hshares := ht shares rfl
    have hdegree := degreeToBound_nonneg h base hshares
    simp only [fromResult]
    split
    · exact ⟨mul_nonneg hsize hdegree, hb, t.allShares_nothing⟩
    · next hpos =>
      refine ⟨mul_nonneg hsize hdegree, LabelShares.allShares_tabulate (fun l _ => ?_),
        LabelShares.allShares_tabulate (fun l _ => ?_)⟩
      · exact isShare_baseShare h (not_le.mp hpos) l
      · exact isShare_boundTargetShare h base hshares (not_le.mp hpos) l

end Traversal

section Joins

theorem matchProbability_nonneg (shared : Nat) : 0 ≤ matchProbability db shared := by
  rw [matchProbability]
  split
  · exact zero_le_one
  · split
    · next htotal => exact div_nonneg (Nat.cast_nonneg shared) (le_of_lt htotal)
    · exact le_rfl

variable (h : db.view.store.Dominated)

include h

/-- The mass that both variables put on a label is not negative, nor is what both have left. -/
theorem mergeFactor_nonneg (staying leaving : LabelShares ℚ) :
    0 ≤ mergeFactor db staying leaving := by
  have hmass := Walk.complete_nonneg db.distribution
    (fun group => sortByEvidence db
      (fun l => Scalar.greatest (staying.of l) (leaving.of l)) group.toList)
    (pairShare staying leaving)
  have hknown : 0 ≤ (jointMass db staying leaving).visits.foldl (fun factor v =>
      if db.nodes v.label ≤ 0 then factor
      else factor + v.mass[0] * v.mass[1] / db.nodes v.label) 0 := by
    refine List.foldlRecOn (motive := fun x : ℚ => 0 ≤ x) _ _ le_rfl (fun x hx v hv => ?_)
    split
    · exact hx
    · exact add_nonneg hx (div_nonneg (mul_nonneg (hmass.mass v hv 0) (hmass.mass v hv 1))
        (h.nodes_nonneg v.label))
  simp only [mergeFactor]
  split
  · next htotal =>
    exact add_nonneg hknown (div_nonneg (mul_nonneg (hmass.rest 0) (hmass.rest 1))
      (le_of_lt htotal))
  · exact hknown

namespace Partition

omit h in
theorem conditional_nonneg (size : ℚ) (given : LabelId) {label : LabelId}
    (hlabel : 0 ≤ db.nodes label) : 0 ≤ conditional db size given label := by
  simp only [conditional]
  split
  · split
    · exact le_rfl
    · next hgiven => exact (isShare_least (div_nonneg hlabel (not_le.mp hgiven).le)).1
  · split
    · exact zero_le_one
    · split
      · exact le_rfl
      · next htotal =>
        have hshare : 0 ≤ db.nodes label / db.total := div_nonneg hlabel (not_le.mp htotal).le
        split
        · exact hshare
        · next hsize => exact (isShare_least (div_nonneg hshare (not_le.mp hsize).le)).1

theorem paired_nonneg (sizes : List ℚ) (leaving : LabelShares ℚ) (group : Nat) (l : LabelId)
    {share : ℚ} (hshare : 0 ≤ share) {s : Progress ℚ} (hs : 0 ≤ s.factor)
    (hcoverage : s.coverage group < 1) : 0 ≤ s.paired db sizes leaving group l share := by
  refine List.foldlRecOn (motive := fun x : ℚ => 0 ≤ x) _ _ hs (fun x hx m _ => ?_)
  dsimp only
  split
  · exact hx
  · have hfree : 0 ≤ 1 - s.coverage group := sub_nonneg.mpr hcoverage.le
    exact add_nonneg hx (div_nonneg (mul_nonneg (mul_nonneg hfree
      (conditional_nonneg (sizes.getD group 0) l (h.nodes_nonneg m))) hshare) (h.nodes_nonneg m))

theorem cover_nonneg (sizes : List ℚ) (staying leaving : LabelShares ℚ) (group : Nat)
    (l : LabelId) {s : Progress ℚ} (hs : 0 ≤ s.factor) (hcoverage : s.coverage group < 1) :
    0 ≤ (s.cover db sizes staying leaving group l).factor := by
  simp only [Progress.cover]
  split
  · dsimp only
    split
    · next hshare => exact paired_nonneg h sizes leaving group l (le_of_lt hshare) hs hcoverage
    · exact hs
  · exact hs

/-- Neither the factor nor what remains becomes negative. -/
theorem through_nonneg (sizes : List ℚ) (staying leaving : LabelShares ℚ) (order : List LabelId)
    {s : Progress ℚ} (hf : 0 ≤ s.factor) (hr : 0 ≤ s.remaining) :
    0 ≤ (Progress.through db sizes staying leaving order s).factor ∧
      0 ≤ (Progress.through db sizes staying leaving order s).remaining := by
  induction order generalizing s with
  | nil => exact ⟨hf, hr⟩
  | cons l order ih =>
    rw [Progress.through]
    split
    · exact ⟨hf, hr⟩
    · split
      · exact ih hf hr
      · next group _ =>
        have hless : ∀ x y : ℚ, 0 ≤ x - Scalar.least x y := by
          intro x y
          rw [Scalar.least_rat]
          exact sub_nonneg.mpr (min_le_left _ _)
        refine ih ?_ (hless _ _)
        dsimp only
        split
        · next hcoverage => exact cover_nonneg h sizes staying leaving group l hf hcoverage
        · exact hf

theorem factor_nonneg (staying leaving : LabelShares ℚ) : 0 ≤ factor db staying leaving := by
  simp only [factor]
  obtain ⟨hfactor, hremaining⟩ := through_nonneg h (sizes db) staying leaving
    (sortByEvidence db (fun l => Scalar.greatest (staying.of l) (leaving.of l)) db.labels.toList)
    (s := ⟨0, 1, List.replicate db.distribution.groups.length 0, db.distribution.groups⟩)
    le_rfl zero_le_one
  exact add_nonneg hfactor (mul_nonneg hremaining (h.nodes_nonneg anyLabel))

end Partition

end Joins

section Selections

theorem meanSelectivity_nonneg {selectivity : Int32 → ℚ} (h : ∀ c, 0 ≤ selectivity c)
    (candidates : List Int32) : 0 ≤ meanSelectivity selectivity candidates := by
  refine div_nonneg ?_ (Nat.cast_nonneg _)
  refine List.foldlRecOn (motive := fun x : ℚ => 0 ≤ x) _ _ le_rfl (fun x hx y hy => ?_)
  obtain ⟨c, -, rfl⟩ := List.mem_map.mp hy
  exact add_nonneg hx (h c)

/-- The least of selectivities that are not negative is not negative either. -/
theorem combinedSelectivity_nonneg (candidates : List Int32) (predicates : PropertyPredicates ℚ)
    {selectivity : Int32 → PropertyId → Predicate ℚ → ℚ} (h : ∀ c k p, 0 ≤ selectivity c k p) :
    0 ≤ (combinedSelectivity candidates predicates selectivity).1 := by
  have hbound : ∀ means : List ℚ, (∀ m ∈ means, 0 ≤ m) →
      0 ≤ (Scalar.ofBound (means.foldl (fun b m => b.least (Scalar.toBound m))
        Bound.highest) : ℚ) := by
    intro means hmeans
    refine List.foldlRecOn (motive := fun b : Bound ℚ => 0 ≤ (Scalar.ofBound b : ℚ)) means _ le_rfl
      (fun b hb m hm => ?_)
    rw [Bound.least]
    split
    · exact hb
    · exact hmeans m hm
  refine hbound _ (fun m hm => ?_)
  obtain ⟨e, -, rfl⟩ := List.mem_map.mp hm
  exact meanSelectivity_nonneg (fun c => h c e.1 e.2) candidates

variable [NumberHash ℚ]

theorem predicateSelectivity_nonneg {point : Option Int32 → ℚ} {range : Bound ℚ → Bound ℚ → ℚ}
    (hpoint : ∀ hash, 0 ≤ point hash) (hrange : ∀ low high, 0 ≤ range low high)
    (predicate : Predicate ℚ) : 0 ≤ predicateSelectivity point range predicate := by
  simp only [predicateSelectivity]
  split
  · split
    · exact hpoint _
    · exact hrange _ _
  · exact hpoint _

variable (h : db.view.store.Consistent)

include h

theorem nodeReduction_nonneg (shares : LabelShares ℚ) (predicates : PropertyPredicates ℚ)
    {fixed : Option ℚ} (hfixed : ∀ s, fixed = some s → 0 ≤ s) :
    0 ≤ (nodeReduction db shares predicates fixed).1 := by
  simp only [nodeReduction]
  split
  · refine Scalar.power_nonneg ?_ _
    exact div_nonneg zero_le_one (Nat.cast_nonneg 10)
  · split
    · next s => exact Scalar.power_nonneg (hfixed s rfl) _
    · refine combinedSelectivity_nonneg _ _ (fun l k p => ?_)
      exact predicateSelectivity_nonneg (View.nodeSelectivity_nonneg h l k)
        (View.nodeRangeSelectivity_nonneg h l k) p

theorem relationshipReduction_nonneg (types : TypeSet) (predicates : PropertyPredicates ℚ)
    {fixed : Option ℚ} (hfixed : ∀ s, fixed = some s → 0 ≤ s) :
    0 ≤ (relationshipReduction db types predicates fixed).1 := by
  simp only [relationshipReduction]
  split
  · next s => exact Scalar.power_nonneg (hfixed s rfl) _
  · refine combinedSelectivity_nonneg _ _ (fun t k p => ?_)
    exact predicateSelectivity_nonneg (View.relationshipSelectivity_nonneg h t k)
      (View.relationshipRangeSelectivity_nonneg h t k) p

end Selections

/-- A size that is not negative, shares in all tables, and no name bound both ways. -/
structure Profile.Sound (p : Profile ℚ) : Prop where
  size : 0 ≤ p.size
  shares : ∀ v shares, p.nodes.get? v = some shares → ∀ l s, shares.get? l = some s → 0 ≤ s ∧ s ≤ 1
  apart : ∀ v, p.isNode v = true → p.isRelationship v = false

/-- A selectivity that takes the place of statistics is a probability. -/
def Operator.Admissible : Operator ℚ → Prop
  | .selectProperties _ _ (some s) => 0 ≤ s ∧ s ≤ 1
  | _ => True

section Operators

variable {p p' left right : Profile ℚ}

theorem scan_sound (h : db.view.store.Dominated) {v : String} (hp : scan db v = .ok p') :
    0 ≤ p'.size ∧ AllTables p'.nodes := by
  rw [scan_eq_ok hp]
  refine ⟨h.nodes_nonneg anyLabel, fun w shares hw => ?_⟩
  obtain ⟨-, rfl⟩ := OrderedMap.eq_of_get?_singleton hw
  refine LabelShares.allShares_tabulate (fun l _ => ?_)
  split
  · exact isShare_div (h.nodes_nonneg l) (h.nodes_le l)
  · exact isShare_zero

theorem expand_sound (h : db.view.store.Dominated) (hsize : 0 ≤ p.size)
    (htables : AllTables p.nodes) {base relationship target : String} {direction : Direction}
    {types : TypeSet}
    (hp : expand db base direction relationship types target p = .ok p') :
    0 ≤ p'.size ∧ AllTables p'.nodes := by
  obtain ⟨shares, hshares, rfl⟩ := expand_eq_ok hp
  have hbase := htables base shares hshares
  have hreached : (reached ⟨db, types, direction⟩ target shares p).Sound := by
    rw [reached]
    split
    · exact Traversal.fromAllNodes_sound h hbase
    · exact Traversal.fromResult_sound h hsize hbase (htables target)
  exact ⟨hreached.size, (htables.insert hreached.base).insert hreached.target⟩

theorem selectLabel_sound (hsize : 0 ≤ p.size) (htables : AllTables p.nodes) {v : String}
    {label : LabelId} (hp : selectLabel db v label p = .ok p') :
    0 ≤ p'.size ∧ AllTables p'.nodes := by
  obtain ⟨shares, hshares, rfl⟩ := selectLabel_eq_ok hp
  have hall := htables v shares hshares
  split
  · exact ⟨le_rfl, htables⟩
  · next hkept =>
    exact ⟨mul_nonneg hsize (hall.of label).1,
      htables.insert (hall.narrowed db (not_le.mp hkept))⟩

theorem selectTypes_sound (h : db.view.store.Dominated) (hsize : 0 ≤ p.size)
    (htables : AllTables p.nodes) {v : String} {allowed : TypeSet}
    (hp : selectTypes db v allowed p = .ok p') : 0 ≤ p'.size ∧ AllTables p'.nodes := by
  obtain ⟨old, ratio, -, hratio, rfl⟩ := selectTypes_eq_ok hp
  have hnonneg : 0 ≤ ratio := by
    rw [hratio]
    split
    · exact div_nonneg (Database.relationships_nonneg h _ _ _ _)
        (Database.relationships_nonneg h _ _ _ _)
    · exact le_rfl
  exact ⟨mul_nonneg hsize hnonneg, htables⟩

theorem join_sound (hl : 0 ≤ left.size) (hr : 0 ≤ right.size) (hleft : AllTables left.nodes)
    (hright : AllTables right.nodes) (hp : join db left right = .ok p') :
    0 ≤ p'.size ∧ AllTables p'.nodes := by
  rw [join_eq_ok hp]
  exact ⟨mul_nonneg (mul_nonneg hl hr) (matchProbability_nonneg _), hleft.joinedNodes db hright⟩

theorem identified_sound (hsize : 0 ≤ p.size) (htables : AllTables p.nodes)
    {staying leaving : String} {shares : LabelShares ℚ} {factor : ℚ} (hfactor : 0 ≤ factor)
    (hshares : shares.AllShares) (hp : identified p staying leaving shares factor = .ok p') :
    0 ≤ p'.size ∧ AllTables p'.nodes := by
  rw [identified_eq_ok hp]
  exact ⟨mul_nonneg hsize hfactor, (htables.erase leaving).insert hshares⟩

variable [NumberHash ℚ]

theorem selectProperties_sound (h : db.view.store.Consistent) (hsize : 0 ≤ p.size)
    (htables : AllTables p.nodes) {v : String} {predicates : PropertyPredicates ℚ}
    {fixed : Option ℚ} (hfixed : ∀ s, fixed = some s → 0 ≤ s)
    (hp : selectProperties db v predicates fixed p = .ok p') :
    0 ≤ p'.size ∧ AllTables p'.nodes := by
  rcases (selectProperties_eq_ok hp).2 with ⟨shares, hshares, rfl⟩ | ⟨types, -, -, rfl⟩
  · refine ⟨mul_nonneg hsize (nodeReduction_nonneg h shares predicates hfixed), ?_⟩
    dsimp only
    split
    · next hselectivity =>
      exact htables.insert ((htables v shares hshares).rescaled hselectivity _)
    · exact htables
  · exact ⟨mul_nonneg hsize (relationshipReduction_nonneg h types predicates hfixed), htables⟩

/-- Every operator keeps results sound. -/
theorem compute_sound (h : db.view.store.Consistent) {op : Operator ℚ} (hop : op.Admissible)
    {inputs : List (Profile ℚ)} (hin : ∀ i ∈ inputs, i.Sound)
    (hp : op.compute db inputs = .ok p') : p'.Sound := by
  have happart := compute_apart hp
  have hdominated := h.toDominated
  suffices hsound : 0 ≤ p'.size ∧ AllTables p'.nodes from ⟨hsound.1, hsound.2, happart⟩
  simp only [Operator.compute] at hp
  split at hp
  · exact scan_sound hdominated hp
  · next p =>
    have hi := hin p List.mem_cons_self
    exact expand_sound hdominated hi.size hi.shares hp
  · next p =>
    have hi := hin p List.mem_cons_self
    exact selectLabel_sound hi.size hi.shares hp
  · next fixed p =>
    have hi := hin p List.mem_cons_self
    refine selectProperties_sound h hi.size hi.shares (fun s hs => ?_) hp
    subst hs
    exact hop.1
  · next p =>
    have hi := hin p List.mem_cons_self
    exact selectTypes_sound hdominated hi.size hi.shares hp
  · next left right =>
    have hl := hin left List.mem_cons_self
    have hr := hin right (List.mem_cons_of_mem _ List.mem_cons_self)
    exact join_sound hl.size hr.size hl.shares hr.shares hp
  · next staying leaving p =>
    have hi := hin p List.mem_cons_self
    obtain ⟨s, l, hs, -, hp⟩ := mergeOn_eq_ok hp
    have hstaying : s.AllShares := hi.shares staying s hs
    exact identified_sound hi.size hi.shares (mergeFactor_nonneg hdominated s l)
      (hstaying.mergedShares _ l) hp
  · next staying leaving p =>
    have hi := hin p List.mem_cons_self
    obtain ⟨s, l, hs, hl, hp⟩ := selfJoin_eq_ok hp
    have hstaying : s.AllShares := hi.shares staying s hs
    have hleaving : l.AllShares := hi.shares leaving l hl
    exact identified_sound hi.size hi.shares (Partition.factor_nonneg hdominated s l)
      (hstaying.smallerShares hleaving) hp
  · cases hp

/-- Over consistent statistics, whatever is built of operators has a sound result. -/
theorem Expression.Built.profile_sound (h : db.view.store.Consistent) {e : Expression ℚ}
    (he : e.Built db) (hops : ∀ op ∈ e.operators, op.Admissible) : e.profile.Sound :=
  he.induct (fun op hop _ _ hin hp => compute_sound h (hops op hop) hin hp)

end Operators

/-- Acquaintances of persons with an age, made in some year. -/
def datedAcquaintances : Store ℚ :=
  { acquaintances with
    labelProperties := .singleton ⟨1, 0⟩ ⟨4, 4, 4, .singleton 30 (1 / 4), [20, 60]⟩
    typeProperties := .singleton ⟨7, 1⟩ ⟨5, 2, 5, ∅, [1990, 2020]⟩ }

theorem datedAcquaintances_consistent : datedAcquaintances.Consistent := by
  obtain ⟨hnodes, hle, hcount, htarget, hbase⟩ := acquaintances_dominated
  refine ⟨⟨hnodes, hle, hcount, htarget, hbase⟩, fun l property p hp => ?_,
    fun t property p hp => ?_⟩
  · obtain ⟨-, rfl⟩ := OrderedMap.eq_of_get?_singleton hp
    refine ⟨by norm_num, by norm_num, by norm_num, fun hash share hshare => ?_, ?_⟩
    · obtain ⟨-, rfl⟩ := OrderedMap.eq_of_get?_singleton hshare
      norm_num
    · exact List.pairwise_pair.mpr (by norm_num)
  · obtain ⟨-, rfl⟩ := OrderedMap.eq_of_get?_singleton hp
    refine ⟨by norm_num, by norm_num, by norm_num, fun hash share hshare => ?_, ?_⟩
    · cases hshare
    · exact List.pairwise_pair.mpr (by norm_num)

/-- Persons between two ages and the cities that they know, half of them since a certain year. -/
theorem sound_of_selected_expand : ∃ (_ : NumberHash ℚ) (e : Expression ℚ),
    e.Built ⟨⟨datedAcquaintances, true⟩, Distribution.single [1, 2, 3]⟩ ∧
      e.operators = [.selectProperties "a" (.singleton 0 (.range (.number 25) (.number 40))) none,
        .selectProperties "e" (.singleton 1 (.text "2001")) (some (1 / 2)),
        .expand "a" .outgoing "e" (.singleton 7) "b", .selectLabel "a" 1, .scan "a"] ∧
      e.profile.Sound := by
  refine ⟨⟨fun _ => 0⟩, ?_⟩
  let hash : NumberHash ℚ := ⟨fun _ => 0⟩
  let db : Database ℚ := ⟨⟨datedAcquaintances, true⟩, Distribution.single [1, 2, 3]⟩
  let age : PropertyPredicates ℚ := .singleton 0 (.range (.number 25) (.number 40))
  let since : PropertyPredicates ℚ := .singleton 1 (.text "2001")
  have ha : "a" ∈ ({"a"} : Set String) := rfl
  have ha' : "a" ∈ (insert "b" {"a"} : Set String) := by simp
  have he : "e" ∉ (∅ : Set String) := Set.notMem_empty _
  have he' : "e" ∈ (insert "e" ∅ : Set String) := by simp
  have hapart : ∀ v ∈ (insert "b" {"a"} : Set String), v ∉ (insert "e" ∅ : Set String) := by simp
  have hage : age.isEmpty = false := rfl
  have hsince : since.isEmpty = false := rfl
  obtain ⟨p₀, h₀, hb⟩ := scan_binds db "a"
  obtain ⟨p₁, h₁, hb⟩ := selectLabel_binds db hb ha 1
  obtain ⟨p₂, h₂, hb, htypes⟩ := expand_binds db hb ha he hapart .outgoing (.singleton 7)
  obtain ⟨p₃, h₃, hb⟩ :=
    selectProperties_binds_relationship db hb he' htypes rfl hsince (some (1 / 2))
  obtain ⟨p₄, h₄, -⟩ := selectProperties_binds_node db hb ha' hage none
  have hscan : Expression.Built db (.node (.scan "a") [] p₀) := .node (by simp) h₀
  have hlabel : Expression.Built db (.node (.selectLabel "a" 1) [_] p₁) :=
    .node (List.forall_mem_singleton.mpr hscan) h₁
  have hexpand :
      Expression.Built db (.node (.expand "a" .outgoing "e" (.singleton 7) "b") [_] p₂) :=
    .node (List.forall_mem_singleton.mpr hlabel) h₂
  have hyear : Expression.Built db (.node (.selectProperties "e" since (some (1 / 2))) [_] p₃) :=
    .node (List.forall_mem_singleton.mpr hexpand) h₃
  have hbuilt : Expression.Built db (.node (.selectProperties "a" age none) [_] p₄) :=
    .node (List.forall_mem_singleton.mpr hyear) h₄
  refine ⟨_, hbuilt, rfl, hbuilt.profile_sound datedAcquaintances_consistent (fun op hop => ?_)⟩
  change op ∈ [_, _, _, _, _] at hop
  simp only [List.mem_cons, List.not_mem_nil, or_false] at hop
  rcases hop with rfl | rfl | rfl | rfl | rfl
  · trivial
  · exact ⟨by norm_num, by norm_num⟩
  · trivial
  · trivial
  · trivial

end PatternCardinality.Estimate
