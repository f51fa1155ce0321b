import PatternCardinality.Proofs.Estimate.Expression
import PatternCardinality.Proofs.Estimate.Uniform

/-!
# Results that differ where there are no matches

With a single label, the two ways to identify variables have the same results as long as there are
matches. Without matches the shares may differ, but not the size: so results are the same, or
neither has matches and they bind the same variables. All operators of plans without predicates keep
it so.
-/

namespace PatternCardinality.Estimate

open Labels

variable {α : Type}

/-- A label is certain at each of some node variables. -/
def CertainAt (L : LabelId) (nodes : OrderedMap String (LabelShares ℚ)) : Prop :=
  ∀ v shares, nodes.get? v = some shares → shares = LabelShares.certain L

section Tables

variable {L : LabelId} {nodes left right : OrderedMap String (LabelShares ℚ)}

theorem CertainAt.insert (h : CertainAt L nodes) (v : String) :
    CertainAt L (nodes.insert v (LabelShares.certain L)) := by
  intro w shares hw
  rw [OrderedMap.get?_insert] at hw
  split at hw
  · exact (Option.some_inj.mp hw).symm
  · exact h w shares hw

theorem CertainAt.erase (h : CertainAt L nodes) (v : String) : CertainAt L (nodes.erase v) := by
  intro w shares hw
  rw [OrderedMap.get?_erase] at hw
  split at hw
  · cases hw
  · exact h w shares hw

theorem CertainAt.joinedNodes {db : Database ℚ} (h : db.Uniform L) (hl : CertainAt L left)
    (hr : CertainAt L right) : CertainAt L (joinedNodes db left right).1 := by
  intro w shares hw
  rw [get?_joinedNodes] at hw
  cases hright : right.get? w with
  | none =>
    rw [hright] at hw
    exact hl w shares hw
  | some r =>
    rw [hright, hr w r hright] at hw
    cases hleft : left.get? w with
    | none =>
      rw [hleft] at hw
      exact (Option.some_inj.mp hw).symm
    | some s =>
      rw [hleft, hl w s hleft] at hw
      exact (Option.some_inj.mp hw).symm.trans h.joinedShares_certain

end Tables

/-- There are matches, and a label is certain at each node variable. -/
structure Profile.Certain (L : LabelId) (p : Profile ℚ) : Prop where
  size_pos : 0 < p.size
  nodes : CertainAt L p.nodes

/-- Neither result has matches, and both bind the same variables. -/
structure Profile.Void (p p' : Profile ℚ) : Prop where
  size : p.size = 0
  size' : p'.size = 0
  initial : p.initial = false
  initial' : p'.initial = false
  nodes : p'.nodes.keySet = p.nodes.keySet
  relationships : p'.relationships = p.relationships

/-- Results that are the same, with a label that is certain, or that both have no matches. -/
inductive Profile.Matched (L : LabelId) : Profile ℚ → Profile ℚ → Prop
  | certain {p} (h : p.Certain L) : Matched L p p
  | void {p p'} (h : p.Void p') : Matched L p p'

namespace Profile

variable {L : LabelId} {p p' : Profile ℚ}

theorem Matched.size (h : p.Matched L p') : p'.size = p.size := by
  cases h with
  | certain => rfl
  | void h => rw [h.size, h.size']

theorem matched_of_size_eq_zero (hsize : p.size = 0) (hinitial : p.initial = false) :
    p.Matched L p :=
  .void ⟨hsize, hsize, hinitial, hinitial, rfl, rfl⟩

/-- Whether a result can be made depends on the names that are bound alone. -/
theorem make_void {nodes nodes' : OrderedMap String (LabelShares ℚ)}
    (hnodes : nodes'.keySet = nodes.keySet)
    {relationships relationships' : OrderedMap String TypeSet}
    (hrelationships : relationships' = relationships) {size size' : ℚ} (hsize : size = 0)
    (hsize' : size' = 0) :
    Outcome.Agree (Matched L) (make nodes relationships size false)
      (make nodes' relationships' size' false) := by
  subst hrelationships hsize hsize'
  have hkeys : nodes'.keys = nodes.keys := congrArg OrderedSet.toList hnodes
  rw [make, make, overlapping, overlapping, hkeys]
  split
  · exact .ok (.void ⟨rfl, rfl, rfl, rfl, hnodes, rfl⟩)
  · exact .error _

/-- The shares at a variable are found in both results or in neither. -/
theorem Void.labels_agree (h : p.Void p') (v : String) :
    Outcome.Agree (fun _ _ => p.nodes.keySet.insert v = p.nodes.keySet) (p.labels v)
      (p'.labels v) := by
  have hmem : v ∈ p'.nodes.keySet ↔ v ∈ p.nodes.keySet := by rw [h.nodes]
  rw [OrderedMap.mem_keySet, OrderedMap.mem_keySet, OrderedMap.contains_iff,
    OrderedMap.contains_iff] at hmem
  cases hp : p.nodes.get? v with
  | none =>
    have hp' : p'.nodes.get? v = none := by
      rw [Option.eq_none_iff_forall_ne_some]
      intro shares hshares
      obtain ⟨_, hsome⟩ := hmem.mp ⟨shares, hshares⟩
      rw [hp] at hsome
      cases hsome
    rw [labels, labels, hp, hp']
    exact .error _
  | some shares =>
    obtain ⟨shares', hp'⟩ := hmem.mpr ⟨shares, hp⟩
    rw [labels, labels, hp, hp']
    refine .ok (OrderedSet.ext (fun w => ?_))
    rw [OrderedSet.mem_insert]
    refine or_iff_right_of_imp ?_
    rintro rfl
    exact OrderedMap.mem_keySet.mpr (OrderedMap.contains_iff.mpr ⟨shares, hp⟩)

end Profile

/-- Operators that take one result and differ at most in how they identify variables. -/
inductive Operator.Counterpart : Operator α → Operator α → Prop
  | expand (base : String) (direction : Direction) (relationship : String) (types : TypeSet)
      (target : String) :
      Counterpart (.expand base direction relationship types target)
        (.expand base direction relationship types target)
  | selectLabel (v : String) (label : LabelId) :
      Counterpart (.selectLabel v label) (.selectLabel v label)
  | identify (staying leaving : String) :
      Counterpart (.mergeOn staying leaving) (.selfJoin staying leaving)

variable {db : Database ℚ} {L : LabelId} {p p' r left left' right right' : Profile ℚ}

/-! ### Results without matches -/

section Void

theorem selectLabel_void (h : p.Void p') (v : String) (label : LabelId) :
    Outcome.Agree (Profile.Matched L) (selectLabel db v label p) (selectLabel db v label p') := by
  refine (h.labels_agree v).bind (fun shares shares' _ _ hv => ?_)
  have hinsert : ∀ s, (p.nodes.insert v s).keySet = p.nodes.keySet := by
    intro s
    rw [OrderedMap.keySet_insert, hv]
  have hinsert' : ∀ s, (p'.nodes.insert v s).keySet = p.nodes.keySet := by
    intro s
    rw [OrderedMap.keySet_insert, h.nodes, hv]
  have hzero : ∀ x, p.size * x = 0 ∧ p'.size * x = 0 := by
    intro x
    rw [h.size, h.size', zero_mul]
    exact ⟨rfl, rfl⟩
  dsimp only
  split <;> split
  · exact Profile.make_void h.nodes h.relationships rfl rfl
  · exact Profile.make_void (hinsert' _) h.relationships rfl (hzero _).2
  · exact Profile.make_void (h.nodes.trans (hinsert _).symm) h.relationships (hzero _).1 rfl
  · exact Profile.make_void ((hinsert' _).trans (hinsert _).symm) h.relationships (hzero _).1
      (hzero _).2

theorem fromResult_zero (t : Traversal ℚ) (base : LabelShares ℚ)
    (target : Option (LabelShares ℚ)) : (t.fromResult 0 base target).size = 0 := by
  rw [size_fromResult, zero_mul]

theorem expand_void (h : p.Void p') (base : String) (direction : Direction) (relationship : String)
    (types : TypeSet) (target : String) :
    Outcome.Agree (Profile.Matched L) (expand db base direction relationship types target p)
      (expand db base direction relationship types target p') := by
  refine (h.labels_agree base).bind (fun shares shares' _ _ hbase => ?_)
  have hbound : p'.isRelationship relationship = p.isRelationship relationship := by
    rw [Profile.isRelationship, h.relationships, Profile.isRelationship]
  simp only [hbound, h.initial, h.initial', h.size, h.size', h.relationships, Bool.false_eq_true,
    if_false]
  split
  · exact .error _
  · refine Profile.make_void ?_ rfl (fromResult_zero _ _ _) (fromResult_zero _ _ _)
    simp only [OrderedMap.keySet_insert, h.nodes]

/-- Without matches it does not matter how variables are identified. -/
theorem identified_void (h : p.Void p') (staying leaving : String) (shares shares' : LabelShares ℚ)
    (factor factor' : ℚ) :
    Outcome.Agree (Profile.Matched L) (identified p staying leaving shares factor)
      (identified p' staying leaving shares' factor') := by
  refine Profile.make_void ?_ h.relationships ?_ ?_
  · simp only [OrderedMap.keySet_insert, OrderedMap.keySet_erase, h.nodes]
  · rw [h.size, zero_mul]
  · rw [h.size', zero_mul]

theorem mergeOn_selfJoin_void (h : p.Void p') (staying leaving : String) :
    Outcome.Agree (Profile.Matched L) (mergeOn db staying leaving p)
      (selfJoin db staying leaving p') := by
  rw [mergeOn, selfJoin]
  split
  · exact .error _
  · refine (h.labels_agree staying).bind (fun _ _ _ _ _ => ?_)
    exact (h.labels_agree leaving).bind (fun _ _ _ _ _ => identified_void h _ _ _ _ _ _)

theorem keySet_joinedNodes (left right : OrderedMap String (LabelShares ℚ)) :
    (joinedNodes db left right).1.keySet = left.keySet.union right.keySet := by
  refine OrderedSet.ext (fun v => ?_)
  rw [OrderedMap.mem_keySet, contains_joinedNodes, OrderedSet.mem_union, OrderedMap.mem_keySet,
    OrderedMap.mem_keySet]

theorem join_void (hleft : left'.nodes.keySet = left.nodes.keySet)
    (hright : right'.nodes.keySet = right.nodes.keySet)
    (hl : left'.relationships = left.relationships)
    (hr : right'.relationships = right.relationships)
    (hsize : left.size * right.size = 0) (hsize' : left'.size * right'.size = 0) :
    Outcome.Agree (Profile.Matched L) (join db left right) (join db left' right') := by
  have hnodes : (joinedNodes db left'.nodes right'.nodes).1.keySet =
      (joinedNodes db left.nodes right.nodes).1.keySet := by
    rw [keySet_joinedNodes, keySet_joinedNodes, hleft, hright]
  refine Profile.make_void hnodes ?_ ?_ ?_
  · rw [hl, hr]
  · rw [hsize, zero_mul]
  · rw [hsize', zero_mul]

end Void

/-! ### Results with matches -/

section Certain

variable (h : db.Uniform L)

include h

theorem scan_certain {v : String} (hscan : scan db v = .ok r) : r.Certain L := by
  have hshare : (if 0 < db.total then db.nodes L / db.total else 0) = 1 := by
    rw [if_pos h.total_pos, h.nodes, div_self h.total_pos.ne']
  rw [scan_eq_ok hscan]
  refine ⟨h.total_pos, fun w shares hw => ?_⟩
  exact (OrderedMap.eq_of_get?_singleton hw).2.trans (h.tabulate_certain hshare)

theorem selectLabel_certain (hp : p.Certain L) {v : String} {label : LabelId}
    (hselect : selectLabel db v label p = .ok r) : r.Matched L r := by
  obtain ⟨shares, hshares, rfl⟩ := selectLabel_eq_ok hselect
  rw [hp.nodes v shares hshares, LabelShares.of_certain]
  by_cases hlabel : label = L
  · subst hlabel
    rw [if_pos rfl, if_neg (not_le.mpr zero_lt_one), h.narrowed_certain, mul_one]
    exact .certain ⟨hp.size_pos, hp.nodes.insert v⟩
  · rw [if_neg hlabel, if_pos le_rfl]
    exact Profile.matched_of_size_eq_zero rfl rfl

theorem expand_certain (hone : 1 ≤ db.total) (hp : p.Certain L) {base relationship target : String}
    {direction : Direction} {types : TypeSet}
    (hexpand : expand db base direction relationship types target p = .ok r) : r.Matched L r := by
  obtain ⟨shares, hshares, rfl⟩ := expand_eq_ok hexpand
  have hreached : (reached ⟨db, types, direction⟩ target shares p).Certain L := by
    rw [hp.nodes base shares hshares, reached]
    split
    · exact h.fromAllNodes_certain types direction _
    · exact h.fromResult_certain types direction hone hp.size_pos (fun s hs => hp.nodes target s hs)
  rcases hreached with hnone | ⟨hsize, hbase, htarget⟩
  · exact Profile.matched_of_size_eq_zero hnone rfl
  · rw [hbase, htarget]
    exact .certain ⟨hsize, (hp.nodes.insert base).insert target⟩

/-- With matches, both ways to identify variables are the same. -/
theorem mergeOn_eq_selfJoin (hone : 1 ≤ db.total) (hp : p.Certain L) (staying leaving : String) :
    mergeOn db staying leaving p = selfJoin db staying leaving p := by
  rw [mergeOn, selfJoin]
  split
  · rfl
  · cases hs : p.labels staying with
    | error f => rfl
    | ok s =>
      cases hl : p.labels leaving with
      | error f => rfl
      | ok l =>
        rw [hp.nodes staying s (Profile.labels_eq_ok.mp hs),
          hp.nodes leaving l (Profile.labels_eq_ok.mp hl)]
        simp only [bind, Except.bind, h.mergeFactor_certain, h.partitionFactor_certain,
          h.mergedShares_certain hone, smallerShares_certain]

theorem selfJoin_certain (hp : p.Certain L) {staying leaving : String}
    (hjoin : selfJoin db staying leaving p = .ok r) : r.Certain L := by
  obtain ⟨s, l, hs, hl, hjoin⟩ := selfJoin_eq_ok hjoin
  rw [identified_eq_ok hjoin, hp.nodes staying s hs, hp.nodes leaving l hl,
    h.partitionFactor_certain, smallerShares_certain]
  exact ⟨mul_pos hp.size_pos (one_div_pos.mpr h.total_pos), (hp.nodes.erase leaving).insert staying⟩

theorem join_certain (hl : left.Certain L) (hr : right.Certain L)
    (hjoin : join db left right = .ok r) : r.Certain L := by
  rw [join_eq_ok hjoin]
  refine ⟨mul_pos (mul_pos hl.size_pos hr.size_pos) ?_, hl.nodes.joinedNodes h hr.nodes⟩
  rw [matchProbability]
  split
  · exact zero_lt_one
  · next hshared =>
    rw [if_pos h.total_pos]
    exact div_pos (Nat.cast_pos.mpr (Nat.pos_of_ne_zero hshared)) h.total_pos

end Certain

/-! ### Operators and expressions -/

section Matched

variable (h : db.Uniform L)

include h

theorem join_matched (hl : left.Matched L left') (hr : right.Matched L right') :
    Outcome.Agree (Profile.Matched L) (join db left right) (join db left' right') := by
  cases hl with
  | certain hl =>
    cases hr with
    | certain hr => exact Outcome.agree_self (fun r hr' => .certain (join_certain h hl hr hr'))
    | void hr =>
      refine join_void rfl hr.nodes rfl hr.relationships ?_ ?_
      · rw [hr.size, mul_zero]
      · rw [hr.size', mul_zero]
  | void hl =>
    have hnodes : right'.nodes.keySet = right.nodes.keySet := by
      cases hr with
      | certain => rfl
      | void hr => exact hr.nodes
    have hrelationships : right'.relationships = right.relationships := by
      cases hr with
      | certain => rfl
      | void hr => exact hr.relationships
    refine join_void hl.nodes hnodes hl.relationships hrelationships ?_ ?_
    · rw [hl.size, zero_mul]
    · rw [hl.size', zero_mul]

variable [Statistics.NumberHash ℚ] (hone : 1 ≤ db.total)

include hone

/-- Operators that correspond have results that match on results that do. -/
theorem compute_matched {op op' : Operator ℚ} (hop : op.Counterpart op') (hp : p.Matched L p') :
    Outcome.Agree (Profile.Matched L) (op.compute db [p]) (op'.compute db [p']) := by
  cases hp with
  | certain hp =>
    cases hop with
    | expand => exact Outcome.agree_self (fun r hr => expand_certain h hone hp hr)
    | selectLabel => exact Outcome.agree_self (fun r hr => selectLabel_certain h hp hr)
    | identify staying leaving =>
      change Outcome.Agree _ (mergeOn db staying leaving p) (selfJoin db staying leaving p)
      rw [mergeOn_eq_selfJoin h hone hp]
      exact Outcome.agree_self (fun r hr => .certain (selfJoin_certain h hp hr))
  | void hp =>
    cases hop with
    | expand => exact expand_void hp _ _ _ _ _
    | selectLabel => exact selectLabel_void hp _ _
    | identify => exact mergeOn_selfJoin_void hp _ _

end Matched

end PatternCardinality.Estimate
