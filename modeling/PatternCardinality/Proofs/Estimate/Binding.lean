import Mathlib.Data.Set.Insert
import PatternCardinality.Estimate.Expression
import PatternCardinality.Proofs.Ordered.Map

/-!
# What operators bind

An operator fails only if it is used out of place: on a variable that is not bound, under a name
that is taken, without types or predicates. Each lemma gives the place in which an operator succeeds
and the variables that its result binds.
-/

namespace PatternCardinality.Estimate

variable {α : Type}

/-- The names that a result binds as node variables and as relationship variables, none both ways.
-/
structure Profile.Binds (p : Profile α) (nodes relationships : Set String) : Prop where
  isNode_iff : ∀ v, p.isNode v = true ↔ v ∈ nodes
  isRelationship_iff : ∀ v, p.isRelationship v = true ↔ v ∈ relationships
  apart : ∀ v ∈ nodes, v ∉ relationships

variable {p left right : Profile α} {N R N' R' : Set String}

theorem Profile.Binds.labels_eq (h : p.Binds N R) {v : String} (hv : v ∈ N) :
    ∃ shares, p.nodes.get? v = some shares ∧ p.labels v = .ok shares := by
  obtain ⟨shares, hs⟩ := OrderedMap.contains_iff.mp ((h.isNode_iff v).mpr hv)
  exact ⟨shares, hs, by simp [Profile.labels, hs]⟩

/-- Tables with apart keys make a result. -/
theorem Profile.make_binds {n : OrderedMap String (LabelShares α)} {r : OrderedMap String TypeSet}
    (hn : ∀ v, n.contains v = true ↔ v ∈ N) (hr : ∀ v, r.contains v = true ↔ v ∈ R)
    (hapart : ∀ v ∈ N, v ∉ R) (size : α) (initial : Bool) :
    Profile.make n r size initial = .ok ⟨n, r, size, initial⟩ ∧
      (⟨n, r, size, initial⟩ : Profile α).Binds N R := by
  have hnone : Profile.overlapping n r = [] := by
    refine List.filter_eq_nil_iff.mpr (fun v hv hboth => ?_)
    exact hapart v ((hn v).mp (OrderedMap.mem_keys_iff.mp hv)) ((hr v).mp hboth)
  refine ⟨?_, hn, hr, hapart⟩
  rw [Profile.make, hnone]

/-- To insert a key that is there already adds no key. -/
private theorem contains_insert_of_mem {ν : Type} {m : OrderedMap String ν} {S : Set String}
    (hm : ∀ w, m.contains w = true ↔ w ∈ S) {v : String} (hv : v ∈ S) (x : ν) (w : String) :
    (m.insert v x).contains w = true ↔ w ∈ S := by
  rw [OrderedMap.contains_insert, hm]
  exact or_iff_right_of_imp (fun hw => hw ▸ hv)

private theorem contains_insert_iff {ν : Type} {m : OrderedMap String ν} {S : Set String}
    (hm : ∀ w, m.contains w = true ↔ w ∈ S) (v : String) (x : ν) (w : String) :
    (m.insert v x).contains w = true ↔ w ∈ insert v S := by
  rw [OrderedMap.contains_insert, hm, Set.mem_insert_iff]

variable [Scalar α] (db : Database α)

theorem scan_binds (v : String) :
    ∃ p, scan db v = .ok p ∧ p.Binds {v} ∅ := by
  have hn : ∀ (shares : LabelShares α) (w : String),
      (OrderedMap.singleton v shares).contains w = true ↔ w ∈ ({v} : Set String) := by
    intro shares w
    exact OrderedMap.contains_singleton
  have hr : ∀ w, (∅ : OrderedMap String TypeSet).contains w = true ↔ w ∈ (∅ : Set String) := by
    simp [OrderedMap.contains]
  obtain ⟨hp, hb⟩ := Profile.make_binds (hn _) hr (fun _ _ => Set.notMem_empty _) db.total true
  exact ⟨_, hp, hb⟩

theorem selectLabel_binds (h : p.Binds N R) {v : String} (hv : v ∈ N) (label : LabelId) :
    ∃ p', selectLabel db v label p = .ok p' ∧ p'.Binds N R := by
  obtain ⟨shares, -, hs⟩ := h.labels_eq hv
  simp only [selectLabel, hs, bind, Except.bind]
  split
  · obtain ⟨hp, hb⟩ := Profile.make_binds h.isNode_iff h.isRelationship_iff h.apart 0 false
    exact ⟨_, hp, hb⟩
  · obtain ⟨hp, hb⟩ := Profile.make_binds (contains_insert_of_mem h.isNode_iff hv _)
      h.isRelationship_iff h.apart _ false
    exact ⟨_, hp, hb⟩

theorem expand_binds (h : p.Binds N R) {base e target : String} (hbase : base ∈ N) (he : e ∉ R)
    (hapart : ∀ v ∈ insert target N, v ∉ insert e R) (direction : Direction) (types : TypeSet) :
    ∃ p', expand db base direction e types target p = .ok p' ∧
      p'.Binds (insert target N) (insert e R) ∧ p'.types? e = some types := by
  obtain ⟨shares, -, hs⟩ := h.labels_eq hbase
  have hfree : p.isRelationship e = false := by
    rw [← Bool.not_eq_true, h.isRelationship_iff]
    exact he
  simp only [expand, hs, bind, Except.bind, hfree, Bool.false_eq_true, ↓reduceIte]
  obtain ⟨hp, hb⟩ := Profile.make_binds
    (contains_insert_iff (contains_insert_of_mem h.isNode_iff hbase _) target _)
    (contains_insert_iff h.isRelationship_iff e types) hapart _ false
  exact ⟨_, hp, hb, by simp [Profile.types?, OrderedMap.get?_insert]⟩

theorem selectTypes_binds (h : p.Binds N R) {e : String} (he : e ∈ R) (allowed : TypeSet) :
    ∃ p', selectTypes db e allowed p = .ok p' ∧ p'.Binds N R := by
  obtain ⟨types, htypes⟩ := OrderedMap.contains_iff.mp ((h.isRelationship_iff e).mpr he)
  simp only [selectTypes, Profile.types?, htypes]
  obtain ⟨hp, hb⟩ := Profile.make_binds h.isNode_iff
    (contains_insert_of_mem h.isRelationship_iff he _) h.apart _ false
  exact ⟨_, hp, hb⟩

/-- The keys that a fold adds, if each of its steps adds one. -/
private theorem contains_foldl {ν σ : Type} {v : String}
    {f : OrderedMap String ν × σ → String × ν → OrderedMap String ν × σ}
    (hf : ∀ s e, (f s e).1.contains v = true ↔ v = e.1 ∨ s.1.contains v = true)
    (l : List (String × ν)) (s : OrderedMap String ν × σ) :
    (l.foldl f s).1.contains v = true ↔ s.1.contains v = true ∨ v ∈ l.map Prod.fst := by
  induction l generalizing s with
  | nil => simp
  | cons e l ih =>
    rw [List.foldl_cons, ih, hf, List.map_cons, List.mem_cons]
    tauto

theorem contains_joinedNodes (left right : OrderedMap String (LabelShares α)) (v : String) :
    (joinedNodes db left right).1.contains v = true ↔
      left.contains v = true ∨ right.contains v = true := by
  refine (contains_foldl (fun s e => ?_) right.entries (left, 0)).trans
    (or_congr_right OrderedMap.mem_keys_iff)
  cases left.get? e.1 <;> exact OrderedMap.contains_insert

theorem join_binds (hl : left.Binds N R) (hr : right.Binds N' R')
    (hapart : ∀ v ∈ N ∪ N', v ∉ R ∪ R') :
    ∃ p', join db left right = .ok p' ∧ p'.Binds (N ∪ N') (R ∪ R') := by
  have hn : ∀ v, (joinedNodes db left.nodes right.nodes).1.contains v = true ↔ v ∈ N ∪ N' := by
    intro v
    rw [contains_joinedNodes, Set.mem_union]
    exact or_congr (hl.isNode_iff v) (hr.isNode_iff v)
  have hr' : ∀ v, (left.relationships.union right.relationships).contains v = true ↔
      v ∈ R ∪ R' := by
    intro v
    rw [OrderedMap.contains_union, Set.mem_union]
    exact or_congr (hl.isRelationship_iff v) (hr.isRelationship_iff v)
  obtain ⟨hp, hb⟩ := Profile.make_binds hn hr' hapart _ false
  exact ⟨_, hp, hb⟩

theorem identified_binds (h : p.Binds N R) {staying leaving : String} (hne : staying ≠ leaving)
    (hs : staying ∈ N) (shares : LabelShares α) (factor : α) :
    ∃ p', identified p staying leaving shares factor = .ok p' ∧ p'.Binds (N \ {leaving}) R := by
  have hn : ∀ w, (p.nodes.erase leaving).contains w = true ↔ w ∈ N \ {leaving} := by
    intro w
    rw [OrderedMap.contains_erase, Set.mem_sdiff, Set.mem_singleton_iff, and_comm]
    exact and_congr_left (fun _ => h.isNode_iff w)
  have hmem : staying ∈ N \ {leaving} := ⟨hs, by simpa using hne⟩
  obtain ⟨hp, hb⟩ := Profile.make_binds (contains_insert_of_mem hn hmem shares)
    h.isRelationship_iff (fun w hw => h.apart w hw.1) (p.size * factor) false
  exact ⟨_, hp, hb⟩

theorem mergeOn_binds (h : p.Binds N R) {staying leaving : String} (hne : staying ≠ leaving)
    (hs : staying ∈ N) (hl : leaving ∈ N) :
    ∃ p', mergeOn db staying leaving p = .ok p' ∧ p'.Binds (N \ {leaving}) R := by
  obtain ⟨_, -, hstaying⟩ := h.labels_eq hs
  obtain ⟨_, -, hleaving⟩ := h.labels_eq hl
  simp only [mergeOn, if_neg hne, hstaying, hleaving, bind, Except.bind]
  exact identified_binds h hne hs _ _

theorem selfJoin_binds (h : p.Binds N R) {staying leaving : String} (hne : staying ≠ leaving)
    (hs : staying ∈ N) (hl : leaving ∈ N) :
    ∃ p', selfJoin db staying leaving p = .ok p' ∧ p'.Binds (N \ {leaving}) R := by
  obtain ⟨_, -, hstaying⟩ := h.labels_eq hs
  obtain ⟨_, -, hleaving⟩ := h.labels_eq hl
  simp only [selfJoin, if_neg hne, hstaying, hleaving, bind, Except.bind]
  exact identified_binds h hne hs _ _

variable [Statistics.NumberHash α] {predicates : PropertyPredicates α}

theorem selectProperties_binds_node (h : p.Binds N R) {v : String} (hv : v ∈ N)
    (hpred : predicates.isEmpty = false) (fixed : Option α) :
    ∃ p', selectProperties db v predicates fixed p = .ok p' ∧ p'.Binds N R := by
  obtain ⟨shares, hshares, -⟩ := h.labels_eq hv
  simp only [selectProperties, hpred, Bool.false_eq_true, ↓reduceIte, hshares, selectNodes]
  generalize nodeReduction db shares predicates fixed = reduction
  obtain ⟨selectivity, kept⟩ := reduction
  by_cases hpos : 0 < selectivity
  · obtain ⟨hp, hb⟩ := Profile.make_binds (contains_insert_of_mem h.isNode_iff hv _)
      h.isRelationship_iff h.apart _ false
    simp only [if_pos hpos]
    exact ⟨_, hp, hb⟩
  · obtain ⟨hp, hb⟩ := Profile.make_binds h.isNode_iff h.isRelationship_iff h.apart _ false
    simp only [if_neg hpos]
    exact ⟨_, hp, hb⟩

theorem selectProperties_binds_relationship (h : p.Binds N R) {e : String} {types : TypeSet}
    (he : e ∈ R) (htypes : p.types? e = some types) (hne : types.isEmpty = false)
    (hpred : predicates.isEmpty = false) (fixed : Option α) :
    ∃ p', selectProperties db e predicates fixed p = .ok p' ∧ p'.Binds N R := by
  have hnode : p.nodes.get? e = none := by
    cases hget : p.nodes.get? e with
    | none => rfl
    | some shares =>
      have hn := (h.isNode_iff e).mp (OrderedMap.contains_iff.mpr ⟨shares, hget⟩)
      exact absurd he (h.apart e hn)
  simp only [selectProperties, hpred, Bool.false_eq_true, ↓reduceIte, hnode, htypes,
    selectRelationships, hne]
  obtain ⟨hp, hb⟩ := Profile.make_binds h.isNode_iff
    (contains_insert_of_mem h.isRelationship_iff he _) h.apart _ false
  exact ⟨_, hp, hb⟩

end PatternCardinality.Estimate
