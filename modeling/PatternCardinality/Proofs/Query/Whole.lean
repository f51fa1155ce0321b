import PatternCardinality.Proofs.Pattern.Printing
import PatternCardinality.Proofs.Pattern.Restriction
import PatternCardinality.Proofs.Query.Part
import PatternCardinality.Proofs.Query.WellFormed

/-!
# Parts with all node variables

The parts of a query with fewer node variables than the query has are restrictions to connected sets
of names, so their patterns hang together. The part with all node variables is not enumerated but is
the query as it stands: it hangs together if the query does, and then only. For a query whose
predicates all have their owners it is the restriction to all names too.
-/

namespace PatternCardinality

/-- Relationships between its node variables link all of them. -/
def Pattern.Coherent (p : Pattern) : Prop := Connected p.ends (OrderedSet.ofList p.names)

/-- Relationships lead from one node variable to another, so all of them count. -/
theorem Pattern.Proper.coherent_iff {p : Pattern} (h : p.Proper) :
    p.Coherent ↔ ∀ v ∈ p.names, ∀ w ∈ p.names, Linked p.ends v w := by
  have hends : inside p.ends (OrderedSet.ofList p.names) = p.ends := by
    refine List.filter_eq_self.mpr (fun e he => ?_)
    obtain ⟨r, hr, rfl⟩ := List.mem_map.mp he
    simp [OrderedSet.mem_ofList, h.source_mem r hr, h.target_mem r hr]
  simp only [Coherent, Connected, hends, OrderedSet.mem_ofList]

namespace Query

open Pattern

section Restricted

variable {α : Type} {q : Query α} {s : OrderedSet String}

theorem pattern_restrictedTo (q : Query α) (s : OrderedSet String) :
    (q.restrictedTo s).pattern = q.pattern.restrict s.toList := by
  simp [restrictedTo, restrict, OrderedSet.mem_toList]

theorem ends_restrictedTo (q : Query α) (s : OrderedSet String) :
    (q.restrictedTo s).pattern.ends = inside q.pattern.ends s := by
  rw [pattern_restrictedTo, inside, ends, ends, List.filter_map]
  rfl

theorem mem_names_restrictedTo {v : String} :
    v ∈ (q.restrictedTo s).pattern.names ↔ v ∈ q.pattern.names ∧ v ∈ s := by
  rw [pattern_restrictedTo, names_restrict, List.mem_filter, decide_eq_true_iff,
    OrderedSet.mem_toList]

variable (hsub : ∀ v ∈ s, v ∈ q.pattern.names)

include hsub

theorem length_restrictedTo (hnodup : q.pattern.names.Nodup) :
    (q.restrictedTo s).pattern.nodes.length = s.size := by
  have hperm : (q.restrictedTo s).pattern.names.Perm s.toList := by
    refine (List.perm_ext_iff_of_nodup ?_ s.nodup_toList).mpr (fun v => ?_)
    · rw [pattern_restrictedTo, names_restrict]
      exact hnodup.filter _
    · exact mem_names_restrictedTo.trans (and_iff_right_of_imp (hsub v))
  rw [OrderedSet.size, ← hperm.length_eq, names, List.length_map]

/-- A restriction hangs together if the set of its names is connected. -/
theorem coherent_restrictedTo :
    (q.restrictedTo s).pattern.Coherent ↔ Connected q.pattern.ends s := by
  have hnames : OrderedSet.ofList (q.restrictedTo s).pattern.names = s := by
    refine OrderedSet.ext (fun v => ?_)
    rw [OrderedSet.mem_ofList, mem_names_restrictedTo]
    exact and_iff_right_of_imp (hsub v)
  have hends : inside (inside q.pattern.ends s) s = inside q.pattern.ends s := by
    simp [inside, List.filter_filter]
  rw [Coherent, hnames, ends_restrictedTo, Connected, Connected, hends]

end Restricted

section Sizes

variable {α : Type} {q : Query α} {k : ℕ}

theorem length_sortedNames (q : Query α) : q.sortedNames.length = q.pattern.nodes.length := by
  rw [q.sortedNames_perm.length_eq, names, List.length_map]

/-- With all node variables there is one part, the query itself. -/
theorem parts_length (h : q.pattern.nodes ≠ []) : q.parts q.pattern.nodes.length = [q] := by
  have hpos := List.length_pos_iff.mpr h
  rw [parts, length_sortedNames, if_neg (by omega), if_pos rfl]

/-- With fewer node variables, the parts are restrictions to connected sets of names. -/
theorem exists_connected_of_mem_parts (hnodup : q.pattern.names.Nodup)
    (hk : k ≠ q.pattern.nodes.length) {p : Query α} (hp : p ∈ q.parts k) :
    ∃ s, p = q.restrictedTo s ∧ s.size = k ∧ (∀ v ∈ s, v ∈ q.pattern.names) ∧
      Connected q.pattern.ends s := by
  have hnames := increasing_sortedNames hnodup
  have hperm := q.sortedNames_perm
  have hedges := fun i j =>
    mem_placedEdges (q := q) (hperm.nodup_iff.mpr hnodup) (i := i) (j := j)
  have hinside : ∀ e ∈ q.placedEdges q.sortedNames,
      e.1 < q.sortedNames.length ∧ e.2 < q.sortedNames.length := by
    rintro ⟨i, j⟩ he
    obtain ⟨v, w, hv, hw, -⟩ := (hedges i j).mp he
    exact ⟨(List.getElem?_eq_some_iff.mp hv).1, (List.getElem?_eq_some_iff.mp hw).1⟩
  rw [parts, length_sortedNames, if_neg hk] at hp
  split at hp
  · cases hp
  · next hsize =>
    obtain ⟨t, ht, rfl⟩ := List.mem_map.mp hp
    rw [← length_sortedNames] at ht
    obtain ⟨hcard, hmem, hconnected⟩ := (mem_connectedSets_iff hinside (by omega)).mp ht
    refine ⟨namesAt q.sortedNames t, rfl, by rw [size_namesAt hnames hmem, hcard],
      fun v hv => ?_, (connected_namesAt hnames hedges hmem).mpr hconnected⟩
    obtain ⟨i, -, hi⟩ := (mem_namesAt hmem).mp hv
    exact hperm.mem_iff.mp (List.mem_of_getElem? hi)

theorem eq_of_mem_parts_length {p : Query α} (hp : p ∈ q.parts q.pattern.nodes.length) :
    p = q := by
  rw [parts, length_sortedNames, if_pos rfl] at hp
  split at hp
  · cases hp
  · exact List.mem_singleton.mp hp

theorem length_of_mem_parts (hnodup : q.pattern.names.Nodup) {p : Query α} (hp : p ∈ q.parts k) :
    p.pattern.nodes.length = k := by
  by_cases hk : k = q.pattern.nodes.length
  · subst hk
    rw [eq_of_mem_parts_length hp]
  · obtain ⟨s, rfl, hsize, hsub, -⟩ := exists_connected_of_mem_parts hnodup hk hp
    rw [length_restrictedTo hsub hnodup, hsize]

/-- Only the part with all node variables can fall apart, and only if the query does. -/
theorem coherent_parts_iff (hnodup : q.pattern.names.Nodup) :
    (∀ p ∈ q.parts k, p.pattern.Coherent) ↔
      (k = q.pattern.nodes.length → q.pattern.Coherent) := by
  constructor
  · rintro h rfl
    by_cases hnodes : q.pattern.nodes = []
    · intro v hv
      simp [OrderedSet.mem_ofList, names, hnodes] at hv
    · exact h q (by rw [parts_length hnodes, List.mem_singleton])
  · intro h p hp
    by_cases hk : k = q.pattern.nodes.length
    · subst hk
      rw [eq_of_mem_parts_length hp]
      exact h rfl
    · obtain ⟨s, rfl, -, hsub, hconnected⟩ := exists_connected_of_mem_parts hnodup hk hp
      exact (coherent_restrictedTo hsub).mpr hconnected

end Sizes

section Composed

/-- Relationships lead from one node variable to another, and every predicate has its owner. -/
structure Grounded {α : Type} (q : Query α) : Prop where
  pattern : q.pattern.Proper
  nodeOwner : ∀ owner, q.nodePredicates.contains owner = true → owner ∈ q.pattern.names
  relationshipOwner : ∀ owner, q.relationshipPredicates.contains owner = true →
    ∃ r ∈ q.pattern.relationships, r.name = owner

/-- Queries that are read, or made of a pattern to which node variables and relationships were
added, with predicates added later, and parts of such queries. -/
inductive Composed : Query Float → Prop
  | parsed {pattern conditions q} (read : Query.parse pattern conditions = .ok q) : Composed q
  | ofAdditions (additions : List Addition) : Composed (ofPattern (Pattern.ofAdditions additions))
  | nodePredicate {q q' name property predicate} (before : Composed q)
      (added : q.addNodePredicate name property predicate = .ok q') : Composed q'
  | relationshipPredicate {q q' name property predicate} (before : Composed q)
      (added : q.addRelationshipPredicate name property predicate = .ok q') : Composed q'
  | part {q k p} (whole : Composed q) (mem : p ∈ q.parts k) : Composed p

namespace Grounded

variable {α : Type} {q q' : Query α}

theorem ofPattern {p : Pattern} (h : p.Proper) : (ofPattern p : Query α).Grounded :=
  ⟨h, fun _ howner => by simp [Query.ofPattern, OrderedMap.contains] at howner,
    fun _ howner => by simp [Query.ofPattern, OrderedMap.contains] at howner⟩

theorem restrictedTo (h : q.Grounded) (s : OrderedSet String) : (q.restrictedTo s).Grounded := by
  have hpart := restrictedTo_part q s
  refine ⟨pattern_restrictedTo q s ▸ h.pattern.restrict s.toList, fun owner howner => ?_,
    fun owner howner => ?_⟩
  · obtain ⟨v, hv⟩ := OrderedMap.contains_iff.mp howner
    rw [hpart.nodePredicates] at hv
    split at hv
    · next hmem =>
      have howner := h.nodeOwner owner (OrderedMap.contains_iff.mpr ⟨v, hv⟩)
      exact mem_names_restrictedTo.mpr ⟨howner, hmem⟩
    · cases hv
  · obtain ⟨v, hv⟩ := OrderedMap.contains_iff.mp howner
    rw [hpart.relationshipPredicates] at hv
    split at hv
    · next hmem => exact List.mem_map.mp hmem
    · cases hv

variable [Scalar α] {name property : String} {predicate : Predicate α}

theorem addNodePredicate (h : q.Grounded)
    (hadd : q.addNodePredicate name property predicate = .ok q') : q'.Grounded := by
  obtain ⟨hname, table, htable, rfl⟩ := addNodePredicate_eq_ok hadd
  refine ⟨h.pattern, fun owner howner => ?_, h.relationshipOwner⟩
  rcases (contains_added htable owner).mp howner with rfl | howner
  · exact hname
  · exact h.nodeOwner owner howner

theorem addRelationshipPredicate (h : q.Grounded)
    (hadd : q.addRelationshipPredicate name property predicate = .ok q') : q'.Grounded := by
  obtain ⟨hname, table, htable, rfl⟩ := addRelationshipPredicate_eq_ok hadd
  refine ⟨h.pattern, h.nodeOwner, fun owner howner => ?_⟩
  rcases (contains_added htable owner).mp howner with rfl | howner
  · exact hname
  · exact h.relationshipOwner owner howner

end Grounded

theorem Composed.grounded {q : Query Float} (h : q.Composed) : q.Grounded := by
  induction h with
  | parsed read =>
    have hq := proper_of_parse read
    exact ⟨hq.pattern, hq.nodeOwner, hq.relationshipOwner⟩
  | ofAdditions additions => exact .ofPattern (proper_ofAdditions additions)
  | nodePredicate _ added ih => exact ih.addNodePredicate added
  | relationshipPredicate _ added ih => exact ih.addRelationshipPredicate added
  | @part q k p _ mem ih =>
    by_cases hk : k = q.pattern.nodes.length
    · subst hk
      rwa [eq_of_mem_parts_length mem]
    · obtain ⟨s, rfl, -⟩ := exists_connected_of_mem_parts ih.pattern.distinct hk mem
      exact ih.restrictedTo s

variable {α : Type} {q : Query α}

/-- Restricting a query to all its node variables takes nothing away. -/
theorem Grounded.restrictedTo_names (h : q.Grounded) :
    q.restrictedTo (OrderedSet.ofList q.pattern.names) = q := by
  have hpart := restrictedTo_part q (OrderedSet.ofList q.pattern.names)
  have hnodes : (q.restrictedTo (OrderedSet.ofList q.pattern.names)).pattern.nodes =
      q.pattern.nodes := by
    rw [hpart.nodes, List.filter_eq_self]
    intro n hn
    simpa [OrderedSet.mem_ofList, names] using ⟨n, hn, rfl⟩
  have hrelationships :
      (q.restrictedTo (OrderedSet.ofList q.pattern.names)).pattern.relationships =
        q.pattern.relationships := by
    rw [hpart.relationships, List.filter_eq_self]
    intro r hr
    simp [OrderedSet.mem_ofList, h.pattern.source_mem r hr, h.pattern.target_mem r hr]
  have hnodePredicates : (q.restrictedTo (OrderedSet.ofList q.pattern.names)).nodePredicates =
      q.nodePredicates := by
    refine OrderedMap.ext (fun owner => ?_)
    rw [hpart.nodePredicates, ite_eq_left_iff]
    intro hmem
    by_contra howner
    exact hmem (OrderedSet.mem_ofList.mpr (h.nodeOwner owner (Option.isSome_iff_ne_none.mpr
      (Ne.symm howner))))
  have hrelationshipPredicates :
      (q.restrictedTo (OrderedSet.ofList q.pattern.names)).relationshipPredicates =
        q.relationshipPredicates := by
    refine OrderedMap.ext (fun owner => ?_)
    rw [hpart.relationshipPredicates, ite_eq_left_iff, hrelationships]
    intro hmem
    by_contra howner
    exact hmem (List.mem_map.mpr (h.relationshipOwner owner (Option.isSome_iff_ne_none.mpr
      (Ne.symm howner))))
  generalize q.restrictedTo (OrderedSet.ofList q.pattern.names) = q' at *
  obtain ⟨⟨nodes, relationships⟩, nodePredicates, relationshipPredicates⟩ := q'
  subst hnodes hrelationships hnodePredicates hrelationshipPredicates
  rfl

end Composed

/-- All parts of a query hang together but the one with all node variables, which does so exactly if
the query does. This part is the query itself and, if the query was composed, its restriction to all
node variables. -/
theorem parts_coherent {q : Query Float} (h : q.pattern.names.Nodup) :
    (∀ k, (∀ p ∈ q.parts k, p.pattern.nodes.length = k) ∧
      ((∀ p ∈ q.parts k, p.pattern.Coherent) ↔
        (k = q.pattern.nodes.length → q.pattern.Coherent))) ∧
      (q.pattern.nodes ≠ [] → q.parts q.pattern.nodes.length = [q]) ∧
      (q.Composed → q.restrictedTo (OrderedSet.ofList q.pattern.names) = q) :=
  ⟨fun _ => ⟨fun _ hp => length_of_mem_parts h hp, coherent_parts_iff h⟩, parts_length,
    fun hq => hq.grounded.restrictedTo_names⟩

/-- A query that falls apart: the variable apart from the triangle has a predicate. -/
def apart : Query Float :=
  ⟨tailed, OrderedMap.ofList [("e", OrderedMap.ofList [("age", .text "old")])], ∅⟩

theorem composed_apart : apart.Composed :=
  .nodePredicate (.ofAdditions [.relationship "c" none .outgoing "a",
    .relationship "a" none .both "b", .relationship "b" none .incoming "c",
    .relationship "c" none .outgoing "d", .node "e" []])
    (show (ofPattern tailed).addNodePredicate "e" "age" (.text "old") = .ok apart from rfl)

theorem not_coherent_tailed : ¬tailed.Coherent := by
  intro h
  have hproper : tailed.Proper := composed_apart.grounded.pattern
  have hlinked := hproper.coherent_iff.mp h "a" (by decide) "e" (by decide)
  have hsides := hlinked.eq_of_edges (fun v => decide (v = "e")) (fun v w hvw =>
    (by decide : ∀ e ∈ tailed.ends, decide (e.1 = "e") = decide (e.2 = "e")) (v, w) hvw)
  exact absurd hsides (by decide)

theorem parts_coherent_of_apart :
    apart.pattern.names.Nodup ∧ apart.Composed ∧
      (∀ p ∈ apart.parts 3, p.pattern.nodes.length = 3 ∧ p.pattern.Coherent) ∧
      ¬(∀ p ∈ apart.parts 5, p.pattern.Coherent) ∧ apart.parts 5 = [apart] ∧
      apart.restrictedTo (OrderedSet.ofList apart.pattern.names) = apart := by
  have hnodup : apart.pattern.names.Nodup := by decide
  obtain ⟨hall, hwhole, hrestricted⟩ := parts_coherent hnodup
  refine ⟨hnodup, composed_apart, fun p hp => ⟨(hall 3).1 p hp, ?_⟩, fun h => ?_,
    hwhole (by decide), hrestricted composed_apart⟩
  · exact (hall 3).2.mpr (fun h => absurd h (by decide)) p hp
  · exact not_coherent_tailed ((hall 5).2.mp h rfl)

/-- Not all parts hang together: two variables without a relationship are a part of themselves. -/
theorem parts_fall_apart : ¬∀ q : Query Float, q.pattern.names.Nodup →
    ∀ k, ∀ p ∈ q.parts k, p.pattern.Coherent := by
  intro h
  have hcoherent := h (ofPattern ((Pattern.empty.addNode "a" []).addNode "b" [])) (by decide) 2 _
    (List.mem_singleton.mpr rfl)
  have hlinked := hcoherent "a" (by decide) "b" (by decide)
  exact absurd (hlinked.eq_of_edges id (fun v w hvw => by cases hvw)) (by decide)

end Query

end PatternCardinality
