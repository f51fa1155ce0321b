import PatternCardinality.Proofs.Ordered.Map
import PatternCardinality.Proofs.Pattern.Built
import PatternCardinality.Query.Condition

/-!
# Well-formed queries

Queries that are read from texts, or made of a built pattern by adding predicates, have a proper
pattern, and every predicate has its owner there.
-/

namespace PatternCardinality.Query

/-- Queries that were read, or made of a pattern that was built, with predicates added later. -/
inductive WellFormed : Query Float → Prop
  | parsed {pattern conditions q} (read : Query.parse pattern conditions = .ok q) : WellFormed q
  | ofPattern {p} (built : Pattern.Built p) (nodes : p.nodes ≠ []) : WellFormed (ofPattern p)
  | nodePredicate {q q' name property predicate} (before : WellFormed q)
      (added : q.addNodePredicate name property predicate = .ok q') : WellFormed q'
  | relationshipPredicate {q q' name property predicate} (before : WellFormed q)
      (added : q.addRelationshipPredicate name property predicate = .ok q') : WellFormed q'

/-- The pattern is proper and not empty, its names are free, and it has the owners of all
predicates. -/
structure Proper {α : Type} (q : Query α) : Prop where
  pattern : q.pattern.Proper
  nodes : q.pattern.nodes ≠ []
  free : ∀ v ∈ q.pattern.names, ¬Reserved v
  nodeOwner : ∀ owner, q.nodePredicates.contains owner = true → owner ∈ q.pattern.names
  relationshipOwner : ∀ owner, q.relationshipPredicates.contains owner = true →
    ∃ r ∈ q.pattern.relationships, r.name = owner

variable {α : Type}

theorem proper_ofPattern {p : Pattern} (h : p.Built) (hne : p.nodes ≠ []) :
    (ofPattern p : Query α).Proper :=
  ⟨h.proper, hne, h.not_reserved,
    fun _ howner => by simp [ofPattern, OrderedMap.contains] at howner,
    fun _ howner => by simp [ofPattern, OrderedMap.contains] at howner⟩

variable [Scalar α]

/-- An added predicate stands alone, or together with one that stood there before. -/
theorem added_eq_ok {table table' : OrderedMap String (Predicates α)} {owner property : String}
    {predicate : Predicate α} (h : added table owner property predicate = .ok table') :
    ∃ merged, table' = table.insert owner ((table.getD owner ∅).insert property merged) ∧
      (merged = predicate ∨ ∃ existing, (table.getD owner ∅).get? property = some existing ∧
        existing.merge predicate = .ok merged) := by
  simp only [added] at h
  split at h
  · next existing hexisting =>
    obtain ⟨merged, hmerged, h⟩ := Outcome.bind_eq_ok.mp h
    cases h
    exact ⟨merged, rfl, .inr ⟨existing, hexisting, hmerged⟩⟩
  · cases h
    exact ⟨predicate, rfl, .inl rfl⟩

/-- Only the owner of an added predicate can be new. -/
theorem contains_added {table table' : OrderedMap String (Predicates α)} {owner property : String}
    {predicate : Predicate α} (h : added table owner property predicate = .ok table')
    (other : String) :
    table'.contains other = true ↔ other = owner ∨ table.contains other = true := by
  obtain ⟨merged, rfl, -⟩ := added_eq_ok h
  exact OrderedMap.contains_insert

theorem contains_eq_true_iff {p : Pattern} {v : String} : p.contains v = true ↔ v ∈ p.names := by
  simp [Pattern.contains, Pattern.position?, Pattern.names]

theorem addNodePredicate_eq_ok {q q' : Query α} {name property : String}
    {predicate : Predicate α} (h : q.addNodePredicate name property predicate = .ok q') :
    name ∈ q.pattern.names ∧ ∃ table, added q.nodePredicates name property predicate = .ok table ∧
      q' = { q with nodePredicates := table } := by
  rw [Query.addNodePredicate] at h
  split at h
  · next hname =>
    obtain ⟨table, htable, h⟩ := Outcome.bind_eq_ok.mp h
    cases h
    exact ⟨contains_eq_true_iff.mp hname, table, htable, rfl⟩
  · cases h

theorem addRelationshipPredicate_eq_ok {q q' : Query α} {name property : String}
    {predicate : Predicate α} (h : q.addRelationshipPredicate name property predicate = .ok q') :
    (∃ r ∈ q.pattern.relationships, r.name = name) ∧
      ∃ table, added q.relationshipPredicates name property predicate = .ok table ∧
        q' = { q with relationshipPredicates := table } := by
  rw [Query.addRelationshipPredicate] at h
  split at h
  · next hname =>
    obtain ⟨table, htable, h⟩ := Outcome.bind_eq_ok.mp h
    cases h
    exact ⟨by simpa using hname, table, htable, rfl⟩
  · cases h

theorem Proper.addNodePredicate {q q' : Query α} (h : q.Proper) {name property : String}
    {predicate : Predicate α} (hadd : q.addNodePredicate name property predicate = .ok q') :
    q'.Proper := by
  obtain ⟨hname, table, htable, rfl⟩ := addNodePredicate_eq_ok hadd
  refine ⟨h.pattern, h.nodes, h.free, ?_, h.relationshipOwner⟩
  intro owner howner
  rcases (contains_added htable owner).mp howner with rfl | howner
  · exact hname
  · exact h.nodeOwner owner howner

theorem Proper.addRelationshipPredicate {q q' : Query α} (h : q.Proper) {name property : String}
    {predicate : Predicate α}
    (hadd : q.addRelationshipPredicate name property predicate = .ok q') : q'.Proper := by
  obtain ⟨hname, table, htable, rfl⟩ := addRelationshipPredicate_eq_ok hadd
  refine ⟨h.pattern, h.nodes, h.free, h.nodeOwner, ?_⟩
  intro owner howner
  rcases (contains_added htable owner).mp howner with rfl | howner
  · exact hname
  · exact h.relationshipOwner owner howner

theorem Proper.addCondition {q q' : Query Float} (h : q.Proper) {owner property : String}
    {v : PropertyValue} (hadd : q.addCondition owner property v = .ok q') : q'.Proper := by
  obtain ⟨predicate, -, hadd⟩ := Outcome.bind_eq_ok.mp hadd
  split at hadd
  · exact h.addNodePredicate hadd
  · exact h.addRelationshipPredicate hadd

/-- What holds of the pattern alone and is kept by every condition holds of a query that is read. -/
theorem parse_invariant {P : Query Float → Prop} {pattern : String} {conditions : Option String}
    {q : Query Float} (h : Query.parse pattern conditions = .ok q)
    (base : ∀ p, (Pattern.parse pattern : Except (Failure Float) _) = .ok p → P (ofPattern p))
    (step : ∀ q owner property v q', P q → q.addCondition owner property v = .ok q' → P q') :
    P q := by
  obtain ⟨p, hp, h⟩ := Outcome.bind_eq_ok.mp h
  cases conditions with
  | none =>
    cases h
    exact base p hp
  | some s =>
    obtain ⟨all, -, h⟩ := Outcome.bind_eq_ok.mp h
    refine Outcome.foldlM_invariant (P := P) (fun q owner q' _ hq hq' => ?_) (base p hp) h
    exact Outcome.foldlM_invariant (P := P) (fun q p q' _ hq hq' => step q _ _ _ q' hq hq') hq hq'

theorem proper_of_parse {pattern : String} {conditions : Option String} {q : Query Float}
    (h : Query.parse pattern conditions = .ok q) : q.Proper := by
  refine parse_invariant h (fun p hp => ?_) (fun _ _ _ _ _ hq hadd => hq.addCondition hadd)
  obtain ⟨hbuilt, hne⟩ := Pattern.parse_built hp
  exact proper_ofPattern hbuilt hne

theorem WellFormed.proper {q : Query Float} (h : q.WellFormed) : q.Proper := by
  induction h with
  | parsed read => exact proper_of_parse read
  | ofPattern built nodes => exact proper_ofPattern built nodes
  | nodePredicate _ added ih => exact ih.addNodePredicate added
  | relationshipPredicate _ added ih => exact ih.addRelationshipPredicate added

end PatternCardinality.Query
