import Mathlib.Data.List.Forall2
import Mathlib.Logic.Relator
import PatternCardinality.Proofs.Pattern.Built
import PatternCardinality.Query.Basic

/-!
# Patterns and queries under other names

Two patterns are the same but for names if their node variables and relationships correspond one by
one. Names tell variables apart and decide nothing else, so positions, labels and components of
corresponding patterns are equal.
-/

namespace PatternCardinality

variable {R : String → String → Prop}

/-- Node variables with corresponding names and the same labels. -/
structure NodeVariable.Renamed (R : String → String → Prop) (n n' : NodeVariable) : Prop where
  name : R n.name n'.name
  labels : n'.labels = n.labels

/-- Relationships of one kind between corresponding variables. -/
structure Relationship.Renamed (R : String → String → Prop) (r r' : Relationship) : Prop where
  source : R r.source r'.source
  target : R r.target r'.target
  type : r'.type = r.type
  directed : r'.directed = r.directed

theorem Relationship.Renamed.eq_mk {r r' : Relationship} (h : r.Renamed R r') :
    r' = ⟨r'.source, r'.target, r.type, r.directed⟩ := by
  rw [← h.type, ← h.directed]

namespace Pattern

/-- Patterns that agree but for how variables are called. -/
structure Renamed (R : String → String → Prop) (p p' : Pattern) : Prop where
  nodes : List.Forall₂ (NodeVariable.Renamed R) p.nodes p'.nodes
  relationships : List.Forall₂ (Relationship.Renamed R) p.relationships p'.relationships

namespace Renamed

variable {p p' : Pattern}

theorem names (h : p.Renamed R p') : List.Forall₂ R p.names p'.names :=
  List.rel_map (fun _ _ hn => hn.name) h.nodes

variable (hR : Relator.BiUnique R)

include hR

theorem position? (h : p.Renamed R p') {v v' : String} (hv : R v v') :
    p'.position? v' = p.position? v := by
  have hnodes := h.nodes
  rw [Pattern.position?, Pattern.position?]
  generalize p.nodes = nodes, p'.nodes = nodes' at hnodes
  induction hnodes with
  | nil => rfl
  | cons hn _ ih =>
    have hsame := Relator.rel_eq hR hn.name hv
    simp only [List.findIdx?_cons, hsame, ih]

theorem labels? (h : p.Renamed R p') {v v' : String} (hv : R v v') :
    p'.labels? v' = p.labels? v := by
  have hnodes := h.nodes
  rw [Pattern.labels?, Pattern.labels?]
  generalize p.nodes = nodes, p'.nodes = nodes' at hnodes
  induction hnodes with
  | nil => rfl
  | @cons n n' _ _ hn _ ih =>
    have hsame := Relator.rel_eq hR hn.name hv
    by_cases hname : n.name = v
    · have hname' := hsame.mp hname
      simp [hname, hname', hn.labels]
    · have hname' : n'.name ≠ v' := fun heq => hname (hsame.mpr heq)
      simpa [hname, hname'] using ih

omit hR in
/-- Every relationship of the renamed pattern is one of the pattern under other names. -/
theorem exists_relationship (h : p.Renamed R p') {r' : Relationship}
    (hr' : r' ∈ p'.relationships) : ∃ r ∈ p.relationships, r.Renamed R r' := by
  have hrelationships := h.relationships
  generalize p.relationships = l, p'.relationships = l' at hrelationships hr'
  induction hrelationships with
  | nil => cases hr'
  | cons hr _ ih =>
    rcases List.mem_cons.mp hr' with rfl | hr'
    · exact ⟨_, List.mem_cons_self, hr⟩
    · obtain ⟨s, hs, hrenamed⟩ := ih hr'
      exact ⟨s, List.mem_cons_of_mem _ hs, hrenamed⟩

/-- Relationships of a renamed pattern lead between its node variables if those of the pattern
do. -/
theorem proper (h : p.Renamed R p') (hp : p.Proper) : p'.Proper := by
  refine ⟨(List.rel_nodup hR h.names).mp hp.distinct, fun r' hr' => ?_, fun r' hr' => ?_⟩
  · obtain ⟨r, hr, hrenamed⟩ := h.exists_relationship hr'
    exact (List.rel_mem hR hrenamed.source h.names).mp (hp.source_mem r hr)
  · obtain ⟨r, hr, hrenamed⟩ := h.exists_relationship hr'
    exact (List.rel_mem hR hrenamed.target h.names).mp (hp.target_mem r hr)

variable {α : Type}

/-- Relationships have their ends at the same positions. -/
theorem edge (h : p.Renamed R p') (hp : p.Proper) {r r' : Relationship} (hr : r ∈ p.relationships)
    (hrr : r.Renamed R r') : (p'.edge r' : Except (Failure α) _) = p.edge r := by
  obtain ⟨i, -, hi, -⟩ := position?_of_mem (hp.source_mem r hr)
  obtain ⟨j, -, hj, -⟩ := position?_of_mem (hp.target_mem r hr)
  simp only [Pattern.edge, endpoint, h.position? hR hrr.source, h.position? hR hrr.target, hi, hj]

theorem components (h : p.Renamed R p') (hp : p.Proper) :
    (p'.components : Except (Failure α) _) = p.components := by
  have hmem : List.Forall₂ (fun r r' => r ∈ p.relationships ∧ r.Renamed R r') p.relationships
      p'.relationships := (List.forall₂_and_left _ _).mpr ⟨fun _ hr => hr, h.relationships⟩
  have hedges : p.relationships.mapM (p.edge (α := α)) = p'.relationships.mapM p'.edge :=
    Outcome.mapM_congr (hmem.imp (fun r r' hr => (h.edge hR hp hr.1 hr.2).symm))
  rw [Pattern.components, Pattern.components, hedges, h.nodes.length_eq]

omit hR in
/-- The same positions have corresponding names. -/
theorem named (h : p.Renamed R p') (positions : List ℕ) :
    List.Forall₂ R (p.named positions) (p'.named positions) := by
  have hname : ∀ i : ℕ, Option.Rel R ((p.nodes[i]?).map NodeVariable.name)
      ((p'.nodes[i]?).map NodeVariable.name) := by
    intro i
    have hnodes := h.nodes
    generalize p.nodes = nodes, p'.nodes = nodes' at hnodes
    induction hnodes generalizing i with
    | nil => exact .none
    | cons hn _ ih =>
      cases i with
      | zero => exact .some hn.name
      | succ i => simpa using ih i
  refine List.rel_filterMap (R := Eq) ?_ (List.forall₂_same.mpr (fun _ _ => rfl))
  rintro i _ rfl
  exact hname i

end Renamed

end Pattern

/-- Queries with patterns that agree but for how variables are called, and with the same predicates
at node variables and relationships that correspond. -/
structure Query.Renamed {α : Type} (R : String → String → Prop) (q q' : Query α) : Prop where
  pattern : q.pattern.Renamed R q'.pattern
  nodes : ∀ v ∈ q.pattern.names, ∀ v', R v v' → q'.nodePredicates? v' = q.nodePredicates? v
  relationships : ∀ r ∈ q.pattern.relationships, ∀ r', r.Renamed R r' →
    q'.relationshipPredicates? r'.name = q.relationshipPredicates? r.name

/-- Queries that agree but for how variables are called, with node variables that are told apart and
have no reserved names on either side. -/
structure Query.Twins {α : Type} (R : String → String → Prop) (q q' : Query α) : Prop where
  biUnique : Relator.BiUnique R
  renamed : q.Renamed R q'
  proper : q.pattern.Proper
  free : ∀ v ∈ q.pattern.names, ¬Reserved v
  free' : ∀ v ∈ q'.pattern.names, ¬Reserved v

theorem Query.Twins.proper' {α : Type} {q q' : Query α} (h : q.Twins R q') : q'.pattern.Proper :=
  h.renamed.pattern.proper h.biUnique h.proper

end PatternCardinality
