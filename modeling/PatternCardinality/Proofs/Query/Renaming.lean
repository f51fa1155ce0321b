import Mathlib.Data.Set.Function
import PatternCardinality.Proofs.Ordered.Map
import PatternCardinality.Proofs.Pattern.Renaming

/-!
# Renaming the variables of a query

A function renames the node variables of a query, and predicates follow their owners to the new
names. The query is then the same under names that correspond, as long as the function keeps node
variables apart and predicates on relationships can be told apart under the new names.
-/

namespace PatternCardinality

/-- Node variables correspond to their new names, and names that plans make up to themselves. -/
inductive Called (f : String → String) (names : List String) : String → String → Prop
  | node {v} (h : v ∈ names) : Called f names v (f v)
  | madeUp {v} (h : Reserved v) : Called f names v v

section Called

variable {f : String → String} {names : List String}

theorem Called.eq_of_mem (hfree : ∀ v ∈ names, ¬Reserved v) {v v' : String}
    (h : Called f names v v') (hv : v ∈ names) : v' = f v := by
  cases h with
  | node => rfl
  | madeUp hreserved => exact absurd hreserved (hfree v hv)

theorem biUnique_called (hfree : ∀ v ∈ names, ¬Reserved v) (hinj : Set.InjOn f {v | v ∈ names})
    (hfree' : ∀ v ∈ names, ¬Reserved (f v)) : Relator.BiUnique (Called f names) := by
  constructor
  · intro v w u hv hw
    generalize hu : u = u' at hw
    cases hv with
    | node hv =>
      cases hw with
      | node hw => exact hinj hv hw hu
      | madeUp hw => exact absurd (hu ▸ hw) (hfree' v hv)
    | madeUp hv =>
      cases hw with
      | node hw => exact absurd (hu ▸ hv) (hfree' w hw)
      | madeUp => exact hu
  · intro v w u hw hu
    cases hw with
    | node hv => exact (hu.eq_of_mem hfree hv).symm
    | madeUp hv =>
      cases hu with
      | node hmem => exact absurd hv (hfree v hmem)
      | madeUp => rfl

end Called

def Relationship.rename (f : String → String) (r : Relationship) : Relationship :=
  { r with source := f r.source, target := f r.target }

namespace Pattern

def rename (f : String → String) (p : Pattern) : Pattern :=
  ⟨p.nodes.map (fun n => { n with name := f n.name }), p.relationships.map (·.rename f)⟩

/-- Relationships with one name lead from one variable to one other. -/
def NamesTellEnds (p : Pattern) : Prop :=
  ∀ r ∈ p.relationships, ∀ r' ∈ p.relationships, r.name = r'.name →
    r.source = r'.source ∧ r.target = r'.target

variable {f : String → String} {p : Pattern}

theorem names_rename : (p.rename f).names = p.names.map f := by
  simp [names, rename]

theorem rename_renamed (hp : p.Proper) : p.Renamed (Called f p.names) (p.rename f) := by
  constructor
  · refine List.forall₂_map_right_iff.mpr (List.forall₂_same.mpr (fun n hn => ?_))
    exact ⟨.node (List.mem_map_of_mem hn), rfl⟩
  · refine List.forall₂_map_right_iff.mpr (List.forall₂_same.mpr (fun r hr => ?_))
    exact ⟨.node (hp.source_mem r hr), .node (hp.target_mem r hr), rfl, rfl⟩

/-- A relationship of the pattern corresponds to no other than the one that it becomes. -/
theorem eq_rename_of_renamed (hp : p.Proper) (hfree : ∀ v ∈ p.names, ¬Reserved v)
    {r r' : Relationship} (hr : r ∈ p.relationships) (h : r.Renamed (Called f p.names) r') :
    r' = r.rename f := by
  have hs := h.source.eq_of_mem hfree (hp.source_mem r hr)
  have ht := h.target.eq_of_mem hfree (hp.target_mem r hr)
  rw [h.eq_mk, hs, ht]
  rfl

/-- Relationships with one new name had one name before. -/
theorem NamesTellEnds.name_eq (h : (p.rename f).NamesTellEnds) (hp : p.Proper)
    (hinj : Set.InjOn f {v | v ∈ p.names}) {r r' : Relationship} (hr : r ∈ p.relationships)
    (hr' : r' ∈ p.relationships) (hname : (r.rename f).name = (r'.rename f).name) :
    r.name = r'.name := by
  obtain ⟨hs, ht⟩ := h _ (List.mem_map_of_mem hr) _ (List.mem_map_of_mem hr') hname
  have hs := hinj (hp.source_mem r hr) (hp.source_mem r' hr') hs
  have ht := hinj (hp.target_mem r hr) (hp.target_mem r' hr') ht
  rw [Relationship.name, Relationship.name, hs, ht]

end Pattern

namespace Query

variable {α : Type}

/-- The query under new names, with the predicates of node variables and relationships kept under
the names that these have now. -/
def rename (f : String → String) (q : Query α) : Query α where
  pattern := q.pattern.rename f
  nodePredicates := OrderedMap.ofList (q.pattern.nodes.filterMap (fun n =>
    (q.nodePredicates.get? n.name).map (fun predicates => (f n.name, predicates))))
  relationshipPredicates := OrderedMap.ofList (q.pattern.relationships.filterMap (fun r =>
    (q.relationshipPredicates.get? r.name).map (fun predicates => ((r.rename f).name, predicates))))

variable {f : String → String} {q : Query α}

theorem nodePredicates?_rename (hinj : Set.InjOn f {v | v ∈ q.pattern.names}) {v : String}
    (hv : v ∈ q.pattern.names) : (q.rename f).nodePredicates? (f v) = q.nodePredicates? v := by
  obtain ⟨n, hn, rfl⟩ := List.mem_map.mp hv
  have hget : (q.rename f).nodePredicates.get? (f n.name) = q.nodePredicates.get? n.name := by
    refine OrderedMap.get?_ofList_filterMap (fun n : NodeVariable => f n.name) hn
      (fun m hm hname => ?_)
    rw [hinj (List.mem_map_of_mem hm) hv hname]
  rw [nodePredicates?, nodePredicates?, predicates?, predicates?, hget]

theorem relationshipPredicates?_rename (hp : q.pattern.Proper)
    (hinj : Set.InjOn f {v | v ∈ q.pattern.names}) (htell : (q.pattern.rename f).NamesTellEnds)
    {r : Relationship} (hr : r ∈ q.pattern.relationships) :
    (q.rename f).relationshipPredicates? (r.rename f).name = q.relationshipPredicates? r.name := by
  have hget : (q.rename f).relationshipPredicates.get? (r.rename f).name =
      q.relationshipPredicates.get? r.name := by
    refine OrderedMap.get?_ofList_filterMap (fun r : Relationship => (r.rename f).name) hr
      (fun s hs hname => ?_)
    rw [htell.name_eq hp hinj hs hr hname]
  rw [relationshipPredicates?, relationshipPredicates?, predicates?, predicates?, hget]

/-- No predicates on relationships come from nothing. -/
theorem relationshipPredicates?_rename_eq_none (h : ∀ owner, q.relationshipPredicates? owner = none)
    (owner : String) : (q.rename f).relationshipPredicates? owner = none := by
  refine Option.filter_eq_none_iff.mpr (fun predicates hget => ?_)
  obtain ⟨r, -, hr⟩ := List.mem_filterMap.mp (OrderedMap.mem_of_get?_ofList hget)
  obtain ⟨found, hfound, heq⟩ := Option.map_eq_some_iff.mp hr
  obtain ⟨-, rfl⟩ := Prod.mk.inj heq
  exact Option.filter_eq_none_iff.mp (h r.name) found hfound

/-- A query is the same under its new names. -/
theorem twins_rename (hp : q.pattern.Proper) (hfree : ∀ v ∈ q.pattern.names, ¬Reserved v)
    (hinj : Set.InjOn f {v | v ∈ q.pattern.names})
    (hfree' : ∀ v ∈ q.pattern.names, ¬Reserved (f v))
    (htell : (q.pattern.rename f).NamesTellEnds ∨ ∀ owner, q.relationshipPredicates? owner = none) :
    q.Twins (Called f q.pattern.names) (q.rename f) := by
  refine ⟨biUnique_called hfree hinj hfree', ⟨Pattern.rename_renamed hp, ?_, ?_⟩, hp, hfree, ?_⟩
  · intro v hv v' hvv
    rw [hvv.eq_of_mem hfree hv]
    exact nodePredicates?_rename hinj hv
  · intro r hr r' hrr
    rw [Pattern.eq_rename_of_renamed hp hfree hr hrr]
    rcases htell with htell | hnone
    · exact relationshipPredicates?_rename hp hinj htell hr
    · rw [relationshipPredicates?_rename_eq_none hnone, hnone]
  · intro v hv
    rw [rename, Pattern.names_rename] at hv
    obtain ⟨w, hw, rfl⟩ := List.mem_map.mp hv
    exact hfree' w hw

end Query

end PatternCardinality
