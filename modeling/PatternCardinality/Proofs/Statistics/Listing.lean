import PatternCardinality.Proofs.Ordered.Map
import PatternCardinality.Statistics.Store

/-! A store as a list of records: what is known about it, kind by kind and in any order within a
kind, builds the store again. -/

namespace PatternCardinality

/-- A table is made again of its entries in any order. -/
theorem OrderedMap.foldl_insert_perm {κ ν : Type} [Ord κ] [Std.TransOrd κ] [Std.LawfulEqOrd κ]
    [DecidableEq κ] {l : List (κ × ν)} {m : OrderedMap κ ν} (h : l.Perm m.entries) :
    l.foldl (fun n e => n.insert e.1 e.2) ∅ = m := by
  apply ext
  intro k
  have hvalue : ∀ e ∈ l, e.1 = k → some e.2 = m.get? k := by
    rintro ⟨j, v⟩ he rfl
    exact (mem_entries_iff.mp (h.mem_iff.mp he)).symm
  have hkey : k ∈ l.map Prod.fst ↔ m.contains k = true :=
    (h.map Prod.fst).mem_iff.trans mem_keys_iff
  rw [get?_foldl_insert hvalue]
  simp only [hkey, contains, get?_empty]
  cases m.get? k <;> rfl

/-- A table whose keys are what the members of a list carry is made again from the list. -/
theorem OrderedMap.foldl_insert_getD {β κ ν : Type} [Ord κ] [Std.TransOrd κ] [Std.LawfulEqOrd κ]
    [DecidableEq κ] {l : List β} {key : β → κ} {m : OrderedMap κ ν} (default : ν)
    (h : ∀ k, m.contains k = true ↔ k ∈ l.map key) :
    l.foldl (fun n b => n.insert (key b) (m.getD (key b) default)) ∅ = m := by
  apply ext
  intro k
  have hvalue : ∀ b ∈ l, key b = k → some (m.getD (key b) default) = m.get? k := by
    rintro b hb rfl
    obtain ⟨v, hv⟩ := contains_iff.mp ((h _).mpr (List.mem_map_of_mem hb))
    rw [getD, hv, Option.getD_some]
  rw [get?_foldl_insert hvalue]
  simp only [← h, contains, get?_empty]
  cases m.get? k <;> rfl

theorem OrderedMap.getD_mem_values {κ ν : Type} [Ord κ] [Std.LawfulEqOrd κ]
    {m : OrderedMap κ ν} {k : κ} (h : m.contains k = true) (default : ν) :
    m.getD k default ∈ m.values := by
  obtain ⟨v, hv⟩ := contains_iff.mp h
  rw [getD, hv, Option.getD_some]
  exact List.mem_map_of_mem (mem_entries_iff.mpr hv)

namespace Statistics

variable {α : Type}

namespace Store

/-- Counts are known of the registered labels and types, and of no others. -/
structure Counted (s : Store α) : Prop where
  labels : ∀ id, s.labelCounts.contains id = true ↔ id ∈ s.labelIds.values
  types : ∀ id, s.typeTotals.contains id = true ↔ id ∈ s.typeIds.values

end Store

/-- What a store knows, with the records of each kind in any order. -/
structure Listing (s : Store α) where
  labels : List (String × LabelId)
  types : List (String × TypeId)
  properties : List (String × PropertyId)
  relationships : List (RelationshipKey × α)
  labelProperties : List (PropertyKey × PropertySummary α)
  typeProperties : List (PropertyKey × PropertySummary α)
  labels_perm : labels.Perm s.labelIds.entries
  types_perm : types.Perm s.typeIds.entries
  properties_perm : properties.Perm s.propertyIds.entries
  relationships_perm : relationships.Perm s.relationshipCounts.entries
  labelProperties_perm : labelProperties.Perm s.labelProperties.entries
  typeProperties_perm : typeProperties.Perm s.typeProperties.entries

/-- The records of a store by ascending key. -/
def Listing.ascending (s : Store α) : Listing s where
  labels := s.labelIds.entries
  types := s.typeIds.entries
  properties := s.propertyIds.entries
  relationships := s.relationshipCounts.entries
  labelProperties := s.labelProperties.entries
  typeProperties := s.typeProperties.entries
  labels_perm := .refl _
  types_perm := .refl _
  properties_perm := .refl _
  relationships_perm := .refl _
  labelProperties_perm := .refl _
  typeProperties_perm := .refl _

variable [Scalar α]

namespace Store

def labelEntry (s : Store α) (e : String × LabelId) : Entry α :=
  .label e.1 e.2 (s.labelCounts.getD e.2 0)

def typeEntry (s : Store α) (e : String × TypeId) : Entry α :=
  .type e.1 e.2 (s.typeTotals.getD e.2 ⟨0, 0, 0, 0⟩)

section Kinds

variable (r : Store α)

theorem foldl_enter_labels (s : Store α) (l : List (String × LabelId)) :
    (l.map s.labelEntry).foldl enter r =
      { r with
        labelIds := l.foldl (fun m e => m.insert e.1 e.2) r.labelIds
        labelCounts :=
          l.foldl (fun m e => m.insert e.2 (s.labelCounts.getD e.2 0)) r.labelCounts } := by
  induction l generalizing r with
  | nil => rfl
  | cons e l ih => exact ih (r.enter (s.labelEntry e))

theorem foldl_enter_types (s : Store α) (l : List (String × TypeId)) :
    (l.map s.typeEntry).foldl enter r =
      { r with
        typeIds := l.foldl (fun m e => m.insert e.1 e.2) r.typeIds
        typeTotals :=
          l.foldl (fun m e => m.insert e.2 (s.typeTotals.getD e.2 ⟨0, 0, 0, 0⟩))
            r.typeTotals } := by
  induction l generalizing r with
  | nil => rfl
  | cons e l ih => exact ih (r.enter (s.typeEntry e))

/-- Entries that each change a part of the store change it like a fold of its own. -/
theorem foldl_enter_map {β σ : Type} {f : σ → Store α} {step : σ → β → σ} {entry : β → Entry α}
    (h : ∀ p b, (f p).enter (entry b) = f (step p b)) (l : List β) (p : σ) :
    (l.map entry).foldl enter (f p) = f (l.foldl step p) := by
  rw [List.foldl_map]
  exact List.foldl_hom f h

theorem foldl_enter_properties (l : List (String × PropertyId)) :
    (l.map (fun e => .property e.1 e.2)).foldl enter r =
      { r with propertyIds := l.foldl (fun m e => m.insert e.1 e.2) r.propertyIds } :=
  foldl_enter_map (f := fun m => { r with propertyIds := m }) (fun _ _ => rfl) l _

theorem foldl_enter_relationships (l : List (RelationshipKey × α)) :
    (l.map (fun e => .relationships e.1 e.2)).foldl enter r =
      { r with
        relationshipCounts := l.foldl (fun m e => m.insert e.1 e.2) r.relationshipCounts } :=
  foldl_enter_map (f := fun m => { r with relationshipCounts := m }) (fun _ _ => rfl) l _

theorem foldl_enter_labelProperties (l : List (PropertyKey × PropertySummary α)) :
    (l.map (fun e => .labelProperty e.1 e.2)).foldl enter r =
      { r with labelProperties := l.foldl (fun m e => m.insert e.1 e.2) r.labelProperties } :=
  foldl_enter_map (f := fun m => { r with labelProperties := m }) (fun _ _ => rfl) l _

theorem foldl_enter_typeProperties (l : List (PropertyKey × PropertySummary α)) :
    (l.map (fun e => .typeProperty e.1 e.2)).foldl enter r =
      { r with typeProperties := l.foldl (fun m e => m.insert e.1 e.2) r.typeProperties } :=
  foldl_enter_map (f := fun m => { r with typeProperties := m }) (fun _ _ => rfl) l _

end Kinds

end Store

namespace Listing

variable {s : Store α}

def entries (l : Listing s) : List (Entry α) :=
  l.labels.map s.labelEntry ++ l.types.map s.typeEntry ++
    l.properties.map (fun e => .property e.1 e.2) ++
    l.relationships.map (fun e => .relationships e.1 e.2) ++
    l.labelProperties.map (fun e => .labelProperty e.1 e.2) ++
    l.typeProperties.map (fun e => .typeProperty e.1 e.2)

/-- A store is built again from what it knows. -/
theorem build_entries (l : Listing s) (h : s.Counted) :
    Store.build s.nodeCount l.entries = s := by
  have hlabels : ∀ id, s.labelCounts.contains id = true ↔ id ∈ l.labels.map Prod.snd :=
    fun id => (h.labels id).trans (l.labels_perm.map Prod.snd).mem_iff.symm
  have htypes : ∀ id, s.typeTotals.contains id = true ↔ id ∈ l.types.map Prod.snd :=
    fun id => (h.types id).trans (l.types_perm.map Prod.snd).mem_iff.symm
  simp only [Store.build, entries, List.foldl_append, Store.foldl_enter_labels,
    Store.foldl_enter_types, Store.foldl_enter_properties, Store.foldl_enter_relationships,
    Store.foldl_enter_labelProperties, Store.foldl_enter_typeProperties]
  simp only [Store.empty, OrderedMap.foldl_insert_getD 0 hlabels,
    OrderedMap.foldl_insert_getD ⟨0, 0, 0, 0⟩ htypes, OrderedMap.foldl_insert_perm l.labels_perm,
    OrderedMap.foldl_insert_perm l.types_perm, OrderedMap.foldl_insert_perm l.properties_perm,
    OrderedMap.foldl_insert_perm l.relationships_perm,
    OrderedMap.foldl_insert_perm l.labelProperties_perm,
    OrderedMap.foldl_insert_perm l.typeProperties_perm]

end Listing

end Statistics

end PatternCardinality
