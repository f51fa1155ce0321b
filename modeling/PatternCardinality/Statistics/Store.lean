import PatternCardinality.Graph.Identifier
import PatternCardinality.Statistics.Property

/-! Statistics of a graph: counts of nodes by label, of relationships by labels and type, and
summaries of properties. -/

namespace PatternCardinality.Statistics

/-- Relationships of a type between nodes of two labels. -/
structure RelationshipKey where
  base : LabelId
  type : TypeId
  target : LabelId
  deriving DecidableEq

namespace RelationshipKey

def order : RelationshipKey → RelationshipKey → Ordering :=
  compareLex (compareOn base) (compareLex (compareOn type) (compareOn target))

instance : Ord RelationshipKey := ⟨order⟩

instance : Std.TransOrd RelationshipKey := inferInstanceAs (Std.TransCmp (compareLex _ _))

instance : Std.LawfulEqOrd RelationshipKey where
  eq_of_compare {a b} h := by
    change order a b = .eq at h
    simp only [order, compareLex_eq_eq, compareOn, Std.compare_eq_iff_eq] at h
    cases a; cases b; simp_all

end RelationshipKey

/-- A property of a label or of a relationship type. -/
structure PropertyKey where
  owner : Int32
  property : PropertyId
  deriving DecidableEq

namespace PropertyKey

def order : PropertyKey → PropertyKey → Ordering :=
  compareLex (compareOn owner) (compareOn property)

instance : Ord PropertyKey := ⟨order⟩

instance : Std.TransOrd PropertyKey := inferInstanceAs (Std.TransCmp (compareLex _ _))

instance : Std.LawfulEqOrd PropertyKey where
  eq_of_compare {a b} h := by
    change order a b = .eq at h
    simp only [order, compareLex_eq_eq, compareOn, Std.compare_eq_iff_eq] at h
    cases a; cases b; simp_all

end PropertyKey

/-- Totals of a relationship type. -/
structure TypeTotals (α : Type) where
  outgoing : α
  incoming : α
  paths : α
  pairs : α

structure Store (α : Type) where
  nodeCount : α
  labelIds : OrderedMap String LabelId
  labelCounts : OrderedMap LabelId α
  typeIds : OrderedMap String TypeId
  typeTotals : OrderedMap TypeId (TypeTotals α)
  propertyIds : OrderedMap String PropertyId
  relationshipCounts : OrderedMap RelationshipKey α
  labelProperties : OrderedMap PropertyKey (PropertySummary α)
  typeProperties : OrderedMap PropertyKey (PropertySummary α)

/-- One piece of information to put into a store. `relationships` sets a count, `addRelationships`
adds to the count and to those of every combination with wildcards. -/
inductive Entry (α : Type) where
  | label (name : String) (id : LabelId) (count : α)
  | type (name : String) (id : TypeId) (totals : TypeTotals α)
  | property (name : String) (id : PropertyId)
  | relationships (key : RelationshipKey) (count : α)
  | addRelationships (key : RelationshipKey) (count : α)
  | labelProperty (key : PropertyKey) (summary : PropertySummary α)
  | typeProperty (key : PropertyKey) (summary : PropertySummary α)

/-- An identifier and the wildcard, which may be the same. -/
def orAny (any id : Int32) : List Int32 := if id = any then [any] else [id, any]

/-- The key and its combinations with wildcards, each once. -/
def RelationshipKey.generalizations (key : RelationshipKey) : List RelationshipKey :=
  (orAny anyLabel key.base).flatMap fun base =>
    (orAny anyType key.type).flatMap fun type =>
      (orAny anyLabel key.target).map fun target => ⟨base, type, target⟩

namespace Store

variable {α : Type} [Scalar α]

def empty (nodeCount : α) : Store α := ⟨nodeCount, ∅, ∅, ∅, ∅, ∅, ∅, ∅, ∅⟩

def increase (counts : OrderedMap RelationshipKey α) (count : α) (key : RelationshipKey) :
    OrderedMap RelationshipKey α :=
  counts.insert key (counts.getD key 0 + count)

def enter (s : Store α) : Entry α → Store α
  | .label name id count =>
    { s with labelIds := s.labelIds.insert name id, labelCounts := s.labelCounts.insert id count }
  | .type name id totals =>
    { s with typeIds := s.typeIds.insert name id, typeTotals := s.typeTotals.insert id totals }
  | .property name id => { s with propertyIds := s.propertyIds.insert name id }
  | .relationships key count =>
    { s with relationshipCounts := s.relationshipCounts.insert key count }
  | .addRelationships key count =>
    { s with relationshipCounts :=
        key.generalizations.foldl (fun counts k => increase counts count k) s.relationshipCounts }
  | .labelProperty key summary => { s with labelProperties := s.labelProperties.insert key summary }
  | .typeProperty key summary => { s with typeProperties := s.typeProperties.insert key summary }

def build (nodeCount : α) (entries : List (Entry α)) : Store α :=
  entries.foldl enter (empty nodeCount)

/-- Nodes with a label, or all of them. -/
def nodes (s : Store α) (label : LabelId) : α :=
  if label = anyLabel then s.nodeCount else s.labelCounts.getD label 0

def relationshipCount (s : Store α) (base : LabelId) (type : TypeId) (target : LabelId) : α :=
  s.relationshipCounts.getD ⟨base, type, target⟩ 0

def typeCount (s : Store α) (type : TypeId) : α := s.relationshipCount anyLabel type anyLabel

def labelProperty? (s : Store α) (label : LabelId) (property : PropertyId) :
    Option (PropertySummary α) := s.labelProperties.get? ⟨label, property⟩

def typeProperty? (s : Store α) (type : TypeId) (property : PropertyId) :
    Option (PropertySummary α) := s.typeProperties.get? ⟨type, property⟩

def typeTotals? (s : Store α) (type : TypeId) : Option (TypeTotals α) := s.typeTotals.get? type

def labelId? (s : Store α) (name : String) : Option LabelId := s.labelIds.get? name

def typeId? (s : Store α) (name : String) : Option TypeId := s.typeIds.get? name

def propertyId? (s : Store α) (name : String) : Option PropertyId := s.propertyIds.get? name

/-- The name under which an identifier is registered. -/
def nameOf? (ids : OrderedMap String Int32) (id : Int32) : Option String :=
  (ids.entries.find? (fun e => e.2 = id)).map (·.1)

def labelName? (s : Store α) (id : LabelId) : Option String := nameOf? s.labelIds id

def typeName? (s : Store α) (id : TypeId) : Option String := nameOf? s.typeIds id

/-- Names by identifier. -/
def namesById (ids : OrderedMap String Int32) : OrderedMap Int32 String :=
  ids.entries.foldl (fun m e => m.insert e.2 e.1) ∅

def labels (s : Store α) : OrderedMap LabelId String := namesById s.labelIds

def types (s : Store α) : OrderedMap TypeId String := namesById s.typeIds

def labelSet (s : Store α) : OrderedSet LabelId := s.labels.keySet

end Store

/-- The size of a store. -/
structure Summary (α : Type) where
  nodes : α
  labels : Nat
  types : Nat
  properties : Nat
  relationshipEntries : Nat
  wildcardEntries : Nat
  numericProperties : Nat
  textProperties : Nat

def Store.summary {α : Type} [Scalar α] (s : Store α) : Summary α :=
  let properties := s.labelProperties.values ++ s.typeProperties.values
  { nodes := s.nodeCount
    labels := s.labelIds.size
    types := s.typeIds.size
    properties := s.propertyIds.size
    relationshipEntries := s.relationshipCounts.size
    wildcardEntries :=
      s.relationshipCounts.keys.countP (fun k => k.base = anyLabel ∨ k.target = anyLabel)
    numericProperties := properties.countP (fun p => !(p.numeric == 0))
    textProperties := properties.countP (fun p => p.numeric == 0) }

end PatternCardinality.Statistics
