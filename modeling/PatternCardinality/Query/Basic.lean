import PatternCardinality.Ordered.Map
import PatternCardinality.Pattern.Basic
import PatternCardinality.Query.Predicate

/-! Queries: a pattern with predicates on its node variables and relationships. -/

namespace PatternCardinality

/-- Predicates by property. -/
abbrev Predicates (α : Type) := OrderedMap String (Predicate α)

/-- Predicates on node variables are kept by variable, those on relationships by the name of the
relationship. -/
structure Query (α : Type) where
  pattern : Pattern
  nodePredicates : OrderedMap String (Predicates α)
  relationshipPredicates : OrderedMap String (Predicates α)

namespace Query

variable {α : Type} [Scalar α]

def ofPattern (p : Pattern) : Query α := ⟨p, ∅, ∅⟩

/-- Adds a condition to an owner's, merged with one on the same property. -/
def added (table : OrderedMap String (Predicates α)) (owner property : String)
    (predicate : Predicate α) : Except (Failure α) (OrderedMap String (Predicates α)) := do
  let predicates := table.getD owner ∅
  let merged ← match predicates.get? property with
    | some existing => existing.merge predicate
    | none => .ok predicate
  return table.insert owner (predicates.insert property merged)

def addNodePredicate (q : Query α) (name property : String) (predicate : Predicate α) :
    Except (Failure α) (Query α) :=
  if q.pattern.contains name then do
    return { q with nodePredicates := ← added q.nodePredicates name property predicate }
  else .error (.unboundVariable name)

def addRelationshipPredicate (q : Query α) (name property : String) (predicate : Predicate α) :
    Except (Failure α) (Query α) :=
  if q.pattern.relationships.any (·.name = name) then do
    return { q with
      relationshipPredicates := ← added q.relationshipPredicates name property predicate }
  else .error (.unboundVariable name)

/-- Predicates of an owner, if there are any. -/
def predicates? (table : OrderedMap String (Predicates α)) (owner : String) :
    Option (Predicates α) :=
  (table.get? owner).filter (fun p => !p.isEmpty)

def nodePredicates? (q : Query α) (name : String) : Option (Predicates α) :=
  predicates? q.nodePredicates name

def relationshipPredicates? (q : Query α) (name : String) : Option (Predicates α) :=
  predicates? q.relationshipPredicates name

def predicateCount (table : OrderedMap String (Predicates α)) : Nat :=
  (table.values.map OrderedMap.size).foldr (· + ·) 0

/-- The number of conditions: relationships, labels and predicates. -/
def size (q : Query α) : Nat :=
  q.pattern.relationships.length + q.pattern.labelCount + predicateCount q.nodePredicates +
    predicateCount q.relationshipPredicates

def conditions (table : OrderedMap String (Predicates Float)) : List String :=
  table.entries.flatMap fun owner =>
    owner.2.entries.map fun p => owner.1 ++ "." ++ p.1 ++ p.2.describe

def text (q : Query Float) : String :=
  let all := conditions q.nodePredicates ++ conditions q.relationshipPredicates
  "MATCH " ++ q.pattern.text ++
    (if all.isEmpty then "" else " WHERE " ++ " AND ".intercalate all)

end Query

end PatternCardinality
