import PatternCardinality.Json.Reader
import PatternCardinality.Json.Schema
import PatternCardinality.Query.Basic

/-! The JSON form of queries. -/

namespace PatternCardinality

open Json

namespace Predicate

/-- An unlimited end is left out. -/
def endMember (name : String) : Bound Float → List (String × Json)
  | .number x => [(name, .float x)]
  | _ => []

def toJson : Predicate Float → Json
  | text s => .object [("value", .text s)]
  | range low high => .object [("range", .object (endMember "low" low ++ endMember "high" high))]

/-- Reads a predicate, given how records with the ends of a range are read. -/
def ofJsonBy? (ends? : List String → Json → Option (List (Option Json))) (j : Json) :
    Option (Predicate Float) := do
  let (name, content) ← asCase? j
  if name = "value" then (asText? content).map text
  else if name = "range" then
    match ← ends? ["low", "high"] content with
    | [low, high] =>
      let bound? (j : Json) : Option (Bound Float) := (asFloat? j).map Double.toBound
      let low ← defaulted? .lowest bound? low
      let high ← defaulted? .highest bound? high
      some (range low high)
    | _ => none
  else none

def ofJson? : Json → Option (Predicate Float) := ofJsonBy? asRecord?

end Predicate

def Predicates.toJson (p : Predicates Float) : Json :=
  .object (p.entries.map (fun e => (e.1, e.2.toJson)))

def NodeVariable.toJson (n : NodeVariable) : Json :=
  .object [("name", .text n.name), ("labels", .array (n.labels.toList.map .text))]

def NodeVariable.ofJson? (j : Json) : Option NodeVariable := do
  match ← asRecord? ["name", "labels"] j with
  | [name, labels] =>
    let name ← required? asText? name
    let labels ← defaulted? [] (asList? asText?) labels
    some ⟨name, OrderedSet.ofList labels⟩
  | _ => none

def Relationship.toJson (r : Relationship) : Json :=
  .object [("source", .text r.source), ("target", .text r.target),
    ("type", r.type.elim .null .text), ("directed", .bool r.directed)]

def Relationship.ofJson? (j : Json) : Option Relationship := do
  match ← asRecord? ["source", "target", "type", "directed"] j with
  | [source, target, type, directed] =>
    let source ← required? asText? source
    let target ← required? asText? target
    let type ← defaulted? none (asOptional? asText?) type
    let directed ← defaulted? true asBool? directed
    some ⟨source, target, type, directed⟩
  | _ => none

def Pattern.toJson (p : Pattern) : Json :=
  .object [("nodes", .array (p.nodes.map NodeVariable.toJson)),
    ("relationships", .array (p.relationships.map Relationship.toJson))]

def Pattern.ofJson? (j : Json) : Option Pattern := do
  match ← asRecord? ["nodes", "relationships"] j with
  | [nodes, relationships] =>
    let nodes ← defaulted? [] (asList? NodeVariable.ofJson?) nodes
    let relationships ← defaulted? [] (asList? Relationship.ofJson?) relationships
    some ⟨nodes, relationships⟩
  | _ => none

namespace Query

def tableToJson (table : OrderedMap String (Predicates Float)) : Json :=
  .object (table.entries.map (fun e => (e.1, Predicates.toJson e.2)))

def toJson (q : Query Float) : Json :=
  .object [("pattern", q.pattern.toJson), ("node_predicates", tableToJson q.nodePredicates),
    ("relationship_predicates", tableToJson q.relationshipPredicates)]

/-- Reads a query as it is, given how its predicates are read; whether names fit the pattern is not
checked. -/
def ofJsonBy? (predicate? : Json → Option (Predicate Float)) (j : Json) :
    Option (Query Float) := do
  match ← asRecord? ["pattern", "node_predicates", "relationship_predicates"] j with
  | [pattern, nodes, relationships] =>
    let table? := asTable? (asTable? predicate?)
    let pattern ← required? Pattern.ofJson? pattern
    let nodes ← defaulted? ∅ table? nodes
    let relationships ← defaulted? ∅ table? relationships
    some ⟨pattern, nodes, relationships⟩
  | _ => none

def read? (s : String) : Option (Query Float) :=
  (Json.read? s).bind (ofJsonBy? Predicate.ofJson?)

/-- How deep values may be nested in a file of queries. -/
def greatestDepth : Nat := 127

/-- Reads one query or a list of them. Of members with one name the last counts, and the ends of
ranges are given by name. -/
def readAll? (s : String) : Option (List (Query Float)) := do
  let j ← Json.read? s
  let ofJson? := ofJsonBy? (Predicate.ofJsonBy? asNamedRecord?)
  if !j.isWithin greatestDepth then none
  else match j.withoutRepeats with
    | .array items => items.mapM ofJson?
    | j => (ofJson? j).map ([·])

end Query

end PatternCardinality
