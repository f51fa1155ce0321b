import PatternCardinality.Failure
import PatternCardinality.Ordered.Set

/-! Graph patterns: node variables with the labels they require, and relationships between them. -/

namespace PatternCardinality

structure NodeVariable where
  name : String
  labels : OrderedSet String
  deriving DecidableEq

/-- A relationship between two node variables. An undirected one keeps its ends as they were
given. -/
structure Relationship where
  source : String
  target : String
  type : Option String
  directed : Bool
  deriving DecidableEq

namespace Relationship

/-- Underscores are doubled, so that a single one can separate two names. -/
def doubled (s : String) : List Char :=
  s.toList.flatMap (fun c => if c = '_' then ['_', '_'] else [c])

/-- The name under which predicates on the relationship are kept. -/
def name (r : Relationship) : String :=
  String.ofList (doubled r.source ++ '_' :: doubled r.target)

def redirect (r : Relationship) (target : String) : Relationship := { r with target }

def touches (r : Relationship) (v : String) : Bool := r.source = v ∨ r.target = v

def text (r : Relationship) : String :=
  "(" ++ r.source ++ ")-" ++ (match r.type with | some t => "[:" ++ t ++ "]" | none => "") ++
    (if r.directed then "->(" else "-(") ++ r.target ++ ")"

end Relationship

/-- Node variables in the order of their first mention, and relationships. -/
structure Pattern where
  nodes : List NodeVariable
  relationships : List Relationship
  deriving DecidableEq

namespace Pattern

def empty : Pattern := ⟨[], []⟩

/-- Gives labels to the first variable with the name, or to a new one at the end. -/
def withNode (name : String) (labels : List String) : List NodeVariable → List NodeVariable
  | [] => [⟨name, OrderedSet.ofList labels⟩]
  | n :: rest =>
    if n.name = name then ⟨n.name, n.labels.union (OrderedSet.ofList labels)⟩ :: rest
    else n :: withNode name labels rest

def addNode (p : Pattern) (name : String) (labels : List String) : Pattern :=
  { p with nodes := withNode name labels p.nodes }

/-- The relationship met when a step leaves `base` in a direction. -/
def step (base : String) (type : Option String) (direction : Direction) (next : String) :
    Relationship :=
  match direction with
  | .both => ⟨base, next, type, false⟩
  | .incoming => ⟨next, base, type, true⟩
  | .outgoing => ⟨base, next, type, true⟩

/-- Adds a step and the variables at its ends. -/
def addRelationship (p : Pattern) (base : String) (type : Option String) (direction : Direction)
    (next : String) : Pattern :=
  let p := (p.addNode base []).addNode next []
  { p with relationships := p.relationships ++ [step base type direction next] }

def position? (p : Pattern) (name : String) : Option Nat := p.nodes.findIdx? (·.name = name)

def contains (p : Pattern) (name : String) : Bool := (p.position? name).isSome

def labels? (p : Pattern) (name : String) : Option (OrderedSet String) :=
  (p.nodes.find? (·.name = name)).map (·.labels)

def labelCount (p : Pattern) : Nat := (p.nodes.map (·.labels.size)).foldr (· + ·) 0

def typedCount (p : Pattern) : Nat := p.relationships.countP (·.type.isSome)

def directedCount (p : Pattern) : Nat := p.relationships.countP (·.directed)

def nodeText (n : NodeVariable) : String :=
  "(" ++ n.name ++ String.join (n.labels.toList.map (":" ++ ·)) ++ ")"

/-- A variable without labels is written only if no relationship names it. -/
def text (p : Pattern) : String :=
  let alone (n : NodeVariable) : Bool :=
    !n.labels.isEmpty || !p.relationships.any (·.touches n.name)
  ", ".intercalate ((p.nodes.filter alone).map nodeText ++ p.relationships.map (·.text))

end Pattern

end PatternCardinality
