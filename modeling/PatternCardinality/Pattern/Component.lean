import PatternCardinality.Pattern.Basic

/-! The connected components of a pattern. Every position of a node variable carries the least
position known to be connected with it. -/

namespace PatternCardinality.Pattern

variable {α : Type}

/-- Gives both parts that an edge connects the smaller of their marks. -/
def connect (marks : List Nat) (edge : Nat × Nat) : List Nat :=
  let a := marks.getD edge.1 0
  let b := marks.getD edge.2 0
  marks.map (fun m => if m = a ∨ m = b then min a b else m)

def marks (size : Nat) (edges : List (Nat × Nat)) : List Nat :=
  edges.foldl connect (List.range size)

/-- The positions with each mark, by the least position of each part. -/
def componentsOf (size : Nat) (edges : List (Nat × Nat)) : List (List Nat) :=
  let marks := marks size edges
  let positions := List.range size
  (positions.filter (fun i => marks.getD i 0 = i)).map
    (fun i => positions.filter (fun j => marks.getD j 0 = i))

def endpoint (p : Pattern) (r : Relationship) (name : String) : Except (Failure α) Nat :=
  match p.position? name with
  | some i => .ok i
  | none => .error (.badPattern (.unknownEndpoint r.text name))

/-- The positions of the ends of a relationship. -/
def edge (p : Pattern) (r : Relationship) : Except (Failure α) (Nat × Nat) := do
  return (← p.endpoint r r.source, ← p.endpoint r r.target)

/-- The connected components as lists of positions, in the order of their first positions. -/
def components (p : Pattern) : Except (Failure α) (List (List Nat)) := do
  let edges ← p.relationships.mapM p.edge
  return componentsOf p.nodes.length edges

end PatternCardinality.Pattern
