import PatternCardinality.Ordered.Sorting
import PatternCardinality.Query.Basic

/-! The connected parts of a query with a given number of node variables. -/

namespace PatternCardinality

namespace OrderedSet

variable {κ : Type} [Ord κ]

/-- Sets are ordered as the lists of their elements. -/
instance : Ord (OrderedSet κ) := ⟨compareOn toList⟩

instance [Std.TransOrd κ] : Std.TransOrd (OrderedSet κ) :=
  inferInstanceAs (Std.TransCmp (compareOn toList))

instance [Std.LawfulEqOrd κ] : Std.LawfulEqOrd (OrderedSet κ) where
  eq_of_compare {a b} h := by
    have h : a.toList = b.toList := Std.LawfulEqOrd.eq_of_compare (a := a.toList) h
    cases a; cases b; simp_all
  compare_self {a} := Std.ReflOrd.compare_self (a := a.toList)

end OrderedSet

namespace Query

variable {α : Type} [Scalar α]

/-- The members of a set of places and those that an edge connects with them. -/
def neighbours (edges : List (Nat × Nat)) (s : OrderedSet Nat) : OrderedSet Nat :=
  OrderedSet.ofList (edges.filterMap fun e =>
    match decide (e.1 ∈ s), decide (e.2 ∈ s) with
    | true, false => some e.2
    | false, true => some e.1
    | _, _ => none)

/-- The sets with one more place that an edge leads to. -/
def grown (edges : List (Nat × Nat)) (s : OrderedSet Nat) : List (OrderedSet Nat) :=
  (neighbours edges s).toList.map s.insert

/-- The connected sets of `k` out of `size` places, in order. -/
def connectedSets (size : Nat) (edges : List (Nat × Nat)) : Nat → OrderedSet (OrderedSet Nat)
  | 0 => ∅
  | 1 => OrderedSet.ofList ((List.range size).map OrderedSet.singleton)
  | k + 1 => OrderedSet.ofList ((connectedSets size edges k).toList.flatMap (grown edges))

/-- The part on the node variables with names in `keep`: relationships with both ends there, and
the predicates on what remains. -/
def restrictedTo (q : Query α) (keep : OrderedSet String) : Query α :=
  let relationships := q.pattern.relationships.filter
    (fun r => decide (r.source ∈ keep) && decide (r.target ∈ keep))
  let names := OrderedSet.ofList (relationships.map (·.name))
  { pattern := ⟨q.pattern.nodes.filter (fun n => decide (n.name ∈ keep)), relationships⟩
    nodePredicates := q.nodePredicates.filter (fun name _ => decide (name ∈ keep))
    relationshipPredicates :=
      q.relationshipPredicates.filter (fun name _ => decide (name ∈ names)) }

/-- The names of the node variables, sorted. -/
def sortedNames (q : Query α) : List String :=
  sortBy (fun a b => (compare a b).isLE) (q.pattern.nodes.map (·.name))

/-- The place of a name among sorted names, the last one if it is repeated. -/
def placeOf? (names : List String) (name : String) : Option Nat :=
  (names.reverse.findIdx? (· = name)).map (fun i => names.length - 1 - i)

/-- The relationships as pairs of places. -/
def placedEdges (q : Query α) (names : List String) : List (Nat × Nat) :=
  q.pattern.relationships.filterMap fun r => do
    return (← placeOf? names r.source, ← placeOf? names r.target)

/-- The connected parts with `k` node variables, in the order of their sorted names. With all
variables the part is the query. -/
def parts (q : Query α) (k : Nat) : List (Query α) :=
  let names := q.sortedNames
  if k = 0 ∨ names.length < k then []
  else if k = names.length then [q]
  else
    (connectedSets names.length (q.placedEdges names) k).toList.map fun s =>
      q.restrictedTo (OrderedSet.ofList (s.toList.map (names.getD · "")))

end Query

end PatternCardinality
