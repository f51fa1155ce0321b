import PatternCardinality.Estimate.Expression
import PatternCardinality.Plan.Route
import PatternCardinality.Plan.Strategy
import PatternCardinality.Query.Basic

/-! The operators of a route, in the order in which they are applied. Names made up for
relationships and for the far ends of cycles are numbered. -/

namespace PatternCardinality.Plan

open Estimate Statistics

variable {α : Type} [Scalar α]

/-- What a plan is made with: names as the statistics know them, how cycles are closed, and the
selectivity that may take the place of statistics. -/
structure Planner (α : Type) where
  store : Store α
  strategy : JoinStrategy
  fixed : Option α

/-- An operator, or the reason why there is none. -/
abbrev Step (α : Type) := Except (Failure α) (Operator α)

def relationshipName (n : Nat) : String := "$e" ++ toString n

def temporaryName (n : Nat) : String := "$v" ++ toString n

namespace Planner

def types (c : Planner α) (r : Relationship) : Except (Failure α) TypeSet :=
  match r.type with
  | none => .ok (OrderedSet.singleton anyType)
  | some name =>
    match c.store.typeId? name with
    | some t => .ok (OrderedSet.singleton t)
    | none => .error (.unknownType name)

/-- Predicates by identifier; of several on one property the last counts. -/
def propertyPredicates (c : Planner α) (predicates : Predicates α) :
    Except (Failure α) (PropertyPredicates α) := do
  let entries ← predicates.entries.mapM (fun e =>
    match c.store.propertyId? e.1 with
    | some id => .ok (id, e.2)
    | none => .error (.unknownProperty e.1))
  return OrderedMap.ofList entries

def labelStep (c : Planner α) (v name : String) : Step α :=
  match c.store.labelId? name with
  | some l => .ok (.selectLabel v l)
  | none => .error (.unknownLabels [name])

def propertySteps (c : Planner α) (v : String) (predicates : Option (Predicates α)) :
    List (Step α) :=
  match predicates with
  | none => []
  | some predicates =>
    [(c.propertyPredicates predicates).map (fun p => .selectProperties v p c.fixed)]

/-- The labels of a node variable in the order of their names, then its predicates. -/
def nodeSteps (c : Planner α) (q : Query α) (v : String) : List (Step α) :=
  ((q.pattern.labels? v).getD ∅).toList.map (c.labelStep v) ++
    c.propertySteps v (q.nodePredicates? v)

/-- A relationship under the name `e`, and its predicates. -/
def expandSteps (c : Planner α) (q : Query α) (r : Relationship) (base : String)
    (direction : Direction) (e target : String) : List (Step α) :=
  (c.types r).map (fun types => .expand base direction e types target) ::
    c.propertySteps e (q.relationshipPredicates? r.name)

def crossingSteps (c : Planner α) (q : Query α) (n : Nat) (x : Crossing) : List (Step α) :=
  c.expandSteps q x.relationship x.base x.direction (relationshipName n) x.next ++
    c.nodeSteps q x.next

def identify (c : Planner α) (staying leaving : String) : Operator α :=
  match c.strategy with
  | .mergeOn => .mergeOn staying leaving
  | .selfJoin => .selfJoin staying leaving

/-- A relationship to a new variable, which is then identified with the one that is bound. -/
def closingSteps (c : Planner α) (q : Query α) (n : Nat) (r : Relationship) : List (Step α) :=
  c.expandSteps q r r.source (if r.directed then .outgoing else .both) (relationshipName (n + 1))
      (temporaryName n) ++
    [.ok (c.identify r.target (temporaryName n))]

/-- Steps of a list of relationships that need `width` names each, from the number `n` on. -/
def numbered {ρ : Type} (steps : Nat → ρ → List (Step α)) (width : Nat) :
    (n : Nat) → List ρ → List (Step α)
  | _, [] => []
  | n, r :: rest => steps n r ++ numbered steps width (n + width) rest

/-- All steps behind the scan that begins a route, with names numbered from `n` on. -/
def routeSteps (c : Planner α) (q : Query α) (n : Nat) (route : Route) : List (Step α) :=
  c.nodeSteps q route.start ++ numbered (c.crossingSteps q) 1 n route.crossings ++
    numbered (c.closingSteps q) 2 (n + route.crossings.length) route.closing

end Planner

/-- Applies steps one after the other. -/
def follow [NumberHash α] (db : Database α) (e : Expression α) (steps : List (Step α)) :
    Except (Failure α) (Expression α) :=
  steps.foldlM (fun e step => do e.apply db (← step)) e

end PatternCardinality.Plan
