import PatternCardinality.Pattern.Component
import PatternCardinality.Plan.Chain

/-! Plans of queries: one chain of operators for each connected part of the pattern, joined from
left to right. -/

namespace PatternCardinality.Plan

open Estimate Statistics

/-- The routes through the connected parts of a pattern. -/
def routes {α : Type} (p : Pattern) : Except (Failure α) (List Route) := do
  let name (i : Nat) : Option String := (p.nodes[i]?).map (·.name)
  let components ← p.components
  return components.filterMap (fun positions =>
    match positions.filterMap name with
    | [] => none
    | first :: more => some (Route.through p first more))

variable {α : Type} [Scalar α] [NumberHash α]

/-- The plan of one connected part, with names numbered from `n` on. -/
def planRoute (c : Planner α) (db : Database α) (q : Query α) (n : Nat) (route : Route) :
    Except (Failure α) (Expression α) := do
  let scan ← Expression.leaf db (.scan route.start)
  follow db scan (c.routeSteps q n route)

/-- Joins a plan with those of further parts. -/
def joinRoutes (c : Planner α) (db : Database α) (q : Query α) :
    (n : Nat) → Expression α → List Route → Except (Failure α) (Expression α)
  | _, left, [] => .ok left
  | n, left, route :: rest => do
    let right ← planRoute c db q n route
    let joined ← Expression.make db .join [left, right]
    joinRoutes c db q (n + route.freshCount) joined rest

/-- The plan of a query, computed as it is built. -/
def planQuery (c : Planner α) (db : Database α) (q : Query α) :
    Except (Failure α) (Expression α) := do
  if q.pattern.nodes.isEmpty then throw (.badPattern .empty)
  else match ← routes q.pattern with
  | [] => throw (.badPattern .empty)
  | route :: rest => do
    let first ← planRoute c db q 0 route
    joinRoutes c db q route.freshCount first rest

end PatternCardinality.Plan
