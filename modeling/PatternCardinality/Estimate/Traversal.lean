import PatternCardinality.Estimate.Hierarchy
import PatternCardinality.Estimate.Selection

/-! Results extended along relationships. From all nodes the counts are exact; from other results
the number of relationships per match is estimated by the average degree of the labels that the
base carries. -/

namespace PatternCardinality.Estimate

variable {α : Type} [Scalar α]

/-- What is followed: relationships of some types in a direction. -/
structure Traversal (α : Type) where
  db : Database α
  types : TypeSet
  direction : Direction

namespace Traversal

def degree (t : Traversal α) (base target : LabelId) : α :=
  t.db.averageDegree base t.types target t.direction

/-- How the mass of one variable's shares falls on labels. -/
def massOf (t : Traversal α) (shares : LabelShares α) : Walk α 1 :=
  Walk.complete t.db.distribution (fun group => sortByEvidence t.db shares.of group.toList)
    (fun _ => shares.of)

/-- Relationships per match towards nodes with a label. -/
def degreeTo (t : Traversal α) (shares : LabelShares α) (target : LabelId) : α :=
  let walk := t.massOf shares
  walk.visits.foldl (fun d v => d + v.mass[0] * t.degree v.label target) 0 +
    walk.rest[0] * t.degree anyLabel target

/-- What the labels of one group at a bound target add: the degree so far, and how much of the
target is covered. -/
def throughBoundGroup (t : Traversal α) (base target : LabelShares α) :
    List LabelId → OrderedSet LabelId → α → α → α × α
  | [], _, degree, coverage => (degree, coverage)
  | l :: more, covered, degree, coverage =>
    if 1 ≤ coverage then (degree, coverage)
    else
      let below := t.db.distribution.below l
      if l ∈ covered then throughBoundGroup t base target more (covered.union below) degree coverage
      else
        let share := target.of l
        let free := 1 - coverage
        throughBoundGroup t base target more (covered.union below)
          (degree + free * t.degreeTo base l * t.db.density share l) (coverage + free * share)

def throughBoundGroups (t : Traversal α) (base target : LabelShares α) :
    List (OrderedSet LabelId) → α → α → α × α
  | [], degree, remaining => (degree, remaining)
  | group :: more, degree, remaining =>
    if remaining ≤ 0 then (degree, remaining)
    else
      let labels := sortByEvidence t.db target.of group.toList
      let (degree, coverage) := t.throughBoundGroup base target labels ∅ degree 0
      throughBoundGroups t base target more degree
        (remaining - Scalar.least remaining coverage)

/-- Relationships per match towards the very node that is bound to the target. -/
def degreeToBound (t : Traversal α) (base target : LabelShares α) : α :=
  let (degree, remaining) := t.throughBoundGroups base target t.db.distribution.groups 0 1
  let total := t.db.total
  if 0 < total then degree + remaining * t.degreeTo base anyLabel / total else degree

/-- What is reached: the size of the result and the shares at its base and target. -/
structure Reached (α : Type) where
  size : α
  base : LabelShares α
  target : LabelShares α

/-- Shares of zero for all labels. -/
def nothing (t : Traversal α) : LabelShares α := OrderedMap.tabulate (fun _ => 0) t.db.labels

/-- The exact counts, when the base ranges over all nodes. -/
def fromAllNodes (t : Traversal α) (base : LabelShares α) : Reached α :=
  let count (base target : LabelId) := t.db.relationships base t.types target t.direction
  let size := count anyLabel anyLabel
  if size ≤ 0 then ⟨size, base, t.nothing⟩
  else
    ⟨size, OrderedMap.tabulate (fun l => count l anyLabel / size) t.db.labels,
      OrderedMap.tabulate (fun l => count anyLabel l / size) t.db.labels⟩

/-- The share of a label at the base after the step. -/
def baseShare (t : Traversal α) (size degree : α) (base : LabelShares α) (l : LabelId) : α :=
  let kept := base.of l
  let selected := if kept ≤ 0 then 0 else size * kept
  if 0 < selected then
    Scalar.least (t.degreeTo (narrowed t.db base l) anyLabel * kept / degree) 1
  else 0

/-- The share of a label at a target that was bound before the step. -/
def boundTargetShare (t : Traversal α) (degree : α) (base target : LabelShares α) (l : LabelId) :
    α :=
  Scalar.least (t.degreeTo base l * target.of l / t.db.nodes l / degree) 1

/-- The estimate from a result of some size, whose target may be bound already. -/
def fromResult (t : Traversal α) (size : α) (base : LabelShares α)
    (target : Option (LabelShares α)) : Reached α :=
  let degree := match target with
    | some target => t.degreeToBound base target
    | none => t.degreeTo base anyLabel
  if degree ≤ 0 then ⟨size * degree, base, t.nothing⟩
  else
    let targetShares := match target with
      | some target =>
        OrderedMap.tabulate (t.boundTargetShare degree base target)
          (t.db.labels.filter (fun l => decide (0 < t.db.nodes l)))
      | none => OrderedMap.tabulate (fun l => t.degreeTo base l / degree) t.db.labels
    ⟨size * degree, OrderedMap.tabulate (t.baseShare size degree base) t.db.labels, targetShares⟩

end Traversal

/-- Follows relationships from `base` to `target`, which may be the same variable. -/
def expand (db : Database α) (base : String) (direction : Direction) (relationship : String)
    (types : TypeSet) (target : String) (p : Profile α) : Except (Failure α) (Profile α) := do
  let shares ← p.labels base
  if p.isRelationship relationship then throw (.boundVariable relationship)
  else
    let t : Traversal α := ⟨db, types, direction⟩
    let reached :=
      if p.initial then t.fromAllNodes shares
      else t.fromResult p.size shares (p.nodes.get? target)
    Profile.make ((p.nodes.insert base reached.base).insert target reached.target)
      (p.relationships.insert relationship types) reached.size false

end PatternCardinality.Estimate
