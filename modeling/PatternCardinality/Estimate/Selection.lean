import PatternCardinality.Estimate.Profile
import PatternCardinality.Query.Predicate

/-! Results that begin with all nodes, and results narrowed to a label, to types of relationships or
to values of properties. -/

namespace PatternCardinality.Estimate

open Labels

variable {α : Type} [Scalar α]

/-- All nodes, bound to one variable. -/
def scan (db : Database α) (v : String) : Except (Failure α) (Profile α) :=
  let total := db.total
  let shares := OrderedMap.tabulate (fun l => if 0 < total then db.nodes l / total else 0) db.labels
  Profile.make (OrderedMap.singleton v shares) ∅ total true

/-- The share of `l` among matches that carry `label`, which had the share `kept`. -/
def narrowedShare (d : Distribution) (shares : LabelShares α) (label : LabelId) (kept : α)
    (l : LabelId) : α :=
  if l = label || d.isBelow label l then 1
  else if d.isBelow l label then Scalar.least (shares.of l / kept) 1
  else if d.groupOf? l = d.groupOf? label then shares.of l
  else 0

def narrowed (db : Database α) (shares : LabelShares α) (label : LabelId) : LabelShares α :=
  OrderedMap.tabulate (narrowedShare db.distribution shares label (shares.of label)) db.labels

/-- Keeps the matches in which `v` carries a label. -/
def selectLabel (db : Database α) (v : String) (label : LabelId) (p : Profile α) :
    Except (Failure α) (Profile α) := do
  let shares ← p.labels v
  let kept := shares.of label
  if kept ≤ 0 then Profile.make p.nodes p.relationships 0 false
  else
    Profile.make (p.nodes.insert v (narrowed db shares label)) p.relationships (p.size * kept) false

/-- Keeps the matches in which the relationship variable `v` has one of some types. The labels at
its ends are left as they are. -/
def selectTypes (db : Database α) (v : String) (allowed : TypeSet) (p : Profile α) :
    Except (Failure α) (Profile α) :=
  match p.types? v with
  | none => .error (.unboundVariable v)
  | some old =>
    let new := allowed.filter (fun t => decide (t ∈ old))
    let before := db.relationships anyLabel old anyLabel .outgoing
    let ratio :=
      if 0 < before then db.relationships anyLabel new anyLabel .outgoing / before else 0
    Profile.make p.nodes (p.relationships.insert v new) (p.size * ratio) false

/-- Predicates by property. -/
abbrev PropertyPredicates (α : Type) := OrderedMap PropertyId (Predicate α)

/-- The selectivity of a predicate, given those of one value and of a range. -/
def predicateSelectivity [Statistics.NumberHash α] (point : Option Int32 → α)
    (range : Bound α → Bound α → α) (predicate : Predicate α) : α :=
  match predicate with
  | .range low high => if low.eq high then point predicate.valueHash? else range low high
  | .text _ => point predicate.valueHash?

/-- The mean selectivity of one predicate over candidates. -/
def meanSelectivity (selectivity : Int32 → α) (candidates : List Int32) : α :=
  (candidates.map selectivity).foldl (· + ·) 0 / (candidates.length : α)

/-- The least mean over predicates, and the candidates that some predicate selects from. -/
def combinedSelectivity (candidates : List Int32) (predicates : PropertyPredicates α)
    (selectivity : Int32 → PropertyId → Predicate α → α) : α × OrderedSet Int32 :=
  let means := predicates.entries.map
    (fun e => meanSelectivity (fun c => selectivity c e.1 e.2) candidates)
  let overall := means.foldl (fun b m => b.least (Scalar.toBound m)) Bound.highest
  let selected (c : Int32) : Bool :=
    predicates.entries.any (fun e => decide (0 < selectivity c e.1 e.2))
  (Scalar.ofBound overall, OrderedSet.ofList (candidates.filter selected))

/-- The selectivity of each predicate on a node of which no label is known. -/
def defaultSelectivity : α := 1 / ((10 : Nat) : α)

variable [Statistics.NumberHash α]

def nodeSelectivity (db : Database α) (label : LabelId) (property : PropertyId)
    (predicate : Predicate α) : α :=
  predicateSelectivity (db.view.nodeSelectivity label property)
    (db.view.nodeRangeSelectivity label property) predicate

def relationshipSelectivity (db : Database α) (type : TypeId) (property : PropertyId)
    (predicate : Predicate α) : α :=
  predicateSelectivity (db.view.relationshipSelectivity type property)
    (db.view.relationshipRangeSelectivity type property) predicate

/-- The share of matches that satisfy all predicates at a node, and the labels that it may carry
then. A fixed selectivity takes the place of statistics. -/
def nodeReduction (db : Database α) (shares : LabelShares α) (predicates : PropertyPredicates α)
    (fixed : Option α) : α × OrderedSet LabelId :=
  let candidates := (shares.filter (fun _ s => decide (0 < s))).keys
  if candidates.isEmpty then (Scalar.power defaultSelectivity predicates.size, ∅)
  else match fixed with
    | some s => (Scalar.power s predicates.size, ∅)
    | none => combinedSelectivity candidates predicates (nodeSelectivity db)

def selectNodes (db : Database α) (v : String) (predicates : PropertyPredicates α)
    (fixed : Option α) (shares : LabelShares α) (p : Profile α) :
    Except (Failure α) (Profile α) :=
  let (selectivity, kept) := nodeReduction db shares predicates fixed
  let rescaled := shares.mapValues
    (fun l s => if l ∈ kept then Scalar.least (s / selectivity) 1 else 0)
  let nodes := if 0 < selectivity then p.nodes.insert v rescaled else p.nodes
  Profile.make nodes p.relationships (p.size * selectivity) false

def selectRelationships (db : Database α) (v : String) (predicates : PropertyPredicates α)
    (fixed : Option α) (types : TypeSet) (p : Profile α) : Except (Failure α) (Profile α) :=
  if types.isEmpty then .error (.emptyTypes v)
  else
    let (selectivity, kept) := match fixed with
      | some s => (Scalar.power s predicates.size, types)
      | none => combinedSelectivity types.toList predicates (relationshipSelectivity db)
    Profile.make p.nodes (p.relationships.insert v kept) (p.size * selectivity) false

/-- Keeps the matches in which the node or relationship `v` satisfies all predicates. -/
def selectProperties (db : Database α) (v : String) (predicates : PropertyPredicates α)
    (fixed : Option α) (p : Profile α) : Except (Failure α) (Profile α) :=
  if predicates.isEmpty then .error (.emptyPredicates v)
  else match p.nodes.get? v with
    | some shares => selectNodes db v predicates fixed shares p
    | none =>
      match p.types? v with
      | some types => selectRelationships db v predicates fixed types p
      | none => .error (.unboundVariable v)

end PatternCardinality.Estimate
