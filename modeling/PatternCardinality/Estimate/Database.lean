import PatternCardinality.Labels.Distribution
import PatternCardinality.Ordered.Sorting
import PatternCardinality.Statistics.View

/-! What an estimate draws on: statistics and the distribution of labels. -/

namespace PatternCardinality.Estimate

open Labels Statistics

structure Database (α : Type) where
  view : View α
  distribution : Distribution

namespace Database

variable {α : Type} [Scalar α]

def labels (db : Database α) : OrderedSet LabelId := db.distribution.labels

def nodes (db : Database α) (l : LabelId) : α := db.view.nodes l

def total (db : Database α) : α := db.view.nodes anyLabel

/-- Relationships of any of the types. -/
def relationships (db : Database α) (base : LabelId) (types : OrderedSet TypeId)
    (target : LabelId) (direction : Direction) : α :=
  Scalar.sum (types.toList.map (fun t => db.view.relationships base t target direction))

/-- Relationships per node with the label `base`, none if there are no such nodes. -/
def averageDegree (db : Database α) (base : LabelId) (types : OrderedSet TypeId)
    (target : LabelId) (direction : Direction) : α :=
  if db.nodes base ≤ 0 then 0 else db.relationships base types target direction / db.nodes base

/-- A share of matches per node with the label. -/
def density (db : Database α) (share : α) (l : LabelId) : α :=
  if 0 < db.nodes l then share / db.nodes l else 0

end Database

/-- A label with what speaks for it: the density of its share and the share. -/
structure Evidence (α : Type) where
  label : LabelId
  density : α
  share : α

namespace Evidence

variable {α : Type} [Scalar α]

/-- Denser labels first, then larger shares, then smaller identifiers. -/
def order (a b : Evidence α) : Ordering :=
  (Scalar.compareDescending a.density b.density).then
    ((Scalar.compareDescending a.share b.share).then (compare a.label b.label))

end Evidence

/-- Labels in the order of the evidence for them. -/
def sortByEvidence {α : Type} [Scalar α] (db : Database α) (share : LabelId → α)
    (labels : List LabelId) : List LabelId :=
  (sortBy (fun a b => (Evidence.order a b).isLE)
    (labels.map (fun l => ⟨l, db.density (share l) l, share l⟩))).map Evidence.label

end PatternCardinality.Estimate
