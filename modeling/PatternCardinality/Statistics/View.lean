import PatternCardinality.Statistics.Store

/-! Statistics as the estimator asks for them. -/

namespace PatternCardinality.Statistics

/-- A store seen in full, or as a system would see it that counts relationships by type and by the
label at one end only. -/
structure View (α : Type) where
  store : Store α
  oneSided : Bool

namespace View

variable {α : Type} [Scalar α]

/-- With one-sided counts, two labels have at most what each has alone. -/
def relationshipCount (v : View α) (base : LabelId) (type : TypeId) (target : LabelId) : α :=
  if v.oneSided then
    Scalar.least (v.store.relationshipCount anyLabel type target)
      (v.store.relationshipCount base type anyLabel)
  else v.store.relationshipCount base type target

/-- Relationships met when nodes labelled `base` are left in a direction towards `target`. -/
def relationships (v : View α) (base : LabelId) (type : TypeId) (target : LabelId) :
    Direction → α
  | .outgoing => v.relationshipCount base type target
  | .incoming => v.relationshipCount target type base
  | .both => v.relationshipCount base type target + v.relationshipCount target type base

def nodes (v : View α) (label : LabelId) : α := v.store.nodes label

def nodeSelectivity (v : View α) (label : LabelId) (property : PropertyId) (hash : Option Int32) :
    α :=
  valueSelectivity (v.store.nodes label) (v.store.labelProperty? label property) hash

def nodeRangeSelectivity (v : View α) (label : LabelId) (property : PropertyId)
    (low high : Bound α) : α :=
  rangeSelectivity (v.store.nodes label) (v.store.labelProperty? label property) low high

def relationshipSelectivity (v : View α) (type : TypeId) (property : PropertyId)
    (hash : Option Int32) : α :=
  valueSelectivity (v.store.typeCount type) (v.store.typeProperty? type property) hash

def relationshipRangeSelectivity (v : View α) (type : TypeId) (property : PropertyId)
    (low high : Bound α) : α :=
  rangeSelectivity (v.store.typeCount type) (v.store.typeProperty? type property) low high

end View

end PatternCardinality.Statistics
