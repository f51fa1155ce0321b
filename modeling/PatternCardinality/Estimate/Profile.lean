import PatternCardinality.Estimate.Database

/-! What is known of an intermediate result: how many matches it has, which share of them carries
each label at each node variable, and which types a relationship variable can have. -/

namespace PatternCardinality.Estimate

/-- The share of matches that carry each label. -/
abbrev LabelShares (α : Type) := OrderedMap LabelId α

abbrev TypeSet := OrderedSet TypeId

/-- The share of a label, nothing for one that is not known. -/
def LabelShares.of {α : Type} [Scalar α] (shares : LabelShares α) (l : LabelId) : α :=
  shares.getD l 0

/-- `initial` tells that the only node variable ranges over all nodes. -/
structure Profile (α : Type) where
  nodes : OrderedMap String (LabelShares α)
  relationships : OrderedMap String TypeSet
  size : α
  initial : Bool

namespace Profile

variable {α : Type} [Scalar α]

/-- Names bound both as node and as relationship variables. -/
def overlapping (nodes : OrderedMap String (LabelShares α))
    (relationships : OrderedMap String TypeSet) : List String :=
  nodes.keys.filter relationships.contains

/-- Fails if a name is bound both ways. -/
def make (nodes : OrderedMap String (LabelShares α)) (relationships : OrderedMap String TypeSet)
    (size : α) (initial : Bool) : Except (Failure α) (Profile α) :=
  match overlapping nodes relationships with
  | [] => .ok ⟨nodes, relationships, size, initial⟩
  | names => .error (.overlappingVariables names)

def isNode (p : Profile α) (v : String) : Bool := p.nodes.contains v

def isRelationship (p : Profile α) (v : String) : Bool := p.relationships.contains v

def labels (p : Profile α) (v : String) : Except (Failure α) (LabelShares α) :=
  match p.nodes.get? v with
  | some shares => .ok shares
  | none => .error (.unboundVariable v)

/-- The share of a variable's matches with a label. -/
def share (p : Profile α) (v : String) (l : LabelId) : α := ((p.nodes.get? v).getD ∅).of l

def types? (p : Profile α) (v : String) : Option TypeSet := p.relationships.get? v

/-- Labels in the order of the evidence that one variable gives. -/
def sortLabels (p : Profile α) (db : Database α) (v : String) (labels : List LabelId) :
    List LabelId := sortByEvidence db (p.share v) labels

/-- Labels in the order of the evidence that two variables give together. -/
def sortLabelsJointly (p : Profile α) (db : Database α) (v w : String) (labels : List LabelId) :
    List LabelId :=
  sortByEvidence db (fun l => Scalar.greatest (p.share v l) (p.share w l)) labels

end Profile

end PatternCardinality.Estimate
