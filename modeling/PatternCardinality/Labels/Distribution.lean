import PatternCardinality.Failure
import PatternCardinality.Labels.Closure
import PatternCardinality.Ordered.Sorting

/-! How labels overlap. Labels of one group may meet on a node, labels of different groups never do;
every node with a sub-label of a label carries that label too. -/

namespace PatternCardinality.Labels

structure Distribution where
  groups : List (OrderedSet LabelId)
  subLabels : SubLabels
  deriving DecidableEq

namespace Distribution

/-- The group that holds a label. -/
def groupOf? (d : Distribution) (l : LabelId) : Option Nat :=
  d.groups.findIdx? (fun g => decide (l ∈ g))

def labels (d : Distribution) : OrderedSet LabelId := d.groups.foldl OrderedSet.union ∅

/-- Direct and indirect sub-labels. -/
def below (d : Distribution) (l : LabelId) : OrderedSet LabelId := d.subLabels.of l

def isBelow (d : Distribution) (sub l : LabelId) : Bool := decide (sub ∈ d.below l)

/-- Groups in the order of their least labels, those without labels left out. -/
def canonical (groups : List (OrderedSet LabelId)) : List (OrderedSet LabelId) :=
  sortBy (fun g h => (compare g.least? h.least?).isLE) (groups.filter (fun g => !g.isEmpty))

/-- The first label that an earlier group holds too, with the indices of both groups. -/
def shared? (index : Nat) (before : List (OrderedSet LabelId)) :
    List (OrderedSet LabelId) → Option (LabelId × Nat × Nat)
  | [] => none
  | g :: rest =>
    let first := g.toList.findSome? (fun l =>
      (before.findIdx? (fun h => decide (l ∈ h))).map (fun other => (l, other, index)))
    match first with
    | some found => some found
    | none => shared? (index + 1) (before ++ [g]) rest

/-- Fails if two groups share a label. The sub-labels given are direct ones. -/
def ofGroups {α : Type} (groups : List (OrderedSet LabelId)) (direct : SubLabels) :
    Except (Failure α) Distribution :=
  let groups := canonical groups
  match shared? 0 [] groups with
  | some (label, first, second) => .error (.sharedLabel label first second)
  | none => .ok ⟨groups, direct.closure⟩

/-- All labels in one group. -/
def single (labels : List LabelId) : Distribution :=
  let group := OrderedSet.ofList labels
  ⟨if group.isEmpty then [] else [group], ∅⟩

/-- Every label in a group of its own. -/
def disjoint (labels : List LabelId) : Distribution :=
  ⟨(OrderedSet.ofList labels).toList.map OrderedSet.singleton, ∅⟩

end Distribution

end PatternCardinality.Labels
