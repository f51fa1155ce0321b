import PatternCardinality.Graph.Identifier
import PatternCardinality.Ordered.Map

/-! The transitive closure of a sub-label relation. A label takes over the sub-labels of its
sub-labels, itself left out, until nothing changes. -/

namespace PatternCardinality.Labels

/-- The sub-labels of each label. -/
abbrev SubLabels := OrderedMap LabelId (OrderedSet LabelId)

namespace SubLabels

def of (m : SubLabels) (l : LabelId) : OrderedSet LabelId := m.getD l ∅

/-- The sub-labels of a label and theirs, but not the label itself. -/
def extended (m : SubLabels) (l : LabelId) : OrderedSet LabelId :=
  ((m.of l).toList.foldl (fun s sub => s.union (m.of sub)) (m.of l)).erase l

def absorb (m : SubLabels) (l : LabelId) : SubLabels := m.insert l (m.extended l)

/-- Lets labels absorb one after the other, each seeing what those before it have become. -/
def pass (order : List LabelId) (m : SubLabels) : SubLabels := order.foldl absorb m

/-- Repeats the pass over all labels until it changes nothing. -/
def settle : (fuel : Nat) → SubLabels → SubLabels
  | 0, m => m
  | fuel + 1, m =>
    let next := pass m.keys m
    if next = m then m else settle fuel next

/-- More passes than can change anything: a set first loses its own label at most, then grows. -/
def passes (m : SubLabels) : Nat :=
  m.size * ((m.values.map OrderedSet.size).foldr (· + ·) 0 + 1) + 2

/-- The closed relation; labels without sub-labels have no entry. -/
def closure (m : SubLabels) : SubLabels :=
  (settle m.passes m).filter (fun _ subs => !subs.isEmpty)

end SubLabels

end PatternCardinality.Labels
