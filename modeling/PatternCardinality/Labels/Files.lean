import PatternCardinality.Files
import PatternCardinality.Labels.Distribution
import PatternCardinality.Labels.Variant
import PatternCardinality.Statistics.Store
import PatternCardinality.Text.Integer
import PatternCardinality.Text.Table

/-! Label distributions written as tables: one of labels with their sub-labels, one of groups with
their labels. Labels are named as in the statistics. -/

namespace PatternCardinality

namespace Labels

open Text

def subLabelFile : String := "sublabelMap.csv"

def partitionFile : String := "labelPartition.csv"

variable {α : Type} [Scalar α]

/-- The two fields of a row below a header of two fields. -/
def pair (row : Row) : Except (Failure α) (String × String) :=
  match row.fields with
  | [a, b] => .ok (a, b)
  | fields =>
    .error (.badTable (.unequalRow row.place.row row.place.line row.place.byte fields.length 2))

/-- The rows below the header, which must be the one expected. -/
def tableBody (files : Files) (path first second : String) : Except (Failure α) (List Row) :=
  match files path with
  | .error fault => .error (.badTable (.file fault))
  | .ok s =>
    match tableRows s with
    | header :: rows =>
      if header.fields = [first, second] then .ok rows
      else .error (.badSettings (.wrongHeader path first second))
    | [] => .error (.badSettings (.wrongHeader path first second))

/-- The sub-labels found so far, and the names that the statistics do not know. -/
structure SubLabelRows where
  known : SubLabels
  unknown : OrderedSet String

def SubLabelRows.add (store : Statistics.Store α) (r : SubLabelRows) (label sub : String) :
    SubLabelRows :=
  match store.labelId? label, store.labelId? sub with
  | some l, some s => { r with known := r.known.insert l ((r.known.of l).insert s) }
  | l, s =>
    let unknown := if l.isNone then r.unknown.insert label else r.unknown
    { r with unknown := if s.isNone then unknown.insert sub else unknown }

/-- Direct sub-labels; all unknown names are reported together. -/
def readSubLabels (files : Files) (path : String) (store : Statistics.Store α) :
    Except (Failure α) SubLabels := do
  let rows ← tableBody files path "label" "subLabel"
  let read ← rows.foldlM (fun r row => do
    let (label, sub) ← pair row
    return SubLabelRows.add store r label sub) ⟨∅, ∅⟩
  if read.unknown.isEmpty then return read.known
  else throw (.unknownLabels read.unknown.toList)

/-- Puts a label into a group, both as written. -/
def addToGroup (store : Statistics.Store α) (groups : OrderedMap Int (OrderedSet LabelId))
    (group label : String) : Except (Failure α) (OrderedMap Int (OrderedSet LabelId)) :=
  match signed? 10 (Nat.pow 2 63) group.toList with
  | none => .error (.badSettings (.badGroup group))
  | some id =>
    match store.labelId? label with
    | none => .error (.unknownLabels [label])
    | some l => .ok (groups.insert id ((groups.getD id ∅).insert l))

/-- The groups in the order of their numbers. -/
def readPartition (files : Files) (path : String) (store : Statistics.Store α) :
    Except (Failure α) (List (OrderedSet LabelId)) := do
  let rows ← tableBody files path "groupId" "label"
  let groups ← rows.foldlM (fun groups row => do
    let (group, label) ← pair row
    addToGroup store groups group label) ∅
  return groups.values

/-- Reads the parts that the variant uses. Without sub-labels there are none, and without a
partition all labels are in one group. -/
def load (files : Files) (directory : String) (variant : Variant) (store : Statistics.Store α) :
    Except (Failure α) Distribution := do
  let subLabels ←
    if variant.usesSubLabels then readSubLabels files (pathIn directory subLabelFile) store
    else pure ∅
  let groups ←
    if variant.usesPartition then readPartition files (pathIn directory partitionFile) store
    else pure [store.labelSet]
  Distribution.ofGroups groups subLabels

end Labels

end PatternCardinality
