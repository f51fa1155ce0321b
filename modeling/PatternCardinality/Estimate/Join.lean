import PatternCardinality.Estimate.Hierarchy
import PatternCardinality.Estimate.Profile

/-! Results joined, and node variables identified with each other. -/

namespace PatternCardinality.Estimate

open Labels

variable {α : Type} [Scalar α]

/-- The share of a label at a variable that two results share. -/
def joinedShare (a b : α) : α := a * b + (1 - a) * b + a * (1 - b)

def joinedShares (db : Database α) (left right : LabelShares α) : LabelShares α :=
  OrderedMap.tabulate (fun l => joinedShare (left.of l) (right.of l)) db.labels

/-- The node variables of both results, and the number of those they share. -/
def joinedNodes (db : Database α) (left right : OrderedMap String (LabelShares α)) :
    OrderedMap String (LabelShares α) × Nat :=
  right.entries.foldl (fun (nodes, shared) e =>
    match left.get? e.1 with
    | none => (nodes.insert e.1 e.2, shared)
    | some shares => (nodes.insert e.1 (joinedShares db shares e.2), shared + 1)) (left, 0)

/-- The probability that two matches meet in so many variables. -/
def matchProbability (db : Database α) (shared : Nat) : α :=
  if shared = 0 then 1
  else if 0 < db.total then (shared : α) / db.total
  else 0

/-- Combines two independent results. -/
def join (db : Database α) (left right : Profile α) : Except (Failure α) (Profile α) :=
  let (nodes, shared) := joinedNodes db left.nodes right.nodes
  Profile.make nodes (left.relationships.union right.relationships)
    (left.size * right.size * matchProbability db shared) false

/-- The two vectors of shares of a pair of variables. -/
def pairShare (staying leaving : LabelShares α) (i : Fin 2) : LabelId → α :=
  if i = 0 then staying.of else leaving.of

/-- How the mass of both variables falls on labels, taken in the order of their joint evidence. -/
def jointMass (db : Database α) (staying leaving : LabelShares α) : Walk α 2 :=
  Walk.complete db.distribution
    (fun group =>
      sortByEvidence db (fun l => Scalar.greatest (staying.of l) (leaving.of l)) group.toList)
    (pairShare staying leaving)

/-- The probability that two random matches agree in their node, label by label. -/
def mergeFactor (db : Database α) (staying leaving : LabelShares α) : α :=
  let walk := jointMass db staying leaving
  let known := walk.visits.foldl (fun factor v =>
    let nodes := db.nodes v.label
    if nodes ≤ 0 then factor else factor + v.mass[0] * v.mass[1] / nodes) 0
  let total := db.total
  if 0 < total then known + walk.rest[0] * walk.rest[1] / total else known

/-- The share of a label that both variables may carry. -/
def mergedShare (factor s t : α) : α :=
  let overlap := Scalar.least s t
  if overlap == 0 || factor == 0 then 0 else Scalar.clampUnit (overlap / factor)

/-- The shares of the variable that stays; labels of which the leaving one knows nothing keep
theirs. -/
def mergedShares (factor : α) (staying leaving : LabelShares α) : LabelShares α :=
  leaving.entries.foldl (fun m e => m.insert e.1 (mergedShare factor (staying.of e.1) e.2)) staying

/-- Replaces the shares of the variable that stays and forgets the other. -/
def identified (p : Profile α) (staying leaving : String) (shares : LabelShares α) (factor : α) :
    Except (Failure α) (Profile α) :=
  Profile.make ((p.nodes.erase leaving).insert staying shares) p.relationships (p.size * factor)
    false

/-- Identifies `leaving` with `staying`, weighted by the hierarchy of labels. -/
def mergeOn (db : Database α) (staying leaving : String) (p : Profile α) :
    Except (Failure α) (Profile α) := do
  if staying = leaving then throw (.sameVariable staying)
  else
    let s ← p.labels staying
    let l ← p.labels leaving
    let factor := mergeFactor db s l
    identified p staying leaving (mergedShares factor s l) factor

namespace Partition

def nodeShare (db : Database α) (l : LabelId) : α :=
  if 0 < db.total then db.nodes l / db.total else 0

/-- Adds to one number of a list. -/
def addAt (xs : List α) (i : Nat) (x : α) : List α := xs.set i (xs.getD i 0 + x)

/-- Gives each label's share of what remains to its group, labels below earlier ones left out. -/
def fill (db : Database α) : List LabelId → OrderedSet LabelId → List α → α → List α
  | [], _, sizes, _ => sizes
  | l :: more, processed, sizes, remaining =>
    if l ∈ processed then fill db more processed sizes remaining
    else
      let processed := processed.union (db.distribution.below l)
      match db.distribution.groupOf? l with
      | none => fill db more processed sizes remaining
      | some group =>
        let part := nodeShare db l * remaining
        let sizes := addAt sizes group part
        if remaining - part ≤ 0 then sizes else fill db more processed sizes (remaining - part)

/-- The share of the nodes that falls into each group. With fewer than two groups each counts as
everything. -/
def sizes (db : Database α) : List α :=
  let count := db.distribution.groups.length
  if count < 2 then List.replicate count 1
  else
    let order := sortByEvidence db (nodeShare db) db.labels.toList
    let parts := fill db order ∅ (List.replicate count 0) 1
    let sum := Scalar.sum parts
    if 0 < sum then parts.map (· / sum) else parts

/-- The probability that a node labelled `given` carries `label` too. -/
def conditional (db : Database α) (size : α) (given label : LabelId) : α :=
  let d := db.distribution
  if d.isBelow label given then
    if db.nodes given ≤ 0 then 0 else Scalar.least (db.nodes label / db.nodes given) 1
  else if label = given || d.isBelow given label then 1
  else if db.total ≤ 0 then 0
  else
    let share := db.nodes label / db.total
    if size ≤ 0 then share else Scalar.least (share / size) 1

/-- How far a join has come: the factor, the mass that remains, and for each group how much of it is
covered and which labels are not. -/
structure Progress (α : Type) where
  factor : α
  remaining : α
  covered : List α
  uncovered : List (OrderedSet LabelId)

namespace Progress

def coverage (s : Progress α) (group : Nat) : α := s.covered.getD group 0

def free (s : Progress α) (group : Nat) : OrderedSet LabelId := s.uncovered.getD group ∅

/-- Pairs a label of the staying variable with the uncovered labels of the leaving one. -/
def paired (db : Database α) (sizes : List α) (leaving : LabelShares α) (group : Nat) (l : LabelId)
    (share : α) (s : Progress α) : α :=
  (s.free group).toList.foldl (fun factor m =>
    let nodes := db.nodes m
    if leaving.of m ≤ 0 || nodes ≤ 0 then factor
    else
      factor + (1 - s.coverage group) * conditional db (sizes.getD group 0) l m * share / nodes)
    s.factor

/-- Covers a label and those below it. -/
def cover (db : Database α) (sizes : List α) (staying leaving : LabelShares α) (group : Nat)
    (l : LabelId) (s : Progress α) : Progress α :=
  let share := staying.of l
  let free := s.free group
  let left := (free.erase l).filter (fun m => !decide (m ∈ db.distribution.below l))
  let s :=
    if l ∈ free then
      { s with
        factor := if 0 < share then s.paired db sizes leaving group l share else s.factor
        covered := addAt s.covered group ((1 - s.coverage group) * share) }
    else s
  { s with uncovered := s.uncovered.set group left }

def through (db : Database α) (sizes : List α) (staying leaving : LabelShares α) :
    List LabelId → Progress α → Progress α
  | [], s => s
  | l :: more, s =>
    if s.remaining ≤ 0 then s
    else match db.distribution.groupOf? l with
      | none => through db sizes staying leaving more s
      | some group =>
        let s := if s.coverage group < 1 then s.cover db sizes staying leaving group l else s
        through db sizes staying leaving more
          { s with remaining := s.remaining - Scalar.least s.remaining (s.coverage group) }

end Progress

/-- The factor by which identifying two variables changes the size. -/
def factor (db : Database α) (staying leaving : LabelShares α) : α :=
  let groups := db.distribution.groups
  let order :=
    sortByEvidence db (fun l => Scalar.greatest (staying.of l) (leaving.of l)) db.labels.toList
  let s := Progress.through db (sizes db) staying leaving order
    ⟨0, 1, List.replicate groups.length 0, groups⟩
  s.factor + s.remaining * db.total

end Partition

/-- Each label has the smaller of its shares, or the one that is known. -/
def smallerShares (staying leaving : LabelShares α) : LabelShares α :=
  leaving.entries.foldl (fun m e =>
    m.insert e.1 (match m.get? e.1 with
      | some s => Scalar.least s e.2
      | none => e.2)) staying

/-- Identifies `leaving` with `staying`, weighted by the sizes of groups. -/
def selfJoin (db : Database α) (staying leaving : String) (p : Profile α) :
    Except (Failure α) (Profile α) := do
  if staying = leaving then throw (.sameVariable staying)
  else
    let s ← p.labels staying
    let l ← p.labels leaving
    identified p staying leaving (smallerShares s l) (Partition.factor db s l)

end PatternCardinality.Estimate
