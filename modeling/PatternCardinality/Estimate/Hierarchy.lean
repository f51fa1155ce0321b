import PatternCardinality.Labels.Distribution
import PatternCardinality.Number.Scalar

/-! Splitting the mass of label shares over labels. Groups are visited in order and the labels of a
group as the caller sorts them; a label below one that was visited receives nothing. What is left at
the end belongs to nodes of which no label is known. Several vectors of shares are split side by
side, and the walk ends when one of them has no mass left. -/

namespace PatternCardinality.Estimate

open Labels

/-- The mass that a label receives from each vector. -/
structure Visit (α : Type) (n : Nat) where
  group : Nat
  label : LabelId
  mass : Vector α n

structure Walk (α : Type) (n : Nat) where
  visits : List (Visit α n)
  rest : Vector α n

namespace Walk

variable {α : Type} [Scalar α] {n : Nat}

def exhausted (rest : Vector α n) : Bool := rest.toList.any (fun r => decide (r ≤ 0))

/-- The share of nodes with none of some labels, if labels are independent. -/
def outside (share : Fin n → LabelId → α) (supers : OrderedSet LabelId) (i : Fin n) : α :=
  Scalar.product (supers.toList.map (fun l => 1 - share i l))

/-- The mass left once the labels `supers` of a group are served too, `excluded` being the mass
that earlier groups have taken. -/
def remaining (share : Fin n → LabelId → α) (excluded rest : Vector α n)
    (supers : OrderedSet LabelId) : Vector α n :=
  Vector.ofFn fun i =>
    Scalar.least rest[i] (Scalar.nonNegative (outside share supers i - excluded[i]))

/-- Serves the labels of one group. The visited labels that no later one replaced are `supers`, and
`covered` are the labels below those met so far. -/
def throughGroup (d : Distribution) (share : Fin n → LabelId → α) (excluded : Vector α n)
    (group : Nat) : List LabelId → OrderedSet LabelId → OrderedSet LabelId → Vector α n → Walk α n
  | [], _, _, rest => ⟨[], rest⟩
  | l :: more, supers, covered, rest =>
    if exhausted rest then ⟨[], rest⟩
    else
      let below := d.below l
      if l ∈ covered then
        throughGroup d share excluded group more supers (covered.union below) rest
      else
        let supers := (supers.filter (fun s => !decide (s ∈ below))).insert l
        let next := remaining share excluded rest supers
        let mass := Vector.ofFn fun i => rest[i] - next[i]
        let walk := throughGroup d share excluded group more supers (covered.union below) next
        ⟨⟨group, l, mass⟩ :: walk.visits, walk.rest⟩

/-- Serves groups from the one with index `group` on. -/
def throughGroups (d : Distribution) (sort : OrderedSet LabelId → List LabelId)
    (share : Fin n → LabelId → α) :
    (group : Nat) → List (OrderedSet LabelId) → Vector α n → Walk α n
  | _, [], rest => ⟨[], rest⟩
  | group, labels :: more, rest =>
    if exhausted rest then ⟨[], rest⟩
    else
      let excluded := Vector.ofFn fun i => 1 - rest[i]
      let first := throughGroup d share excluded group (sort labels) ∅ ∅ rest
      let walk := throughGroups d sort share (group + 1) more first.rest
      ⟨first.visits ++ walk.visits, walk.rest⟩

/-- The walk over all groups, with mass one for each vector. -/
def complete (d : Distribution) (sort : OrderedSet LabelId → List LabelId)
    (share : Fin n → LabelId → α) : Walk α n :=
  throughGroups d sort share 0 d.groups (Vector.replicate n 1)

end Walk

end PatternCardinality.Estimate
