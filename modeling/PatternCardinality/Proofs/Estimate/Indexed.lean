import Mathlib.Data.List.GetD
import PatternCardinality.Estimate.Join

/-!
# Groups read by index

A join of a result with itself keeps the sizes of groups, how much of each is covered and which of
its labels are not in arrays with one place for each group. Here every read and every update may
find no place at its index; with the group of a label it always does.
-/

namespace PatternCardinality.Estimate.Partition

open Labels

variable {α : Type} [Scalar α] (db : Database α)

/-- Adds to the number at an index. -/
def addAt? (xs : List α) (i : Nat) (x : α) : Option (List α) :=
  xs[i]?.map (fun y => xs.set i (y + x))

/-- Gives each label's share of what remains to its group. -/
def fill? : List LabelId → OrderedSet LabelId → List α → α → Option (List α)
  | [], _, sizes, _ => some sizes
  | l :: more, processed, sizes, remaining =>
    if l ∈ processed then fill? more processed sizes remaining
    else
      let processed := processed.union (db.distribution.below l)
      match db.distribution.groupOf? l with
      | none => fill? more processed sizes remaining
      | some group => do
        let part := nodeShare db l * remaining
        let sizes ← addAt? sizes group part
        if remaining - part ≤ 0 then some sizes else fill? more processed sizes (remaining - part)

/-- The share of the nodes that falls into each group. -/
def sizes? : Option (List α) :=
  let count := db.distribution.groups.length
  if count < 2 then some (List.replicate count 1)
  else do
    let order := sortByEvidence db (nodeShare db) db.labels.toList
    let parts ← fill? db order ∅ (List.replicate count 0) 1
    let sum := Scalar.sum parts
    some (if 0 < sum then parts.map (· / sum) else parts)

namespace Progress

/-- Pairs a label of the staying variable with the uncovered labels of the leaving one. -/
def paired? (sizes : List α) (leaving : LabelShares α) (group : Nat) (l : LabelId) (share : α)
    (s : Progress α) : Option α := do
  let free ← s.uncovered[group]?
  let coverage ← s.covered[group]?
  let size ← sizes[group]?
  some (free.toList.foldl (fun factor m =>
    let nodes := db.nodes m
    if leaving.of m ≤ 0 || nodes ≤ 0 then factor
    else factor + (1 - coverage) * conditional db size l m * share / nodes) s.factor)

/-- Covers a label and those below it. -/
def cover? (sizes : List α) (staying leaving : LabelShares α) (group : Nat) (l : LabelId)
    (s : Progress α) : Option (Progress α) := do
  let share := staying.of l
  let free ← s.uncovered[group]?
  let left := (free.erase l).filter (fun m => !decide (m ∈ db.distribution.below l))
  if l ∈ free then do
    let factor ← if 0 < share then paired? db sizes leaving group l share s else some s.factor
    let coverage ← s.covered[group]?
    let covered ← addAt? s.covered group ((1 - coverage) * share)
    some ⟨factor, s.remaining, covered, s.uncovered.set group left⟩
  else some { s with uncovered := s.uncovered.set group left }

def through? (sizes : List α) (staying leaving : LabelShares α) :
    List LabelId → Progress α → Option (Progress α)
  | [], s => some s
  | l :: more, s =>
    if s.remaining ≤ 0 then some s
    else match db.distribution.groupOf? l with
      | none => through? sizes staying leaving more s
      | some group => do
        let before ← s.covered[group]?
        let s ← if before < 1 then cover? db sizes staying leaving group l s else some s
        let after ← s.covered[group]?
        through? sizes staying leaving more
          { s with remaining := s.remaining - Scalar.least s.remaining after }

end Progress

/-- The factor by which identifying two variables changes the size. -/
def factor? (staying leaving : LabelShares α) : Option α := do
  let groups := db.distribution.groups
  let order :=
    sortByEvidence db (fun l => Scalar.greatest (staying.of l) (leaving.of l)) db.labels.toList
  let sizes ← sizes? db
  let s ← Progress.through? db sizes staying leaving order
    ⟨0, 1, List.replicate groups.length 0, groups⟩
  some (s.factor + s.remaining * db.total)

variable {db}

theorem groupOf?_lt {d : Distribution} {l : LabelId} {group : Nat}
    (h : d.groupOf? l = some group) : group < d.groups.length :=
  (List.findIdx?_eq_some_iff_findIdx_eq.mp h).1

theorem getElem?_eq_getD {β : Type} {xs : List β} {i : Nat} (hi : i < xs.length) (d : β) :
    xs[i]? = some (xs.getD i d) := by
  rw [List.getElem?_eq_getElem hi, List.getD_eq_getElem _ _ hi]

theorem addAt?_eq {xs : List α} {i : Nat} (hi : i < xs.length) (x : α) :
    addAt? xs i x = some (addAt xs i x) := by
  rw [addAt?, getElem?_eq_getD hi 0]
  rfl

@[simp] theorem length_addAt (xs : List α) (i : Nat) (x : α) : (addAt xs i x).length = xs.length :=
  List.length_set

section Sizes

theorem length_fill (labels : List LabelId) (processed : OrderedSet LabelId) (sizes : List α)
    (remaining : α) : (fill db labels processed sizes remaining).length = sizes.length := by
  induction labels generalizing processed sizes remaining with
  | nil => rfl
  | cons l labels ih =>
    rw [fill]
    split
    · exact ih ..
    · dsimp only
      split
      · exact ih ..
      · split
        · exact length_addAt ..
        · exact (ih ..).trans (length_addAt ..)

/-- There is a place for the group of every label. -/
theorem fill?_eq {labels : List LabelId} {processed : OrderedSet LabelId} {sizes : List α}
    {remaining : α} (hsizes : sizes.length = db.distribution.groups.length) :
    fill? db labels processed sizes remaining = some (fill db labels processed sizes remaining) := by
  induction labels generalizing processed sizes remaining with
  | nil => rfl
  | cons l labels ih =>
    rw [fill?, fill]
    by_cases hprocessed : l ∈ processed
    · rw [if_pos hprocessed, if_pos hprocessed, ih hsizes]
    · rw [if_neg hprocessed, if_neg hprocessed]
      cases hgroup : db.distribution.groupOf? l with
      | none => exact ih hsizes
      | some group =>
        have hlt : group < sizes.length := hsizes ▸ groupOf?_lt hgroup
        simp only [addAt?_eq hlt, Option.bind_eq_bind, Option.bind_some]
        rw [ih ((length_addAt ..).trans hsizes)]
        split <;> rfl

theorem length_sizes : (Partition.sizes db).length = db.distribution.groups.length := by
  rw [Partition.sizes]
  dsimp only
  split
  · exact List.length_replicate
  · split
    · exact (List.length_map ..).trans ((length_fill ..).trans List.length_replicate)
    · exact (length_fill ..).trans List.length_replicate

theorem sizes?_eq : sizes? db = some (Partition.sizes db) := by
  rw [sizes?, Partition.sizes]
  dsimp only
  split
  · rfl
  · rw [fill?_eq List.length_replicate]
    rfl

end Sizes

namespace Progress

/-- The arrays have a place for each group. -/
structure Placed (d : Distribution) (s : Progress α) : Prop where
  covered : s.covered.length = d.groups.length
  uncovered : s.uncovered.length = d.groups.length

variable {sizes : List α} {staying leaving : LabelShares α} {group : Nat} {l : LabelId}
  {s : Progress α}

theorem getElem?_covered (h : group < s.covered.length) :
    s.covered[group]? = some (s.coverage group) := getElem?_eq_getD h 0

omit [Scalar α] in
theorem getElem?_uncovered (h : group < s.uncovered.length) :
    s.uncovered[group]? = some (s.free group) := getElem?_eq_getD h ∅

theorem paired?_eq (hsizes : group < sizes.length) (hcovered : group < s.covered.length)
    (huncovered : group < s.uncovered.length) (share : α) :
    paired? db sizes leaving group l share s = some (paired db sizes leaving group l share s) := by
  rw [paired?, getElem?_eq_getD hsizes 0, getElem?_covered hcovered, getElem?_uncovered huncovered]
  rfl

theorem Placed.cover (h : Placed db.distribution s) :
    Placed db.distribution (s.cover db sizes staying leaving group l) := by
  rw [Progress.cover]
  split
  · exact ⟨(length_addAt ..).trans h.covered, List.length_set.trans h.uncovered⟩
  · exact ⟨h.covered, List.length_set.trans h.uncovered⟩

theorem cover?_eq (hsizes : sizes.length = db.distribution.groups.length)
    (h : Placed db.distribution s) (hgroup : group < db.distribution.groups.length) :
    cover? db sizes staying leaving group l s =
      some (s.cover db sizes staying leaving group l) := by
  have hcovered : group < s.covered.length := h.covered ▸ hgroup
  have huncovered : group < s.uncovered.length := h.uncovered ▸ hgroup
  rw [cover?, Progress.cover, getElem?_uncovered huncovered, getElem?_covered hcovered]
  simp only [Option.bind_eq_bind, Option.bind_some, addAt?_eq hcovered,
    paired?_eq (hsizes ▸ hgroup) hcovered huncovered]
  by_cases hl : l ∈ s.free group
  · rw [if_pos hl, if_pos hl]
    split <;> rfl
  · rw [if_neg hl, if_neg hl]

theorem through?_eq (hsizes : sizes.length = db.distribution.groups.length)
    (h : Placed db.distribution s) (labels : List LabelId) :
    through? db sizes staying leaving labels s =
      some (through db sizes staying leaving labels s) := by
  induction labels generalizing s with
  | nil => rfl
  | cons l labels ih =>
    rw [through?, through]
    split
    · rfl
    · cases hgroup : db.distribution.groupOf? l with
      | none => exact ih h
      | some group =>
        have hlt := groupOf?_lt hgroup
        simp only [getElem?_covered (h.covered ▸ hlt), Option.bind_eq_bind, Option.bind_some]
        by_cases hopen : s.coverage group < 1
        · have hcovered : Placed db.distribution (s.cover db sizes staying leaving group l) := h.cover
          simp only [if_pos hopen, cover?_eq hsizes h hlt, Option.bind_some,
            getElem?_covered (hcovered.covered ▸ hlt)]
          exact ih ⟨hcovered.covered, hcovered.uncovered⟩
        · simp only [if_neg hopen]
          exact ih ⟨h.covered, h.uncovered⟩

end Progress

/-- No read or update goes beyond the places for groups. -/
theorem factor?_eq (staying leaving : LabelShares α) :
    factor? db staying leaving = some (factor db staying leaving) := by
  have hstart : Progress.Placed db.distribution
      (⟨0, 1, List.replicate db.distribution.groups.length 0, db.distribution.groups⟩ :
        Progress α) := ⟨List.length_replicate, rfl⟩
  simp only [factor?, sizes?_eq, Option.bind_eq_bind, Option.bind_some,
    Progress.through?_eq length_sizes hstart]
  rfl

end PatternCardinality.Estimate.Partition
