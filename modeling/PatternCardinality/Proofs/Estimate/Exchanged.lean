import Mathlib.Logic.Equiv.Basic
import PatternCardinality.Proofs.Estimate.Merged

/-!
# Merging variables either way

The walk over the labels treats its vectors of shares alike: with the vectors in another order it
visits the same labels, and gives them the same mass in that order. Two variables that are merged
have the evidence of a label in common. So it does not matter to the number of matches which of the
two stays, nor to the shares of labels of which both or neither know.
-/

namespace PatternCardinality.Estimate

open Labels

section Vectors

variable {α : Type} {n : ℕ}

/-- The entries of a vector in another order. -/
def reindexed (σ : Equiv.Perm (Fin n)) (x : Vector α n) : Vector α n := Vector.ofFn fun i => x[σ i]

theorem getElem_reindexed (σ : Equiv.Perm (Fin n)) (x : Vector α n) (i : Fin n) :
    getElem (reindexed σ x) i i.isLt = getElem x (σ i) (σ i).isLt := Vector.getElem_ofFn i.isLt

theorem reindexed_ofFn (σ : Equiv.Perm (Fin n)) (f : Fin n → α) :
    reindexed σ (Vector.ofFn f) = Vector.ofFn fun i => f (σ i) := by
  refine Vector.ext (fun i hi => ?_)
  simp [reindexed]

theorem reindexed_replicate (σ : Equiv.Perm (Fin n)) (x : α) :
    reindexed σ (Vector.replicate n x) = Vector.replicate n x := by
  refine Vector.ext (fun i hi => ?_)
  simp [reindexed]

end Vectors

namespace Walk

variable {α : Type} [Scalar α] {n : ℕ} {d : Distribution} {sort : OrderedSet LabelId → List LabelId}
  {share : Fin n → LabelId → α}

/-- The same visits, with the masses of the vectors in another order. -/
def permuted (σ : Equiv.Perm (Fin n)) (w : Walk α n) : Walk α n :=
  ⟨w.visits.map (fun v => { v with mass := reindexed σ v.mass }), reindexed σ w.rest⟩

variable (σ : Equiv.Perm (Fin n))

theorem exhausted_reindexed (rest : Vector α n) :
    exhausted (reindexed σ rest) = exhausted rest := by
  rw [Bool.eq_iff_iff, exhausted_iff, exhausted_iff]
  refine Iff.trans (exists_congr fun i => ?_) σ.surjective.exists.symm
  exact iff_of_eq (congrArg (· ≤ 0) (getElem_reindexed σ rest i))

theorem remaining_reindexed (excluded rest : Vector α n) (supers : OrderedSet LabelId) :
    remaining (fun i => share (σ i)) (reindexed σ excluded) (reindexed σ rest) supers =
      reindexed σ (remaining share excluded rest supers) := by
  rw [remaining, remaining, reindexed_ofFn]
  simp only [getElem_reindexed]
  rfl

/-- One group is served alike. -/
theorem throughGroup_permuted {excluded : Vector α n} {group : ℕ} {labels : List LabelId}
    {supers covered : OrderedSet LabelId} {rest : Vector α n} :
    throughGroup d (fun i => share (σ i)) (reindexed σ excluded) group labels supers covered
        (reindexed σ rest) =
      (throughGroup d share excluded group labels supers covered rest).permuted σ := by
  induction labels generalizing supers covered rest with
  | nil => rfl
  | cons l labels ih =>
    rw [throughGroup, throughGroup, exhausted_reindexed]
    split
    · rfl
    · dsimp only
      split
      · exact ih
      · rw [remaining_reindexed, ih, permuted, permuted, List.map_cons, reindexed_ofFn]
        simp only [getElem_reindexed]

theorem throughGroups_permuted {group : ℕ} {groups : List (OrderedSet LabelId)}
    {rest : Vector α n} :
    throughGroups d sort (fun i => share (σ i)) group groups (reindexed σ rest) =
      (throughGroups d sort share group groups rest).permuted σ := by
  induction groups generalizing group rest with
  | nil => rfl
  | cons labels groups ih =>
    have hexcluded : (Vector.ofFn fun i => 1 - (reindexed σ rest)[i]) =
        reindexed σ (Vector.ofFn fun i => 1 - rest[i]) := by
      rw [reindexed_ofFn]
      simp only [getElem_reindexed]
    simp only [throughGroups, exhausted_reindexed, hexcluded, throughGroup_permuted]
    split
    · rfl
    · rw [permuted, ih]
      simp only [permuted, List.map_append]

/-- Vectors in another order receive the same masses, in that order. -/
theorem complete_permuted :
    complete d sort (fun i => share (σ i)) = (complete d sort share).permuted σ := by
  rw [complete, complete, ← throughGroups_permuted, reindexed_replicate]

end Walk

variable {db : Database ℚ}

/-- The evidence of a label is the larger share, whichever variable has it. -/
theorem jointMass_exchanged (s t : LabelShares ℚ) :
    jointMass db t s = (jointMass db s t).permuted (Equiv.swap 0 1) := by
  have hshare : pairShare t s = fun i => pairShare s t (Equiv.swap 0 1 i) := by
    refine funext (Fin.forall_fin_two.mpr ⟨?_, ?_⟩)
    · rw [Equiv.swap_apply_left]
      rfl
    · rw [Equiv.swap_apply_right]
      rfl
  have hevidence : (fun l => Scalar.greatest (t.of l) (s.of l)) =
      fun l => Scalar.greatest (s.of l) (t.of l) := by
    funext l
    rw [Scalar.greatest_rat, Scalar.greatest_rat, max_comm]
  rw [jointMass, jointMass, hshare, hevidence, Walk.complete_permuted]

/-- The probability that two matches agree does not depend on their order. -/
theorem mergeFactor_comm (s t : LabelShares ℚ) : mergeFactor db t s = mergeFactor db s t := by
  have hswap : ∀ x : Vector ℚ 2, (reindexed (Equiv.swap 0 1) x).get 0 = x.get 1 ∧
      (reindexed (Equiv.swap 0 1) x).get 1 = x.get 0 := fun x =>
    ⟨getElem_reindexed (Equiv.swap 0 1) x 0, getElem_reindexed (Equiv.swap 0 1) x 1⟩
  rw [mergeFactor_eq, mergeFactor_eq, jointMass_exchanged, Walk.permuted, List.map_map]
  simp only [Function.comp_def, (hswap _).1, (hswap _).2, mul_comm (Vector.get _ 1)]

theorem mergedShare_comm (factor x y : ℚ) : mergedShare factor x y = mergedShare factor y x := by
  simp only [mergedShare, Scalar.least_rat, min_comm]

/-- A label of which both variables know, or neither, is left with the same share. -/
theorem get?_mergedShares_comm (factor : ℚ) {s t : LabelShares ℚ} {l : LabelId}
    (h : s.contains l = t.contains l) :
    OrderedMap.get? (mergedShares factor s t) l = OrderedMap.get? (mergedShares factor t s) l := by
  have hget : ∀ u v : LabelShares ℚ, OrderedMap.get? (mergedShares factor u v) l =
      ((v.get? l).map (mergedShare factor (u.of l))).or (u.get? l) := fun u v => by
    rw [mergedShares, OrderedMap.get?_foldl_entries (fun k x => mergedShare factor (u.of k) x)]
  rw [hget, hget]
  rw [OrderedMap.contains, OrderedMap.contains] at h
  cases hs : s.get? l <;> cases ht : t.get? l <;> simp_all [LabelShares.of, OrderedMap.getD,
    mergedShare_comm]

/-- Whichever of two node variables stays when they are merged, as many matches are left, and where
both know of the same labels, the variable that stays has the same shares of them. -/
theorem mergeOn_exchange (db : Database ℚ) {p : Profile ℚ}
    (hapart : ∀ v, p.isNode v = true → p.isRelationship v = false) {v w : String} (hne : v ≠ w)
    {s t : LabelShares ℚ} (hv : p.nodes.get? v = some s) (hw : p.nodes.get? w = some t) :
    ∃ p₁ p₂, mergeOn db v w p = .ok p₁ ∧ mergeOn db w v p = .ok p₂ ∧ p₁.size = p₂.size ∧
      (s.keySet = t.keySet → p₁.nodes.get? v = p₂.nodes.get? w) := by
  refine ⟨_, _, mergeOn_eq hne hapart hv hw, mergeOn_eq hne.symm hapart hw hv, ?_, fun hkeys => ?_⟩
  · rw [mergeFactor_comm t s]
  · rw [mergeFactor_comm t s, OrderedMap.get?_insert, OrderedMap.get?_insert, if_pos rfl,
      if_pos rfl]
    refine congrArg some (OrderedMap.ext (fun l => get?_mergedShares_comm _ ?_))
    rw [Bool.eq_iff_iff, ← OrderedMap.mem_keySet, ← OrderedMap.mem_keySet, hkeys]

/-- Ten nodes: six persons, of whom three are employees, and four cities. -/
def registered : Database ℚ :=
  ⟨⟨{ Statistics.Store.empty 10 with labelCounts := OrderedMap.ofList [(0, 6), (1, 3), (2, 4)] },
    false⟩, ⟨[OrderedSet.ofList [0, 1], OrderedSet.ofList [2]], .singleton 0 (.singleton 1)⟩⟩

def sender : LabelShares ℚ := OrderedMap.ofList [(0, 1 / 2), (1, 1 / 4), (2, 1 / 4)]

def receiver : LabelShares ℚ := OrderedMap.ofList [(0, 3 / 4), (1, 1 / 2), (2, 1 / 20)]

def messages : Profile ℚ := ⟨OrderedMap.ofList [("a", sender), ("b", receiver)], ∅, 40, false⟩

theorem mergeOn_exchange_messages :
    (∀ v, messages.isNode v = true → messages.isRelationship v = false) ∧ "a" ≠ "b" ∧
      messages.nodes.get? "a" = some sender ∧ messages.nodes.get? "b" = some receiver ∧
      sender.keySet = receiver.keySet ∧
      (mergeOn registered "a" "b" messages).toOption.map (fun p => (p.size, p.share "a" 2)) =
        some (289 / 120, 240 / 289) ∧
      ∃ p₁ p₂, mergeOn registered "a" "b" messages = .ok p₁ ∧
        mergeOn registered "b" "a" messages = .ok p₂ ∧ p₁.size = p₂.size ∧
        p₁.nodes.get? "a" = p₂.nodes.get? "b" := by
  have hapart : ∀ v, messages.isNode v = true → messages.isRelationship v = false := fun _ _ => rfl
  have hkeys : sender.keySet = receiver.keySet := by decide +kernel
  obtain ⟨p₁, p₂, h₁, h₂, hsize, hshares⟩ := mergeOn_exchange registered hapart
    (show "a" ≠ "b" by decide) (s := sender) (t := receiver) rfl rfl
  exact ⟨hapart, by decide, rfl, rfl, hkeys, by decide +kernel, p₁, p₂, h₁, h₂, hsize,
    hshares hkeys⟩

end PatternCardinality.Estimate
