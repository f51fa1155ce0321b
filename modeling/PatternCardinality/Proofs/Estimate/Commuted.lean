import Mathlib.Tactic.Ring
import PatternCardinality.Proofs.Estimate.Renaming
import PatternCardinality.Proofs.Number.Exact

/-!
# Joining in either order

A join starts from the variables of its left result and goes through those of the right one. What
it leaves at a variable is the same the other way round: shares that only one side has are kept, and
shares that both have are combined alike. It counts the variables of the right side that the left
one has, which are those that both have.
-/

namespace PatternCardinality.Estimate

open Statistics

section Variables

variable {α : Type}

/-- The node variables that two results share. -/
def sharedNames (left right : OrderedMap String (LabelShares α)) : OrderedSet String :=
  right.keySet.filter left.contains

theorem sharedNames_comm (left right : OrderedMap String (LabelShares α)) :
    sharedNames left right = sharedNames right left := by
  refine OrderedSet.ext (fun v => ?_)
  simp only [sharedNames, OrderedSet.mem_filter, OrderedMap.mem_keySet, and_comm]

variable [Scalar α]

/-- A join counts the variables that are shared. -/
theorem shared_joinedNodes (db : Database α) (left right : OrderedMap String (LabelShares α)) :
    (joinedNodes db left right).2 = (sharedNames left right).size := by
  have hcount : (joinedNodes db left right).2 =
      right.entries.foldl (fun n e => if left.contains e.1 then n + 1 else n) 0 := by
    refine (List.foldl_hom Prod.snd (fun s e => ?_)).symm
    rw [OrderedMap.contains]
    cases left.get? e.1 <;> rfl
  have hfold : ∀ (names : List String) (n : ℕ),
      names.foldl (fun n v => if left.contains v then n + 1 else n) n =
        n + (names.filter left.contains).length := by
    intro names
    induction names with
    | nil => exact fun n => rfl
    | cons v names ih =>
      intro n
      rw [List.foldl_cons, ih, List.filter_cons]
      split
      · rw [List.length_cons, Nat.add_right_comm, Nat.add_assoc]
      · rfl
  rw [hcount, ← List.foldl_map (f := Prod.fst)
    (g := fun n v => if left.contains v then n + 1 else n), hfold, Nat.zero_add]
  rfl

end Variables

variable {db : Database ℚ} {left right : Profile ℚ}

theorem joinedShare_comm (a b : ℚ) : joinedShare a b = joinedShare b a := by
  simp only [joinedShare]
  ring

theorem joinedShares_comm (left right : LabelShares ℚ) :
    joinedShares db left right = joinedShares db right left :=
  OrderedMap.tabulate_congr (fun _ _ => joinedShare_comm _ _)

theorem joinedNodes_comm (left right : OrderedMap String (LabelShares ℚ)) :
    joinedNodes db left right = joinedNodes db right left := by
  refine Prod.ext (OrderedMap.ext (fun v => ?_)) ?_
  · rw [get?_joinedNodes, get?_joinedNodes]
    cases left.get? v with
    | none => cases right.get? v <;> rfl
    | some shares =>
      cases right.get? v with
      | none => rfl
      | some others => exact congrArg some (joinedShares_comm shares others)
  · rw [shared_joinedNodes, shared_joinedNodes, sharedNames_comm]

/-- Results without a common relationship variable are joined alike in either order. -/
theorem join_comm (h : ∀ e, left.isRelationship e = true → right.isRelationship e = false) :
    join db left right = join db right left := by
  rw [join, join, joinedNodes_comm, OrderedMap.union_comm h, mul_comm left.size right.size]

/-- Ten nodes, each with one of two labels. -/
def halved : Database ℚ := ⟨⟨Store.empty 10, false⟩, .disjoint [0, 1]⟩

/-- Households, and what they own. -/
def households : Profile ℚ :=
  ⟨OrderedMap.ofList [("a", OrderedMap.ofList [(0, 1 / 2)]), ("b", OrderedMap.ofList [(1, 1 / 4)])],
    OrderedMap.singleton "owns" (OrderedSet.ofList [0]), 8, false⟩

/-- What is owned, and a guest of whom nothing is known. -/
def guests : Profile ℚ :=
  ⟨OrderedMap.ofList [("b", OrderedMap.ofList [(0, 1 / 3), (1, 1 / 2)]), ("c", ∅)], ∅, 6, false⟩

theorem join_comm_guests :
    (∀ e, households.isRelationship e = true → guests.isRelationship e = false) ∧
      join halved households guests = join halved guests households ∧
      (join halved households guests).toOption.map (fun p => (p.size, p.share "b" 1)) =
        some (24 / 5, 5 / 8) := by
  have h : ∀ e, households.isRelationship e = true → guests.isRelationship e = false :=
    fun _ _ => rfl
  exact ⟨h, join_comm h, by decide +kernel⟩

end PatternCardinality.Estimate
