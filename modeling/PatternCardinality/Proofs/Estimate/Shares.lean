import Mathlib.Tactic.Ring
import PatternCardinality.Proofs.Estimate.Operator
import PatternCardinality.Proofs.Number.Exact

/-!
# Shares between nothing and everything

Tables of shares that operators make hold numbers between zero and one, given tables that do.
-/

namespace PatternCardinality.Estimate

open Labels

/-- A share of matches. -/
def IsShare (x : ℚ) : Prop := 0 ≤ x ∧ x ≤ 1

theorem isShare_zero : IsShare 0 := ⟨le_rfl, zero_le_one⟩

theorem isShare_one : IsShare 1 := ⟨zero_le_one, le_rfl⟩

theorem isShare_least {x : ℚ} (h : 0 ≤ x) : IsShare (Scalar.least x 1) := by
  rw [Scalar.least_rat]
  exact ⟨le_min h zero_le_one, min_le_right _ _⟩

theorem isShare_div {x y : ℚ} (hx : 0 ≤ x) (hxy : x ≤ y) : IsShare (x / y) :=
  ⟨div_nonneg hx (hx.trans hxy), div_le_one_of_le₀ hxy (hx.trans hxy)⟩

theorem isShare_joinedShare {a b : ℚ} (ha : IsShare a) (hb : IsShare b) :
    IsShare (joinedShare a b) := by
  have hcomplement : joinedShare a b = 1 - (1 - a) * (1 - b) := by
    rw [joinedShare]
    ring
  rw [hcomplement]
  have hprod : 0 ≤ (1 - a) * (1 - b) := mul_nonneg (sub_nonneg.mpr ha.2) (sub_nonneg.mpr hb.2)
  have hle : (1 - a) * (1 - b) ≤ 1 :=
    mul_le_one₀ (by linarith [ha.1]) (sub_nonneg.mpr hb.2) (by linarith [hb.1])
  exact ⟨by linarith, by linarith⟩

theorem isShare_mergedShare (factor s t : ℚ) : IsShare (mergedShare factor s t) := by
  simp only [mergedShare]
  split
  · exact isShare_zero
  · rw [Scalar.clampUnit_rat]
    exact ⟨le_min zero_le_one (le_max_left _ _), min_le_left _ _⟩

namespace LabelShares

/-- All entries of a table are shares. -/
def AllShares (shares : LabelShares ℚ) : Prop := ∀ l s, shares.get? l = some s → IsShare s

variable {shares left right : LabelShares ℚ}

theorem AllShares.of (h : shares.AllShares) (l : LabelId) : IsShare (shares.of l) := by
  rw [LabelShares.of, OrderedMap.getD]
  cases hs : shares.get? l with
  | none => exact isShare_zero
  | some s => exact h l s hs

theorem allShares_tabulate {f : LabelId → ℚ} {labels : OrderedSet LabelId}
    (h : ∀ l ∈ labels, IsShare (f l)) : AllShares (OrderedMap.tabulate f labels) := by
  intro l s hs
  rw [OrderedMap.get?_tabulate] at hs
  split at hs
  · next hl =>
    cases hs
    exact h l hl
  · cases hs

theorem allShares_singleton {l : LabelId} {x : ℚ} (hx : IsShare x) :
    AllShares (OrderedMap.singleton l x) := by
  intro m s hs
  obtain ⟨-, rfl⟩ := OrderedMap.eq_of_get?_singleton hs
  exact hx

/-- Entries put one after the other into a table of shares. -/
theorem AllShares.foldl_insert {f : LabelShares ℚ → LabelId × ℚ → ℚ} {entries : List (LabelId × ℚ)}
    (hf : ∀ m : LabelShares ℚ, m.AllShares → ∀ e ∈ entries, IsShare (f m e))
    (h : shares.AllShares) :
    AllShares (entries.foldl (fun m e => m.insert e.1 (f m e)) shares) := by
  refine List.foldlRecOn (motive := AllShares) entries _ h (fun m hm e he l s hs => ?_)
  rw [OrderedMap.get?_insert] at hs
  split at hs
  · cases hs
    exact hf m hm e he
  · exact hm l s hs

theorem AllShares.mergedShares (h : left.AllShares) (factor : ℚ) (right : LabelShares ℚ) :
    (Estimate.mergedShares factor left right).AllShares :=
  h.foldl_insert (fun _ _ _ _ => isShare_mergedShare _ _ _)

theorem AllShares.smallerShares (hl : left.AllShares) (hr : right.AllShares) :
    (Estimate.smallerShares left right).AllShares := by
  refine AllShares.foldl_insert (fun m hm e he => ?_) hl
  have hright : IsShare e.2 := hr e.1 e.2 (OrderedMap.mem_entries_iff.mp he)
  split
  · next s hs =>
    rw [Scalar.least_rat]
    exact ⟨le_min (hm e.1 s hs).1 hright.1, (min_le_right _ _).trans hright.2⟩
  · exact hright

theorem AllShares.joinedShares (db : Database ℚ) (hl : left.AllShares) (hr : right.AllShares) :
    (Estimate.joinedShares db left right).AllShares :=
  allShares_tabulate (fun l _ => isShare_joinedShare (hl.of l) (hr.of l))

/-- Labels that go with the selected one are certain; those below it cannot become more than that.
-/
theorem AllShares.narrowed (db : Database ℚ) (h : shares.AllShares) {label : LabelId}
    (hkept : 0 < shares.of label) : (Estimate.narrowed db shares label).AllShares := by
  refine allShares_tabulate (fun l _ => ?_)
  rw [narrowedShare]
  split
  · exact isShare_one
  · split
    · exact isShare_least (div_nonneg (h.of l).1 hkept.le)
    · split
      · exact h.of l
      · exact isShare_zero

/-- Shares scaled up after a selection, those of labels that were dropped being nothing. -/
theorem AllShares.rescaled (h : shares.AllShares) {selectivity : ℚ} (hs : 0 < selectivity)
    (kept : OrderedSet LabelId) :
    AllShares (shares.mapValues (fun l s =>
      if l ∈ kept then Scalar.least (s / selectivity) 1 else 0)) := by
  intro l s hget
  rw [OrderedMap.get?_mapValues] at hget
  obtain ⟨x, hx, rfl⟩ := Option.map_eq_some_iff.mp hget
  split
  · exact isShare_least (div_nonneg (h l x hx).1 hs.le)
  · exact isShare_zero

end LabelShares

/-- All tables of some node variables are tables of shares. -/
def AllTables (nodes : OrderedMap String (LabelShares ℚ)) : Prop :=
  ∀ v shares, nodes.get? v = some shares → shares.AllShares

variable {nodes left right : OrderedMap String (LabelShares ℚ)}

theorem AllTables.insert (h : AllTables nodes) {v : String} {shares : LabelShares ℚ}
    (hs : shares.AllShares) : AllTables (nodes.insert v shares) := by
  intro w s hw
  rw [OrderedMap.get?_insert] at hw
  split at hw
  · cases hw
    exact hs
  · exact h w s hw

theorem AllTables.erase (h : AllTables nodes) (v : String) : AllTables (nodes.erase v) := by
  intro w s hw
  rw [OrderedMap.get?_erase] at hw
  split at hw
  · cases hw
  · exact h w s hw

/-- The tables of a join are those of its sides, or joined where both have one. -/
theorem AllTables.joinedNodes (db : Database ℚ) (hl : AllTables left) (hr : AllTables right) :
    AllTables (joinedNodes db left right).1 := by
  refine List.foldlRecOn (motive := fun s : OrderedMap String (LabelShares ℚ) × Nat =>
    AllTables s.1) right.entries _ hl (fun s hs e he => ?_)
  have hright : e.2.AllShares := hr e.1 e.2 (OrderedMap.mem_entries_iff.mp he)
  dsimp only
  split
  · exact hs.insert hright
  · next shares hget => exact hs.insert ((hl e.1 shares hget).joinedShares db hright)

end PatternCardinality.Estimate
