import PatternCardinality.Proofs.Ordered.Set
import PatternCardinality.Proofs.Pattern.Component
import PatternCardinality.Query.Part

/-!
# Connected sets of places

Sets grow by one place at a time along edges, from single places on. What is grown is connected, and
every connected set is grown: as long as a connected set is not reached, an edge leads from what is
reached to the rest of it.
-/

namespace PatternCardinality

namespace Pattern

variable {κ : Type} [Ord κ] [DecidableEq κ]

/-- The edges with both ends in a set. -/
def inside (edges : List (κ × κ)) (s : OrderedSet κ) : List (κ × κ) :=
  edges.filter (fun e => decide (e.1 ∈ s ∧ e.2 ∈ s))

/-- Edges with both ends in a set link all its members. -/
def Connected (edges : List (κ × κ)) (s : OrderedSet κ) : Prop :=
  ∀ a ∈ s, ∀ b ∈ s, Linked (inside edges s) a b

variable {edges : List (κ × κ)} {s t : OrderedSet κ} {a b : κ}

theorem mem_inside : (a, b) ∈ inside edges s ↔ (a, b) ∈ edges ∧ a ∈ s ∧ b ∈ s := by
  simp [inside]

theorem connected_singleton (a : κ) : Connected edges (OrderedSet.singleton a) := by
  intro b hb c hc
  rw [OrderedSet.mem_singleton.mp hb, OrderedSet.mem_singleton.mp hc]
  exact .refl _ a

/-- An edge joins two elements, whichever way it points. -/
def Adjacent (edges : List (κ × κ)) (a b : κ) : Prop := (a, b) ∈ edges ∨ (b, a) ∈ edges

variable [Std.TransOrd κ] [Std.LawfulEqOrd κ]

theorem Connected.insert (h : Connected edges s) (ha : a ∈ s) (hab : Adjacent edges a b) :
    Connected edges (s.insert b) := by
  have hb : b ∈ s.insert b := OrderedSet.mem_insert.mpr (Or.inl rfl)
  have hmem : ∀ c ∈ s, c ∈ s.insert b := fun c hc => OrderedSet.mem_insert.mpr (Or.inr hc)
  have hsub : ∀ c d, (c, d) ∈ inside edges s → (c, d) ∈ inside edges (s.insert b) := by
    intro c d hcd
    obtain ⟨hedge, hc, hd⟩ := mem_inside.mp hcd
    exact mem_inside.mpr ⟨hedge, hmem c hc, hmem d hd⟩
  have hlink : Linked (inside edges (s.insert b)) a b := by
    rcases hab with hab | hba
    · exact .of_mem (mem_inside.mpr ⟨hab, hmem a ha, hb⟩)
    · exact .symm (.of_mem (mem_inside.mpr ⟨hba, hb, hmem a ha⟩))
  -- every member is linked with `a`
  have hall : ∀ c ∈ s.insert b, Linked (inside edges (s.insert b)) a c := by
    intro c hc
    rcases OrderedSet.mem_insert.mp hc with rfl | hc
    · exact hlink
    · exact (h a ha c hc).mono hsub
  intro c hc d hd
  exact (hall c hc).symm.trans (hall d hd)

omit [Std.TransOrd κ] [Std.LawfulEqOrd κ] in
/-- An edge leads from some members of a connected set to its others. -/
theorem Connected.exists_adjacent (h : Connected edges t) (hsub : ∀ a ∈ s, a ∈ t) (ha : a ∈ s)
    (hb : b ∈ t) (hbs : b ∉ s) : ∃ c ∈ s, ∃ d ∈ t, d ∉ s ∧ Adjacent edges c d := by
  by_contra hnone
  push Not at hnone
  have hagree : ∀ c d, (c, d) ∈ inside edges t → (c ∈ s) = (d ∈ s) := by
    intro c d hcd
    obtain ⟨hedge, hc, hd⟩ := mem_inside.mp hcd
    refine propext ⟨fun hcs => ?_, fun hds => ?_⟩
    · by_contra hds
      exact hnone c hcs d hd hds (Or.inl hedge)
    · by_contra hcs
      exact hnone d hds c hc hcs (Or.inr hedge)
  have heq := (h a (hsub a ha) b hb).eq_of_edges (fun c => c ∈ s) hagree
  exact hbs (heq.mp ha)

end Pattern

namespace Query

open Pattern

variable {size k : ℕ} {edges : List (ℕ × ℕ)} {s t : OrderedSet ℕ}

theorem mem_neighbours {j : ℕ} :
    j ∈ neighbours edges s ↔ j ∉ s ∧ ∃ i ∈ s, Adjacent edges i j := by
  rw [neighbours, OrderedSet.mem_ofList, List.mem_filterMap]
  constructor
  · rintro ⟨⟨a, b⟩, he, h⟩
    dsimp only at h
    split at h
    · next ha hb =>
      cases h
      exact ⟨of_decide_eq_false hb, a, of_decide_eq_true ha, Or.inl he⟩
    · next ha hb =>
      cases h
      exact ⟨of_decide_eq_false ha, b, of_decide_eq_true hb, Or.inr he⟩
    · cases h
  · rintro ⟨hj, i, hi, he | he⟩
    · exact ⟨(i, j), he, by simp [hi, hj]⟩
    · exact ⟨(j, i), he, by simp [hi, hj]⟩

theorem mem_grown : t ∈ grown edges s ↔ ∃ i ∈ s, ∃ j ∉ s, Adjacent edges i j ∧ t = s.insert j := by
  simp only [grown, List.mem_map, ← OrderedSet.mem_toList, mem_neighbours]
  constructor
  · rintro ⟨j, ⟨hj, i, hi, hij⟩, rfl⟩
    exact ⟨i, hi, j, hj, hij, rfl⟩
  · rintro ⟨i, hi, j, hj, hij, rfl⟩
    exact ⟨j, ⟨hj, i, hi, hij⟩, rfl⟩

theorem mem_connectedSets_one :
    s ∈ connectedSets size edges 1 ↔ ∃ i < size, s = OrderedSet.singleton i := by
  rw [connectedSets, OrderedSet.mem_ofList]
  simp [eq_comm]

theorem mem_connectedSets_succ :
    t ∈ connectedSets size edges (k + 2) ↔
      ∃ s ∈ connectedSets size edges (k + 1), t ∈ grown edges s := by
  rw [connectedSets, OrderedSet.mem_ofList, List.mem_flatMap]
  · rfl
  · simp

/-- What is grown to `k` places is connected and has `k` places. -/
theorem connected_of_mem (hedges : ∀ e ∈ edges, e.1 < size ∧ e.2 < size)
    (h : s ∈ connectedSets size edges (k + 1)) :
    s.size = k + 1 ∧ (∀ i ∈ s, i < size) ∧ Connected edges s := by
  induction k generalizing s with
  | zero =>
    obtain ⟨i, hi, rfl⟩ := mem_connectedSets_one.mp h
    refine ⟨rfl, fun j hj => ?_, connected_singleton i⟩
    exact OrderedSet.mem_singleton.mp hj ▸ hi
  | succ k ih =>
    obtain ⟨t, ht, hs⟩ := mem_connectedSets_succ.mp h
    obtain ⟨i, hi, j, hj, hij, rfl⟩ := mem_grown.mp hs
    obtain ⟨hsize, hinside, hconnected⟩ := ih ht
    refine ⟨?_, fun x hx => ?_, hconnected.insert hi hij⟩
    · rw [OrderedSet.size_insert hj, hsize]
    · rcases OrderedSet.mem_insert.mp hx with rfl | hx
      · rcases hij with hij | hij
        · exact (hedges _ hij).2
        · exact (hedges _ hij).1
      · exact hinside x hx

/-- Within a connected set, sets of every number of places are grown up to its own. -/
theorem exists_mem_of_connected (hedges : ∀ e ∈ edges, e.1 < size ∧ e.2 < size)
    (hinside : ∀ i ∈ t, i < size) (hconnected : Connected edges t) (hk : k < t.size) :
    ∃ s ∈ connectedSets size edges (k + 1), ∀ i ∈ s, i ∈ t := by
  induction k with
  | zero =>
    obtain ⟨i, hi⟩ := List.exists_mem_of_length_pos hk
    refine ⟨OrderedSet.singleton i, mem_connectedSets_one.mpr ⟨i, hinside i hi, rfl⟩, ?_⟩
    exact fun j hj => OrderedSet.mem_singleton.mp hj ▸ hi
  | succ k ih =>
    obtain ⟨s, hs, hsub⟩ := ih (by omega)
    obtain ⟨hsize, -, -⟩ := connected_of_mem hedges hs
    obtain ⟨a, ha⟩ : ∃ a, a ∈ s := List.exists_mem_of_length_pos (by rw [← OrderedSet.size]; omega)
    obtain ⟨b, hb, hbs⟩ : ∃ b ∈ t, b ∉ s := by
      by_contra hnone
      push Not at hnone
      have heq : t = s := OrderedSet.eq_of_subset hnone (by omega)
      rw [heq] at hk
      omega
    obtain ⟨i, hi, j, hj, hjs, hij⟩ := hconnected.exists_adjacent hsub ha hb hbs
    refine ⟨s.insert j, mem_connectedSets_succ.mpr ⟨s, hs, mem_grown.mpr ⟨i, hi, j, hjs, hij, rfl⟩⟩,
      fun x hx => ?_⟩
    rcases OrderedSet.mem_insert.mp hx with rfl | hx
    · exact hj
    · exact hsub x hx

/-- The sets grown to `k` places are the connected sets of `k` places. -/
theorem mem_connectedSets_iff (hedges : ∀ e ∈ edges, e.1 < size ∧ e.2 < size) (hk : 0 < k) :
    t ∈ connectedSets size edges k ↔
      t.size = k ∧ (∀ i ∈ t, i < size) ∧ Connected edges t := by
  obtain ⟨k, rfl⟩ : ∃ j, k = j + 1 := ⟨k - 1, by omega⟩
  constructor
  · exact connected_of_mem hedges
  · rintro ⟨hsize, hinside, hconnected⟩
    obtain ⟨s, hs, hsub⟩ := exists_mem_of_connected hedges hinside hconnected
      (show k < t.size by omega)
    have heq : s = t := OrderedSet.eq_of_subset hsub (by rw [(connected_of_mem hedges hs).1, hsize])
    exact heq ▸ hs

end Query

end PatternCardinality
