import Mathlib.Combinatorics.SimpleGraph.Metric
import PatternCardinality.Proofs.Pattern.Component

/-!
# Distances in patterns

The graph of a pattern has an edge between two node variables that some relationship connects,
whichever way it points. What a search needs to know of the distances from a variable is kept as
`Layers`: they differ by at most one along a relationship, and every variable at some distance has a
nearer neighbour.
-/

namespace PatternCardinality

/-- A relationship connects two node variables. -/
def Relationship.Joins (r : Relationship) (v w : String) : Prop :=
  (r.source = v ∧ r.target = w) ∨ (r.source = w ∧ r.target = v)

/-- What holds of both ends of a relationship holds of both variables that it connects. -/
theorem Relationship.Joins.and_iff {r : Relationship} {v w : String} (h : r.Joins v w)
    (P : String → Prop) : P r.source ∧ P r.target ↔ P v ∧ P w := by
  rcases h with ⟨rfl, rfl⟩ | ⟨rfl, rfl⟩
  · exact Iff.rfl
  · exact and_comm

namespace Pattern

variable {p : Pattern} {v w : String}

def graph (p : Pattern) : SimpleGraph String := SimpleGraph.fromRel (fun v w => (v, w) ∈ p.ends)

theorem graph_adj_iff : p.graph.Adj v w ↔ v ≠ w ∧ ∃ r ∈ p.relationships, r.Joins v w := by
  simp only [graph, SimpleGraph.fromRel_adj, ends, List.mem_map, Prod.mk.injEq, Relationship.Joins]
  refine and_congr_right (fun _ => ?_)
  constructor
  · rintro (⟨r, hr, hends⟩ | ⟨r, hr, hends⟩)
    · exact ⟨r, hr, Or.inl hends⟩
    · exact ⟨r, hr, Or.inr hends⟩
  · rintro ⟨r, hr, hends | hends⟩
    · exact Or.inl ⟨r, hr, hends⟩
    · exact Or.inr ⟨r, hr, hends⟩

theorem reachable_of_linked (h : Linked p.ends v w) : p.graph.Reachable v w := by
  induction h with
  | rel v w hvw =>
    by_cases hne : v = w
    · rw [hne]
    · exact SimpleGraph.Adj.reachable ((SimpleGraph.fromRel_adj _ _ _).mpr ⟨hne, Or.inl hvw⟩)
  | refl v => exact .refl v
  | symm v w _ ih => exact ih.symm
  | trans u v w _ _ ih ih' => exact ih.trans ih'

/-- Along a relationship the distance from a variable grows by at most one. -/
theorem dist_le_succ {r : Relationship} (hr : r ∈ p.relationships) (hends : r.Joins v w)
    (start : String) : p.graph.dist start w ≤ p.graph.dist start v + 1 := by
  by_cases hne : v = w
  · rw [hne]
    exact Nat.le_succ _
  · have hadj : p.graph.Adj v w := graph_adj_iff.mpr ⟨hne, r, hr, hends⟩
    rcases hadj.diff_dist_adj (u := start) with h | h | h <;> omega

/-- A variable at a distance from another has a neighbour that is nearer. -/
theorem exists_nearer {start : String} {k : ℕ} (h : p.graph.dist start v = k + 1) :
    ∃ r ∈ p.relationships, ∃ u, r.Joins u v ∧ p.graph.dist start u = k := by
  rw [SimpleGraph.dist_comm] at h
  obtain ⟨walk, hwalk⟩ := SimpleGraph.exists_walk_of_dist_ne_zero (G := p.graph) (u := v)
    (v := start) (by omega)
  rw [h] at hwalk
  cases walk with
  | nil => cases hwalk
  | @cons _ u _ hadj rest =>
    obtain ⟨-, r, hr, hends⟩ := graph_adj_iff.mp hadj
    refine ⟨r, hr, u, Or.symm hends, ?_⟩
    have hrest : p.graph.dist u start ≤ k :=
      (SimpleGraph.dist_le rest).trans (by simpa using hwalk.le)
    have hnear := dist_le_succ hr (Or.symm hends) start
    rw [SimpleGraph.dist_comm] at hrest
    rw [SimpleGraph.dist_comm, h] at hnear
    omega

/-- Distances from a variable of a part, as its relationships tell them. -/
structure Layers (members : List String) (relationships : List Relationship) (start : String)
    (dist : String → ℕ) : Prop where
  origin : dist start = 0
  inside : ∀ r ∈ relationships, r.source ∈ members ∧ r.target ∈ members
  across : ∀ r ∈ relationships, ∀ v w, r.Joins v w → dist w ≤ dist v + 1
  zero : ∀ v ∈ members, dist v = 0 → v = start
  nearer : ∀ v ∈ members, ∀ k, dist v = k + 1 →
    ∃ r ∈ relationships, ∃ u, r.Joins u v ∧ dist u = k

/-- The relationships of a part tell all distances in it. -/
theorem IsPart.layers {members : List String} (h : p.IsPart members) {start : String}
    (hstart : start ∈ members) :
    Layers members (p.relationships.filter (fun r => decide (r.source ∈ members))) start
      (p.graph.dist start) := by
  have hreach : ∀ v ∈ members, p.graph.Reachable start v :=
    fun v hv => reachable_of_linked (h.linked start hstart v hv)
  refine ⟨SimpleGraph.dist_self, fun r hr => ?_, fun r hr v w hends => ?_, fun v hv hzero => ?_,
    fun v hv k hk => ?_⟩
  · obtain ⟨hr, hs⟩ := List.mem_filter.mp hr
    have hs := of_decide_eq_true hs
    exact ⟨hs, (h.closed r hr).mp hs⟩
  · exact dist_le_succ (List.mem_of_mem_filter hr) hends start
  · exact ((hreach v hv).dist_eq_zero_iff.mp hzero).symm
  · obtain ⟨r, hr, u, hends, hu⟩ := exists_nearer hk
    refine ⟨r, List.mem_filter.mpr ⟨hr, decide_eq_true ?_⟩, u, hends, hu⟩
    rcases hends with ⟨-, ht⟩ | ⟨hs, -⟩
    · exact (h.closed r hr).mpr (ht ▸ hv)
    · exact hs ▸ hv

end Pattern

end PatternCardinality
