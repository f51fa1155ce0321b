import PatternCardinality.Estimator
import PatternCardinality.Proofs.Number.Double
import PatternCardinality.Proofs.Plan.Joined
import PatternCardinality.Proofs.Plan.Renaming
import PatternCardinality.Proofs.Query.Part

/-!
# Estimates of components

The estimate of a query is the product of the estimates of its components. A component that is
planned by itself has the route that it has in the whole pattern, with the same steps under other
numbers; and since components have no variable in common, joining their plans multiplies their
sizes.
-/

namespace PatternCardinality

open Estimate Statistics Pattern

namespace Plan

section Routes

variable {α : Type} {p : Pattern} {members : List String} {route : Route}

/-- A part taken by itself has the route that it has in the whole pattern. -/
theorem routes_restrict (hp : p.Proper) (hroute : Route.Through p members route) :
    (routes (p.restrict members) : Except (Failure α) _) = .ok [route] := by
  obtain ⟨hpart, hsub, first, more, rfl, rfl⟩ := hroute
  obtain ⟨positions, hpositions, hcomponents⟩ :=
    components_ordered (α := α) (hp.restrict (first :: more))
  obtain ⟨rs, hrs, hthrough⟩ := routes_of_components hpositions hcomponents
  rw [components_restrict hp hpart hsub hcomponents] at hthrough
  obtain ⟨alone, rest, halone, hrest, rfl⟩ := List.forall₂_cons_left_iff.mp hthrough
  obtain ⟨_, _, heq, rfl⟩ := halone.isRoute
  cases heq
  cases hrest
  have hsame : (p.restrict (first :: more)).relationships.filter
        (fun r => decide (r.source ∈ first :: more)) =
      p.relationships.filter (fun r => decide (r.source ∈ first :: more)) := by
    rw [restrict, List.filter_filter]
    refine List.filter_congr (fun r hr => ?_)
    have hclosed := hpart.closed r hr
    by_cases hs : r.source ∈ first :: more
    · simp only [hs, hclosed.mp hs, and_self, decide_true, Bool.and_self]
    · simp only [hs, decide_false, Bool.false_and]
  rw [hrs, Route.through, Route.through, hsame]

end Routes

section Restricted

variable {α : Type} {q p : Query α} {members : List String} {c : Planner α}

theorem pattern_of_part (h : q.Part (OrderedSet.ofList members) p) :
    p.pattern = q.pattern.restrict members := by
  have hnodes := h.nodes
  have hrelationships := h.relationships
  simp only [OrderedSet.mem_ofList] at hnodes hrelationships
  rw [restrict, ← hnodes, ← hrelationships]

theorem nodeSteps_of_part (h : q.Part (OrderedSet.ofList members) p) {v : String}
    (hv : v ∈ members) : c.nodeSteps p v = c.nodeSteps q v := by
  have hpredicates : p.nodePredicates? v = q.nodePredicates? v := by
    have hget := h.nodePredicates v
    rw [if_pos (OrderedSet.mem_ofList.mpr hv)] at hget
    rw [Query.nodePredicates?, Query.nodePredicates?, Query.predicates?, Query.predicates?, hget]
  rw [Planner.nodeSteps, Planner.nodeSteps, hpredicates, pattern_of_part h, labels?_restrict hv]

theorem expandSteps_of_part (h : q.Part (OrderedSet.ofList members) p) {r : Relationship}
    (hr : r ∈ p.pattern.relationships) (base : String) (direction : Direction)
    (e target : String) :
    c.expandSteps p r base direction e target = c.expandSteps q r base direction e target := by
  have hpredicates : p.relationshipPredicates? r.name = q.relationshipPredicates? r.name := by
    have hget := h.relationshipPredicates r.name
    rw [if_pos (List.mem_map_of_mem hr)] at hget
    rw [Query.relationshipPredicates?, Query.relationshipPredicates?, Query.predicates?,
      Query.predicates?, hget]
  rw [Planner.expandSteps, Planner.expandSteps, hpredicates]

theorem numbered_congr {ρ : Type} {steps steps' : ℕ → ρ → List (Step α)} {l : List ρ}
    (h : ∀ r ∈ l, ∀ k, steps k r = steps' k r) (width n : ℕ) :
    Planner.numbered steps width n l = Planner.numbered steps' width n l := by
  induction l generalizing n with
  | nil => rfl
  | cons r l ih =>
    rw [Planner.numbered, Planner.numbered, h r List.mem_cons_self,
      ih (fun s hs => h s (List.mem_cons_of_mem _ hs))]

/-- The steps of a route through some members are those of the query restricted to them. -/
theorem routeSteps_of_part (h : q.Part (OrderedSet.ofList members) p)
    (hpart : q.pattern.IsPart members) {route : Route}
    (hroute : route.Covers members (Route.among q.pattern members)) (n : ℕ) :
    c.routeSteps p n route = c.routeSteps q n route := by
  have hrelationship : ∀ r ∈ route.crossings.map Crossing.relationship ++ route.closing,
      r ∈ p.pattern.relationships := by
    intro r hr
    obtain ⟨hr, hs⟩ := List.mem_filter.mp (hroute.takes.mem_iff.mp hr)
    have hs := of_decide_eq_true hs
    rw [pattern_of_part h]
    exact mem_relationships_restrict.mpr ⟨hr, hs, (hpart.closed r hr).mp hs⟩
  have hvisit : ∀ v ∈ route.start :: route.crossings.map Crossing.next,
      c.nodeSteps p v = c.nodeSteps q v :=
    fun v hv => nodeSteps_of_part h (hroute.visits.mem_iff.mp hv)
  have hcrossing : ∀ x ∈ route.crossings, ∀ k, c.crossingSteps p k x = c.crossingSteps q k x := by
    intro x hx k
    rw [Planner.crossingSteps, Planner.crossingSteps,
      expandSteps_of_part h (hrelationship _ (List.mem_append_left _ (List.mem_map_of_mem hx))),
      hvisit _ (List.mem_cons_of_mem _ (List.mem_map_of_mem hx))]
  have hclosing : ∀ r ∈ route.closing, ∀ k, c.closingSteps p k r = c.closingSteps q k r := by
    intro r hr k
    rw [Planner.closingSteps, Planner.closingSteps,
      expandSteps_of_part h (hrelationship _ (List.mem_append_right _ hr))]
  rw [Planner.routeSteps, Planner.routeSteps, hvisit _ List.mem_cons_self,
    numbered_congr hcrossing, numbered_congr hclosing]

end Restricted

variable {α : Type} [Scalar α] [NumberHash α] {db : Database α} {c : Planner α} {q : Query α}

/-- A query restricted to a component has a plan of the size that the component has in the plan of
the whole query. -/
theorem exists_planQuery_of_part {p : Query α} {members : List String}
    (hp : q.pattern.Proper) (hfree : ∀ v ∈ q.pattern.names, ¬Reserved v)
    (h : q.Part (OrderedSet.ofList members) p) {route : Route}
    (hroute : Route.Through q.pattern members route) {n : ℕ} {e : Expression α}
    (hplan : planRoute c db q n route = .ok e) :
    ∃ e', planQuery c db p = .ok e' ∧ e'.size = e.size := by
  have hcovers := hroute.covers hp.distinct
  obtain ⟨e', he', hsize⟩ := exists_planRoute_first hp hfree hroute hplan
  refine ⟨e', ?_, hsize⟩
  have hroutes := routes_restrict (α := α) hp hroute
  rw [← pattern_of_part h] at hroutes
  have hne : p.pattern.nodes.isEmpty = false := by
    have hlist := names_restrict_of_sublist hp.distinct hroute.inOrder
    rw [← pattern_of_part h, names] at hlist
    rw [← Bool.not_eq_true, List.isEmpty_iff]
    intro hnil
    rw [hnil] at hlist
    exact hroute.isPart.ne_nil hlist.symm
  rw [planRoute, ← routeSteps_of_part h hroute.isPart hcovers, ← planRoute] at he'
  simp only [planQuery, hne, hroutes, he', joinRoutes, Bool.false_eq_true, ↓reduceIte, bind,
    Except.bind]

section Sizes

omit [NumberHash α] in
/-- Results without a common node variable share none. -/
theorem shared_eq_zero {left right : OrderedMap String (LabelShares α)}
    (h : ∀ v, right.contains v = true → left.get? v = none) :
    (joinedNodes db left right).2 = 0 := by
  refine List.foldlRecOn (motive := fun s : OrderedMap String (LabelShares α) × ℕ => s.2 = 0)
    right.entries _ rfl (fun s hs e he => ?_)
  rw [h e.1 (OrderedMap.mem_keys_iff.mp (List.mem_map_of_mem he))]
  exact hs

omit [NumberHash α] in
theorem shared_of_holds {left right : Profile α} {N N' : Set String} {n k : ℕ}
    (hleft : Holds N n left) (hright : Holds N' k right) (hapart : ∀ v ∈ N, v ∉ N') :
    (joinedNodes db left.nodes right.nodes).2 = 0 := by
  obtain ⟨R, hl, -⟩ := hleft
  obtain ⟨R', hr, -⟩ := hright
  refine shared_eq_zero (fun v hv => ?_)
  cases hget : left.nodes.get? v with
  | none => rfl
  | some shares =>
    have hvl := (hl.isNode_iff v).mp (OrderedMap.contains_iff.mpr ⟨shares, hget⟩)
    exact absurd ((hr.isNode_iff v).mp hv) (hapart v hvl)

theorem size_of_join {left right e : Expression α} {N N' : Set String} {n k : ℕ}
    (hleft : Holds N n left.profile) (hright : Holds N' k right.profile)
    (hapart : ∀ v ∈ N, v ∉ N') (h : Expression.make db .join [left, right] = .ok e) :
    e.size = left.size * right.size * 1 := by
  obtain ⟨p, hp, rfl⟩ := make_eq_ok.mp h
  have hjoin : join db left.profile right.profile = .ok p := hp
  rw [Expression.size, Expression.profile, join_eq_ok hjoin, shared_of_holds hleft hright hapart]
  rfl

/-- Joined components are planned by themselves, and the size is the product of their sizes from
left to right. -/
theorem Joined.size (hp : q.pattern.Proper) (hfree : ∀ v ∈ q.pattern.names, ¬Reserved v)
    {parts : List (List String)} {k : ℕ} {e : Expression α} (h : Joined c db q parts k e)
    (hnodup : parts.flatten.Nodup) :
    ∃ x xs, List.Forall₂ (fun part x => ∃ p e, q.Part (OrderedSet.ofList part) p ∧
        planQuery c db p = .ok e ∧ e.size = x) parts (x :: xs) ∧
      e.size = xs.foldl (fun product x => product * x * 1) x := by
  have halone : ∀ {part route n e}, Route.Through q.pattern part route →
      planRoute c db q n route = .ok e → ∃ p e', q.Part (OrderedSet.ofList part) p ∧
        planQuery c db p = .ok e' ∧ e'.size = e.size := by
    intro part route n e hroute hplan
    have hpart := Query.restrictedTo_part q (OrderedSet.ofList part)
    obtain ⟨e', he', hsize⟩ := exists_planQuery_of_part hp hfree hpart hroute hplan
    exact ⟨_, e', hpart, he', hsize⟩
  induction h with
  | @first part route e hroute hplan => exact ⟨e.size, [], .cons (halone hroute hplan) .nil, rfl⟩
  | @next parts k part route left right e hjoined hroute hplan hjoin ih =>
    rw [List.flatten_append, List.flatten_singleton] at hnodup
    obtain ⟨hnodup, -, hapart⟩ := List.nodup_append'.mp hnodup
    obtain ⟨x, xs, hsizes, hleft⟩ := ih hnodup
    have hsize := size_of_join (hjoined.holds hp.distinct hfree)
      (hroute.holds hp.distinct hfree hplan) (fun v hv hmem => hapart hv hmem) hjoin
    refine ⟨x, xs ++ [right.size], ?_, ?_⟩
    · exact List.rel_append hsizes (.cons (halone hroute hplan) .nil)
    · rw [hsize, hleft, List.foldl_append, List.foldl_cons, List.foldl_nil]

end Sizes

end Plan

namespace Estimator

/-- Pairwise distinct variables that are not reserved, of a query that has a plan: its components
have plans by themselves, and its estimate is the product of theirs from left to right. -/
theorem estimate_product (estimator : Estimator Float) {q : Query Float}
    (hdistinct : q.pattern.names.Nodup) (hfree : ∀ v ∈ q.pattern.names, ¬Reserved v)
    {e : Expression Float} (h : estimator.plan q = .ok e) :
    ∃ parts x xs, q.pattern.Components parts ∧
      List.Forall₂ (fun part x => ∃ p, q.Part (OrderedSet.ofList part) p ∧
        estimator.estimate p = .ok x) parts (x :: xs) ∧
      estimator.estimate q = .ok (xs.foldl (· * ·) x) := by
  obtain ⟨parts, k, hcomponents, hjoined⟩ := Plan.joined_of_planQuery hdistinct h
  obtain ⟨x, xs, hparts, hsize⟩ := hjoined.size (Plan.proper_of_planQuery _ hdistinct h) hfree
    (hcomponents.names.nodup_iff.mpr hdistinct)
  have hproduct : e.size = xs.foldl (· * ·) x := by
    rw [hsize]
    congr 1
    funext product x
    exact Double.mul_one (product * x)
  refine ⟨parts, x, xs, hcomponents, hparts.imp ?_, ?_⟩
  · rintro part x ⟨p, e, hpart, he, rfl⟩
    have he : estimator.plan p = .ok e := he
    exact ⟨p, hpart, by rw [estimate, he]; rfl⟩
  · rw [estimate, h, ← hproduct]
    rfl

/-- A loop between the ends of a relationship. -/
def interleaved : Pattern :=
  ((Pattern.empty.addNode "a" []).addRelationship "b" none .both "b").addRelationship "c" none
    .outgoing "a"

/-- Ten nodes with five relationships. -/
def gathering : Estimator Float :=
  ⟨.standard, ⟨⟨{ Store.empty 10 with
    relationshipCounts := OrderedMap.singleton ⟨anyLabel, anyType, anyLabel⟩ 5 }, false⟩,
    Labels.Distribution.single []⟩⟩

theorem estimate_product_of_interleaved :
    interleaved.names.Nodup ∧ (∀ v ∈ interleaved.names, ¬Reserved v) ∧
      ∃ parts x xs, interleaved.Components parts ∧
        List.Forall₂ (fun part x => ∃ p, (Query.ofPattern interleaved).Part
          (OrderedSet.ofList part) p ∧ gathering.estimate p = .ok x) parts (x :: xs) ∧
        gathering.estimatePattern interleaved = .ok (xs.foldl (· * ·) x) := by
  have hbuilt : interleaved.Built := ((Pattern.Built.empty.node [] (by decide)).relationship none
    .both (by decide) (by decide)).relationship none .outgoing (by decide) (by decide)
  have hdistinct := hbuilt.proper.distinct
  obtain ⟨e, he⟩ := Plan.exists_planQuery_of_plain (c := gathering.planner) gathering.database
    hbuilt (by decide) (by decide) (by decide)
  exact ⟨hdistinct, hbuilt.not_reserved, estimate_product _ hdistinct hbuilt.not_reserved he⟩

end Estimator

end PatternCardinality
