import PatternCardinality.Proofs.Plan.Breadth
import PatternCardinality.Proofs.Plan.Discipline

/-!
# The order in which a plan binds variables

The plan of a component is a chain of operators over a scan. Read from the scan upwards, its expands
lead to the variables of the component by their distance from the start, and those that close cycles
come last. What the expands of a chain are is read off the steps that were followed.
-/

namespace PatternCardinality

open Estimate Statistics Pattern

namespace Estimate

variable {α : Type}

/-- The variables that an expand leads from and to. -/
def Operator.leads? : Operator α → Option (String × String)
  | .expand base _ _ _ target => some (base, target)
  | _ => none

/-- Operators that are applied one after the other to the result of the first. -/
inductive Expression.Chain : Expression α → List (Operator α) → Prop
  | leaf {op p} : Chain (.node op [] p) [op]
  | apply {op e p ops} (below : Chain e ops) : Chain (.node op [e] p) (ops ++ [op])

/-- Expressions that are joined from left to right. -/
inductive Expression.JoinedFrom : Expression α → List (Expression α) → Prop
  | first {e} : JoinedFrom e [e]
  | next {left right p plans} (before : JoinedFrom left plans) :
      JoinedFrom (.node .join [left, right] p) (plans ++ [right])

end Estimate

namespace Plan

variable {α : Type}

/-- Operators that search a part of a pattern: they scan its busiest variable, the first one if there
are several, lead to each other variable from one that is a step nearer to the start, the nearest
variables first, and close its cycles in the end, each at a temporary variable. -/
structure Searches (p : Pattern) (part : List String) (ops : List (Operator α)) (start : String)
    (tree closing : List (String × String)) : Prop where
  scan : ops.head? = some (.scan start)
  busiest : ∃ before after, part = before ++ start :: after ∧
    (∀ v ∈ before, Route.incidence (Route.among p part) v <
      Route.incidence (Route.among p part) start) ∧
    ∀ v ∈ after, Route.incidence (Route.among p part) v ≤
      Route.incidence (Route.among p part) start
  leads : ops.filterMap Operator.leads? = tree ++ closing
  reachable : ∀ v ∈ part, p.graph.Reachable start v
  visits : (start :: tree.map Prod.snd).Perm part
  ordered : (tree.map Prod.snd).Pairwise
    (fun v w => p.graph.dist start v ≤ p.graph.dist start w)
  nearer : ∀ l ∈ tree, l.1 ∈ part ∧ p.graph.dist start l.2 = p.graph.dist start l.1 + 1
  closing : ∀ l ∈ closing, l.1 ∈ part ∧ l.2 ∉ p.names ∧ ∃ k, l.2 = temporaryName k

/-- Where these steps are operators, they lead along these pairs of variables. -/
def Leads (steps : List (Step α)) (pairs : List (String × String)) : Prop :=
  ∀ ops : List (Operator α), steps = ops.map Except.ok → ops.filterMap Operator.leads? = pairs

namespace Leads

variable {xs ys : List (Step α)} {pairs pairs' : List (String × String)}

theorem nil : Leads ([] : List (Step α)) [] := by
  intro ops h
  rw [List.map_eq_nil_iff.mp h.symm]
  rfl

theorem append (hx : Leads xs pairs) (hy : Leads ys pairs') :
    Leads (xs ++ ys) (pairs ++ pairs') := by
  intro ops h
  obtain ⟨first, second, rfl, hfirst, hsecond⟩ := List.map_eq_append_iff.mp h.symm
  rw [List.filterMap_append, hx first hfirst.symm, hy second hsecond.symm]

/-- Steps of which none leads anywhere. -/
theorem of_none (h : ∀ op, .ok op ∈ xs → op.leads? = none) : Leads xs [] := by
  intro ops hops
  refine List.filterMap_eq_nil_iff.mpr (fun op hop => h op ?_)
  rw [hops]
  exact List.mem_map_of_mem hop

variable {c : Planner α} {q : Query α} {n : ℕ}

theorem nodeSteps (v : String) : Leads (c.nodeSteps q v) [] := by
  refine of_none (fun op hop => ?_)
  rcases mem_nodeSteps hop with ⟨l, rfl⟩ | ⟨byId, rfl⟩ <;> rfl

theorem expandSteps {r : Relationship} {base e target : String} {direction : Direction} :
    Leads (c.expandSteps q r base direction e target) [(base, target)] := by
  have hselect : Leads (c.propertySteps e (q.relationshipPredicates? r.name)) [] := by
    refine of_none (fun op hop => ?_)
    obtain ⟨byId, rfl⟩ := mem_propertySteps hop
    rfl
  have hexpand : Leads [(c.types r).map (fun types =>
      Operator.expand base direction e types target)] [(base, target)] := by
    intro ops hops
    obtain ⟨op, rfl, hop⟩ := List.map_eq_singleton_iff.mp hops.symm
    obtain ⟨types, -, rfl⟩ := Outcome.map_eq_ok.mp hop.symm
    rfl
  exact hexpand.append hselect

theorem crossings (crossings : List Crossing) :
    Leads (Planner.numbered (c.crossingSteps q) 1 n crossings)
      (crossings.map (fun x => (x.base, x.next))) := by
  induction crossings generalizing n with
  | nil => exact nil
  | cons x crossings ih => exact (expandSteps.append (nodeSteps x.next)).append ih

/-- Relationships that close cycles lead from their sources to temporary variables. -/
theorem closing (rs : List Relationship) :
    ∃ pairs, Leads (Planner.numbered (c.closingSteps q) 2 n rs) pairs ∧
      ∀ l ∈ pairs, (∃ r ∈ rs, l.1 = r.source) ∧ ∃ k, l.2 = temporaryName k := by
  induction rs generalizing n with
  | nil => exact ⟨[], nil, by simp⟩
  | cons r rs ih =>
    obtain ⟨pairs, hpairs, hends⟩ := ih (n := n + 2)
    have hidentify : Leads [.ok (c.identify r.target (temporaryName n))] [] := by
      refine of_none (fun op hop => ?_)
      cases List.mem_singleton.mp hop
      rw [Planner.identify]
      cases c.strategy <;> rfl
    refine ⟨(r.source, temporaryName n) :: pairs, (expandSteps.append hidentify).append hpairs, ?_⟩
    refine List.forall_mem_cons.mpr ⟨⟨⟨r, List.mem_cons_self, rfl⟩, n, rfl⟩, fun l hl => ?_⟩
    obtain ⟨⟨s, hs, hsource⟩, hk⟩ := hends l hl
    exact ⟨⟨s, List.mem_cons_of_mem _ hs, hsource⟩, hk⟩

end Leads

variable [Scalar α] [NumberHash α] {db : Database α} {c : Planner α} {q : Query α} {n : ℕ}

/-- Steps that were followed to their end are operators on top of the chain. -/
theorem chain_of_follow {e e' : Expression α} {ops : List (Operator α)} {steps : List (Step α)}
    (he : e.Chain ops) (h : follow db e steps = .ok e') :
    ∃ more, steps = more.map Except.ok ∧ e'.Chain (ops ++ more) := by
  induction steps generalizing e ops with
  | nil =>
    cases h
    exact ⟨[], rfl, by rwa [List.append_nil]⟩
  | cons s steps ih =>
    cases s with
    | error f =>
      rw [follow_error] at h
      cases h
    | ok op =>
      rw [follow_ok] at h
      obtain ⟨e₁, happly, h⟩ := Outcome.bind_eq_ok.mp h
      obtain ⟨p, -, rfl⟩ := apply_eq_ok.mp happly
      obtain ⟨more, hsteps, hchain⟩ := ih (.apply he) h
      refine ⟨op :: more, by rw [hsteps, List.map_cons], ?_⟩
      rwa [← List.append_cons] at hchain

/-- The plan of a route is a chain over its scan, which leads along its crossings and then along the
relationships that close its cycles. -/
theorem chain_of_planRoute {route : Route} {e : Expression α}
    (h : planRoute c db q n route = .ok e) :
    ∃ ops closing, e.Chain (.scan route.start :: ops) ∧
      (.scan route.start :: ops).filterMap Operator.leads? =
        route.crossings.map (fun x => (x.base, x.next)) ++ closing ∧
      ∀ l ∈ closing, (∃ r ∈ route.closing, l.1 = r.source) ∧ ∃ k, l.2 = temporaryName k := by
  obtain ⟨scan, hscan, h⟩ := Outcome.bind_eq_ok.mp h
  obtain ⟨p, -, rfl⟩ := make_eq_ok.mp hscan
  obtain ⟨ops, hops, hchain⟩ := chain_of_follow .leaf h
  obtain ⟨closing, hclosing, hends⟩ :=
    Leads.closing (c := c) (q := q) (n := n + route.crossings.length) route.closing
  refine ⟨ops, closing, hchain, ?_, hends⟩
  exact (((Leads.nodeSteps route.start).append (Leads.crossings route.crossings)).append
    hclosing) ops hops

section Parts

variable (hdistinct : q.pattern.names.Nodup) (hfree : ∀ v ∈ q.pattern.names, ¬Reserved v)

include hdistinct hfree

/-- The plan of a part searches it. -/
theorem Route.Through.searches {part : List String} {route : Route} {e : Expression α}
    (h : Route.Through q.pattern part route) (hplan : planRoute c db q n route = .ok e) :
    ∃ ops start tree closing, e.Chain ops ∧ Searches q.pattern part ops start tree closing := by
  obtain ⟨ops, closing, hchain, hleads, hclosing⟩ := chain_of_planRoute hplan
  have hcovers := h.covers hdistinct
  have hclimbs := h.climbs hdistinct
  have hstart : route.start ∈ part := hcovers.visits.mem_iff.mp List.mem_cons_self
  refine ⟨_, route.start, _, closing, hchain, rfl, ?_, hleads, fun v hv => ?_, ?_, ?_, fun l hl => ?_,
    fun l hl => ?_⟩
  · obtain ⟨-, -, first, more, rfl, rfl⟩ := h
    exact Route.busiest_first _ first more
  · exact reachable_of_linked (h.isPart.linked _ hstart v hv)
  · rw [List.map_map]
    exact hcovers.visits
  · rw [List.map_map]
    refine List.pairwise_map.mpr (hclimbs.ordered.imp_of_mem (fun hx hy hle => ?_))
    rw [Function.comp_apply, Function.comp_apply, hclimbs.step _ hx, hclimbs.step _ hy]
    exact Nat.succ_le_succ hle
  · obtain ⟨x, hx, rfl⟩ := List.mem_map.mp hl
    refine ⟨?_, hclimbs.step x hx⟩
    have hmet := hcovers.follows.ends_met x hx
    have hends : x.relationship.Joins x.base x.next := (hcovers.follows.sound x hx).ends
    exact hcovers.mem_met.mp ((hends.and_iff (· ∈ Route.met _ route.crossings)).mp hmet).1
  · obtain ⟨⟨r, hr, hsource⟩, k, hk⟩ := hclosing l hl
    refine ⟨hsource ▸ (hcovers.closes r hr).1, fun hmem => ?_, k, hk⟩
    exact hfree _ hmem (hk ▸ temporaryName_reserved k)

theorem Joined.searches {parts : List (List String)} {k : ℕ} {e : Expression α}
    (h : Joined c db q parts k e) :
    ∃ plans, e.JoinedFrom plans ∧ List.Forall₂ (fun part (plan : Expression α) =>
      ∃ ops start tree closing, plan.Chain ops ∧
        Searches q.pattern part ops start tree closing) parts plans := by
  induction h with
  | first hroute hplan => exact ⟨_, .first, .cons (hroute.searches hdistinct hfree hplan) .nil⟩
  | next _ hroute hplan hjoin ih =>
    obtain ⟨plans, hjoined, hsearches⟩ := ih
    obtain ⟨p, -, rfl⟩ := make_eq_ok.mp hjoin
    exact ⟨_, hjoined.next, List.rel_append hsearches
      (.cons (hroute.searches hdistinct hfree hplan) .nil)⟩

/-- A plan joins the plans of the components from left to right, and each of these searches its
component breadth first. -/
theorem planQuery_breadthFirst {e : Expression α} (h : planQuery c db q = .ok e) :
    ∃ parts plans, q.pattern.Components parts ∧ e.JoinedFrom plans ∧
      List.Forall₂ (fun part (plan : Expression α) => ∃ ops start tree closing, plan.Chain ops ∧
        Searches q.pattern part ops start tree closing) parts plans := by
  obtain ⟨parts, k, hcomponents, hjoined⟩ := joined_of_planQuery hdistinct h
  obtain ⟨plans, hplans, hsearches⟩ := hjoined.searches hdistinct hfree
  exact ⟨parts, plans, hcomponents, hplans, hsearches⟩

end Parts

/-- A cycle through four variables, and a variable apart. -/
def ring : Pattern :=
  ((((Pattern.empty.addRelationship "a" none .outgoing "b").addRelationship "b" none .outgoing
    "c").addRelationship "c" none .both "d").addRelationship "d" none .incoming "a").addNode "e" []

theorem planQuery_breadthFirst_of_ring :
    ∃ (e : Expression Float) (parts : List (List String)) (plans : List (Expression Float)),
      planQuery ⟨Store.empty 0, .mergeOn, none⟩
          ⟨⟨Store.empty 0, false⟩, Labels.Distribution.single []⟩ (Query.ofPattern ring) = .ok e ∧
        ring.Components parts ∧ e.JoinedFrom plans ∧
          List.Forall₂ (fun part (plan : Expression Float) => ∃ ops start tree closing,
            plan.Chain ops ∧ Searches ring part ops start tree closing) parts plans := by
  have ha : ¬Reserved "a" := by decide
  have hb : ¬Reserved "b" := by decide
  have hc : ¬Reserved "c" := by decide
  have hd : ¬Reserved "d" := by decide
  have hbuilt : ring.Built := ((((Pattern.Built.empty.relationship none .outgoing ha
    hb).relationship none .outgoing hb hc).relationship none .both hc hd).relationship none
    .incoming hd ha).node [] (by decide)
  obtain ⟨e, he⟩ := exists_planQuery_of_plain (c := ⟨Store.empty 0, .mergeOn, none⟩)
    (⟨⟨Store.empty 0, false⟩, Labels.Distribution.single []⟩ : Database Float) hbuilt (by decide)
    (by decide) (by decide)
  obtain ⟨parts, plans, hfound⟩ :=
    planQuery_breadthFirst hbuilt.proper.distinct hbuilt.not_reserved he
  exact ⟨e, parts, plans, he, hfound⟩

end Plan

end PatternCardinality
