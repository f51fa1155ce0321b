import PatternCardinality.Proofs.Estimate.Conserved
import PatternCardinality.Proofs.Plan.Discipline
import PatternCardinality.Proofs.Plan.Joined

/-!
# Plans of patterns without cycles

In a forest no relationship closes a cycle, so each route only takes crossings, and each crossing
leads to a variable that is not bound yet. Without predicates its plan is made of scans, steps to
new variables, selections of labels and joins of parts that share no variable.
-/

namespace PatternCardinality

open Estimate Statistics Pattern Plan

/-- Each node variable stands once, and without a relationship its ends are not connected. -/
structure Pattern.Forest (p : Pattern) : Prop where
  distinct : p.names.Nodup
  cut : ∀ r others, p.relationships.Perm (r :: others) →
    ¬Linked (others.map (fun o => (o.source, o.target))) r.source r.target

/-- There are no predicates on anything. -/
structure Query.Plain {α : Type} (q : Query α) : Prop where
  nodes : ∀ v, q.nodePredicates? v = none
  relationships : ∀ e, q.relationshipPredicates? e = none

namespace Plan

namespace Route

/-- The variables that are met are connected by the relationships that led to them. -/
theorem Follows.linked {seen : OrderedSet String} {crossings : List Crossing}
    (h : Follows seen crossings) {edges : List (String × String)} {start : String}
    (hseen : ∀ v ∈ seen, Linked edges start v)
    (hedges : ∀ c ∈ crossings, (c.relationship.source, c.relationship.target) ∈ edges) :
    ∀ v ∈ met seen crossings, Linked edges start v := by
  induction h with
  | nil => exact hseen
  | @cons seen c crossings sound base _ _ ih =>
    obtain ⟨hc, hcrossings⟩ := List.forall_mem_cons.mp hedges
    have hstep : Linked edges c.base c.next := by
      rcases sound.ends with ⟨hs, ht⟩ | ⟨hs, ht⟩
      · exact hs ▸ ht ▸ Linked.of_mem hc
      · exact (hs ▸ ht ▸ Linked.of_mem hc : Linked edges c.next c.base).symm
    refine ih (fun v hv => ?_) hcrossings
    rcases OrderedSet.mem_insert.mp hv with rfl | hv
    · exact (hseen c.base base).trans hstep
    · exact hseen v hv

/-- The route through a part of a forest closes no cycle. -/
theorem Covers.closing_eq_nil {p : Pattern} (hforest : p.Forest) {route : Route}
    {part : List String} (h : route.Covers part (among p part)) : route.closing = [] := by
  cases hclosing : route.closing with
  | nil => rfl
  | cons r rest =>
    have htakes := h.takes
    rw [hclosing] at htakes
    obtain ⟨hsource, htarget⟩ := h.closes r (hclosing ▸ List.mem_cons_self)
    set taken := route.crossings.map Crossing.relationship
    set outside := p.relationships.filter (fun r => !decide (r.source ∈ part))
    have hperm : p.relationships.Perm (r :: (taken ++ rest ++ outside)) := by
      refine (List.filter_append_perm (fun r => decide (r.source ∈ part)) _).symm.trans ?_
      exact ((htakes.symm.trans List.perm_middle).append_right outside)
    have hlinked : ∀ v ∈ part,
        Linked ((taken ++ rest ++ outside).map (fun o => (o.source, o.target))) route.start v := by
      intro v hv
      refine h.follows.linked (fun w hw => ?_) (fun c hc => ?_) v (h.mem_met.mpr hv)
      · rw [OrderedSet.mem_singleton.mp hw]
        exact Linked.refl _ _
      · refine List.mem_map_of_mem (f := fun o : Relationship => (o.source, o.target)) ?_
        simp [taken, List.mem_map_of_mem hc]
    exact absurd ((hlinked _ hsource).symm.trans (hlinked _ htarget)) (hforest.cut r _ hperm)

end Route

variable {α : Type} [Scalar α] [NumberHash α] {db : Database α} {c : Planner α} {q : Query α}

/-- An expression without cycles that binds just these node variables. -/
structure Grown (db : Database α) (S : Set String) (e : Expression α) : Prop where
  acyclic : e.Acyclic db
  nodes : ∀ v, e.profile.isNode v = true ↔ v ∈ S

section Steps

variable {S S' : Set String} {e e' left right : Expression α}

theorem grown_scan {v : String} (made : Expression.leaf db (.scan v) = .ok e) :
    Grown db {v} e := by
  refine ⟨.scan made, fun w => ?_⟩
  obtain ⟨p, hp, rfl⟩ := make_eq_ok.mp made
  change p.isNode w = true ↔ w = v
  rw [scan_eq_ok hp]
  exact OrderedMap.contains_singleton

theorem Grown.selectLabel (h : Grown db S e) {v : String} {l : LabelId}
    (made : e.apply db (.selectLabel v l) = .ok e') : Grown db S e' := by
  refine ⟨.selectLabel h.acyclic made, fun w => ?_⟩
  obtain ⟨p, hp, rfl⟩ := apply_eq_ok.mp made
  obtain ⟨shares, hshares, rfl⟩ := selectLabel_eq_ok hp
  rw [← h.nodes w]
  have hv : e.profile.isNode v = true := OrderedMap.contains_iff.mpr ⟨shares, hshares⟩
  change (if _ then _ else _ : Profile α).isNode w = true ↔ _
  split
  · exact Iff.rfl
  · rw [Profile.isNode, OrderedMap.contains_insert]
    exact or_iff_right_of_imp (fun hw => hw ▸ hv)

theorem Grown.expand (h : Grown db S e) {base relationship target : String}
    {direction : Direction} {types : TypeSet} (hfresh : target ∉ S)
    (made : e.apply db (.expand base direction relationship types target) = .ok e') :
    Grown db (insert target S) e' := by
  have hnew : e.profile.isNode target = false := by
    rw [← Bool.not_eq_true, h.nodes]
    exact hfresh
  refine ⟨.expand h.acyclic hnew made, fun w => ?_⟩
  obtain ⟨p, hp, rfl⟩ := apply_eq_ok.mp made
  obtain ⟨shares, hshares, rfl⟩ := expand_eq_ok hp
  have hbase : e.profile.isNode base = true := OrderedMap.contains_iff.mpr ⟨shares, hshares⟩
  rw [Set.mem_insert_iff, ← h.nodes w]
  refine OrderedMap.contains_insert.trans (or_congr_right (OrderedMap.contains_insert.trans ?_))
  exact or_iff_right_of_imp (fun hw => hw ▸ hbase)

theorem Grown.join (hl : Grown db S left) (hr : Grown db S' right) (hapart : ∀ v ∈ S, v ∉ S')
    (made : Expression.make db .join [left, right] = .ok e) : Grown db (S ∪ S') e := by
  have hshared : ∀ v, right.profile.isNode v = true → left.profile.isNode v = false := by
    intro v hv
    rw [← Bool.not_eq_true, hl.nodes]
    exact fun hleft => hapart v hleft ((hr.nodes v).mp hv)
  refine ⟨.join hl.acyclic hr.acyclic hshared made, fun w => ?_⟩
  obtain ⟨p, hp, rfl⟩ := make_eq_ok.mp made
  change p.isNode w = true ↔ _
  rw [join_eq_ok hp, Profile.isNode, contains_joinedNodes, Set.mem_union, ← hl.nodes, ← hr.nodes]
  rfl

/-- The labels of a node variable are selected one after the other. -/
theorem Grown.nodeSteps (hplain : q.Plain) (h : Grown db S e) {v : String}
    (hfollow : follow db e (c.nodeSteps q v) = .ok e') : Grown db S e' := by
  rw [Planner.nodeSteps, hplain.nodes v, Planner.propertySteps, List.append_nil] at hfollow
  generalize ((q.pattern.labels? v).getD ∅).toList = names at hfollow
  induction names generalizing e with
  | nil =>
    cases hfollow
    exact h
  | cons name names ih =>
    rw [List.map_cons, Planner.labelStep] at hfollow
    split at hfollow
    · rw [follow_ok] at hfollow
      obtain ⟨e₁, hfirst, hfollow⟩ := Outcome.bind_eq_ok.mp hfollow
      exact ih (h.selectLabel hfirst) hfollow
    · cases hfollow

/-- Crossings lead to one new variable after the other. -/
theorem Grown.crossings (hplain : q.Plain) {seen : OrderedSet String} {crossings : List Crossing}
    (hfollows : Route.Follows seen crossings) (h : Grown db {v | v ∈ seen} e) {n : ℕ}
    (hfollow : follow db e (Planner.numbered (c.crossingSteps q) 1 n crossings) = .ok e') :
    Grown db {v | v ∈ Route.met seen crossings} e' := by
  induction hfollows generalizing e n with
  | nil =>
    cases hfollow
    exact h
  | @cons seen x crossings sound base next _ ih =>
    rw [Planner.numbered, follow_append] at hfollow
    obtain ⟨e₁, hfirst, hfollow⟩ := Outcome.bind_eq_ok.mp hfollow
    refine ih ?_ hfollow
    rw [Planner.crossingSteps, follow_append] at hfirst
    obtain ⟨e₂, hexpand, hselect⟩ := Outcome.bind_eq_ok.mp hfirst
    rw [Planner.expandSteps, hplain.relationships, Planner.propertySteps] at hexpand
    refine Grown.nodeSteps hplain ?_ hselect
    cases htypes : c.types x.relationship with
    | error f =>
      rw [htypes] at hexpand
      cases hexpand
    | ok types =>
      rw [htypes, Except.map, follow_ok] at hexpand
      obtain ⟨e₃, hstep, hend⟩ := Outcome.bind_eq_ok.mp hexpand
      cases hend
      have hinsert : {v | v ∈ seen.insert x.next} = insert x.next {v | v ∈ seen} :=
        Set.ext fun v => OrderedSet.mem_insert
      rw [hinsert]
      exact h.expand next hstep

/-- The plan of a route without cycles binds what the route meets. -/
theorem grown_of_planRoute (hplain : q.Plain) {route : Route} {part : List String}
    {relationships : List Relationship} (hcovers : route.Covers part relationships)
    (hclosing : route.closing = []) {n : ℕ} (h : planRoute c db q n route = .ok e) :
    Grown db {v | v ∈ part} e := by
  obtain ⟨scan, hscan, h⟩ := Outcome.bind_eq_ok.mp h
  rw [Planner.routeSteps, hclosing, Planner.numbered, List.append_nil, follow_append] at h
  obtain ⟨e₁, hfirst, h⟩ := Outcome.bind_eq_ok.mp h
  have hstart : Grown db {v | v ∈ OrderedSet.singleton route.start} scan := by
    have hset : {v | v ∈ OrderedSet.singleton route.start} = {route.start} :=
      Set.ext fun v => OrderedSet.mem_singleton
    rw [hset]
    exact grown_scan hscan
  have hmet : {v | v ∈ part} =
      {v | v ∈ Route.met (OrderedSet.singleton route.start) route.crossings} :=
    Set.ext fun v => hcovers.mem_met.symm
  rw [hmet]
  exact Grown.crossings hplain hcovers.follows (hstart.nodeSteps hplain hfirst) h

end Steps

/-- Plans of components that share no variable are joined without sharing one. -/
theorem Joined.grown (hforest : q.pattern.Forest) (hplain : q.Plain) {parts : List (List String)}
    {k : ℕ} {e : Expression α} (h : Joined c db q parts k e) (hnodup : parts.flatten.Nodup) :
    Grown db {v | v ∈ parts.flatten} e := by
  induction h with
  | first hroute hplan =>
    have hcovers := hroute.covers hforest.distinct
    rw [List.flatten_singleton]
    exact grown_of_planRoute hplain hcovers (hcovers.closing_eq_nil hforest) hplan
  | @next parts k part route left right e _ hroute hplan hjoin ih =>
    have hcovers := hroute.covers hforest.distinct
    have hright := grown_of_planRoute hplain hcovers (hcovers.closing_eq_nil hforest) hplan
    rw [List.flatten_append, List.flatten_singleton] at hnodup ⊢
    obtain ⟨hleft, -, hdisjoint⟩ := List.nodup_append'.mp hnodup
    have hunion : {v | v ∈ parts.flatten ++ part} = {v | v ∈ parts.flatten} ∪ {v | v ∈ part} :=
      Set.ext fun v => List.mem_append
    rw [hunion]
    exact (ih hleft).join hright (fun v hl hr => hdisjoint hl hr) hjoin

/-- Plans of forests without predicates are without cycles. -/
theorem acyclic_of_planQuery (hforest : q.pattern.Forest) (hplain : q.Plain) {e : Expression α}
    (h : planQuery c db q = .ok e) : e.Acyclic db := by
  obtain ⟨parts, k, hcomponents, hjoined⟩ := joined_of_planQuery hforest.distinct h
  have hnodup : parts.flatten.Nodup := hcomponents.names.nodup_iff.mpr hforest.distinct
  exact (hjoined.grown hforest hplain hnodup).acyclic

/-- Where every node carries exactly one label, the shares of the labels at every node variable of
an expression without cycles are together one, unless the expression has no matches; and every plan
of a forest without predicates is such an expression. -/
theorem shares_sum_of_acyclic [NumberHash ℚ] {db : Database ℚ} (h : db.Partitioned) :
    (∀ e : Expression ℚ, e.Acyclic db → 0 < e.size →
      ∀ v shares, e.profile.nodes.get? v = some shares → shares.values.sum = 1) ∧
    ∀ (c : Planner ℚ) (q : Query ℚ) (e : Expression ℚ), q.pattern.Forest → q.Plain →
      planQuery c db q = .ok e → e.Acyclic db ∧ (0 < e.size →
        ∀ v shares, e.profile.nodes.get? v = some shares → shares.values.sum = 1) := by
  have hwhole : ∀ e : Expression ℚ, e.Acyclic db → 0 < e.size →
      ∀ v shares, e.profile.nodes.get? v = some shares → shares.values.sum = 1 :=
    fun e he hsize v shares hv => ((he.conserved h).whole hsize v shares hv).sum_values
  refine ⟨hwhole, fun c q e hforest hplain hplan => ?_⟩
  have hacyclic := acyclic_of_planQuery hforest hplain hplan
  exact ⟨hacyclic, hwhole e hacyclic⟩

/-- A person owns something, and there is something else. -/
def owned : Query ℚ := Query.ofPattern
  (((Pattern.empty.addNode "a" ["Person"]).addRelationship "a" (some "OWNS") .outgoing "b").addNode
    "c" [])

/-- The names by which `motorists` are known. -/
def motoristNames : Planner ℚ :=
  ⟨{ Store.empty 10 with labelIds := .singleton "Person" 1, typeIds := .singleton "OWNS" 7 },
    .mergeOn, none⟩

theorem owned_forest : owned.pattern.Forest := by
  have hone : owned.pattern.relationships.length = 1 := by decide
  refine ⟨by decide, fun r others hperm hlinked => ?_⟩
  have hlength := hperm.length_eq
  rw [hone, List.length_cons] at hlength
  obtain rfl := List.length_eq_zero_iff.mp (Nat.succ.inj hlength).symm
  have hends : ∀ r ∈ owned.pattern.relationships, r.source ≠ r.target := by decide
  refine hends r (hperm.mem_iff.mpr List.mem_cons_self) ?_
  exact hlinked.eq_of_edges id (fun _ _ hmem => absurd hmem List.not_mem_nil)

theorem shares_sum_of_owned : motorists.Partitioned ∧ owned.pattern.Forest ∧ owned.Plain ∧
    ∃ (_ : NumberHash ℚ) (e : Expression ℚ), planQuery motoristNames motorists owned = .ok e ∧
      0 < e.size ∧ e.Acyclic motorists ∧
      ∀ v shares, e.profile.nodes.get? v = some shares → shares.values.sum = 1 := by
  have hplain : owned.Plain := ⟨fun _ => rfl, fun _ => rfl⟩
  refine ⟨motorists_partitioned, owned_forest, hplain, ⟨fun _ => 0⟩, ?_⟩
  let hash : NumberHash ℚ := ⟨fun _ => 0⟩
  have hsome : (planQuery motoristNames motorists owned).toOption.any (fun e => 0 < e.size) =
      true := by decide +kernel
  cases hplan : planQuery motoristNames motorists owned with
  | error f =>
    rw [hplan] at hsome
    cases hsome
  | ok e =>
    rw [hplan] at hsome
    have hsize : 0 < e.size := of_decide_eq_true hsome
    obtain ⟨-, hplans⟩ := shares_sum_of_acyclic motorists_partitioned
    obtain ⟨hacyclic, hsum⟩ := hplans _ _ e owned_forest hplain hplan
    exact ⟨e, rfl, hsize, hacyclic, hsum hsize⟩

end Plan

end PatternCardinality
