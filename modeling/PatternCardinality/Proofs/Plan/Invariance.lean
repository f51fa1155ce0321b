import PatternCardinality.Proofs.Plan.Product
import PatternCardinality.Proofs.Query.Renaming

/-!
# Estimates do not depend on names

A query and the same query under other names of its node variables are planned alike: either both
plans fail in the same way, or they have the same operators in the same shape and the same sizes.
The components are met in the same order, their routes correspond, and results are joined in pairs
that correspond.
-/

namespace PatternCardinality

open Estimate Statistics Pattern

namespace Plan

variable {α : Type} [Scalar α] [NumberHash α] {db : Database α} {c : Planner α} {q q' : Query α}

/-- The plan of a further component is joined, and no node variable is shared. -/
theorem Joined.exists_join (hdistinct : q.pattern.names.Nodup)
    (hfree : ∀ v ∈ q.pattern.names, ¬Reserved v) {parts : List (List String)} {k : ℕ}
    {left right : Expression α} (h : Joined c db q parts k left) {part : List String}
    {route : Route} (hthrough : Route.Through q.pattern part route)
    (hplan : planRoute c db q k route = .ok right) (hapart : parts.flatten.Disjoint part) :
    ∃ p, join db left.profile right.profile = .ok p ∧
      Expression.make db .join [left, right] = .ok (.node .join [left, right] p) ∧
      (joinedNodes db left.profile.nodes right.profile.nodes).2 = 0 := by
  have hleft := h.holds hdistinct hfree
  have hright := hthrough.holds hdistinct hfree hplan
  have hall : ∀ v ∈ {v | v ∈ parts.flatten} ∪ {v | v ∈ part}, ¬Reserved v := by
    rintro v (hv | hv)
    · exact hfree v (h.mem_names v hv)
    · exact hfree v (hthrough.inOrder.subset hv)
  obtain ⟨e, he, -⟩ := Plan.exists_join db (Nat.le_add_right _ _) hall hleft hright
  obtain ⟨p, hp, rfl⟩ := make_eq_ok.mp he
  exact ⟨p, hp, he, shared_of_holds hleft hright (fun v hv hmem => hapart hv hmem)⟩

theorem disjoint_of_nodup_flatten {parts more : List (List String)} {part : List String}
    (h : (parts ++ [part] ++ more).flatten.Nodup) : parts.flatten.Disjoint part := by
  rw [List.flatten_append, List.flatten_append, List.flatten_singleton] at h
  exact (List.nodup_append'.mp (List.nodup_append'.mp h).1).2.2

section Twins

variable {R : String → String → Prop} (h : q.Twins R q') (hnumbered : Numbered R 0 0)

include h hnumbered

/-- Further components of either query are planned and joined alike. -/
theorem joinRoutes_renamed {parts parts' more more' : List (List String)} {rs rs' : List Route}
    {k : ℕ} {left left' : Expression α} (hthrough : List.Forall₂ (Route.Through q.pattern) more rs)
    (hthrough' : List.Forall₂ (Route.Through q'.pattern) more' rs')
    (hroutes : List.Forall₂ (Route.Renamed R) rs rs') (hjoined : Joined c db q parts k left)
    (hjoined' : Joined c db q' parts' k left') (hnodup : (parts ++ more).flatten.Nodup)
    (hnodup' : (parts' ++ more').flatten.Nodup) (hleft : left.Renamed R left') :
    Outcome.Agree (Expression.Renamed R) (joinRoutes c db q k left rs)
      (joinRoutes c db q' k left' rs') := by
  induction hroutes generalizing parts parts' more more' k left left' with
  | nil => exact .ok hleft
  | @cons route route' rs rs' hroute hroutes ih =>
    obtain ⟨part, more, hpart, hmore, rfl⟩ := List.forall₂_cons_right_iff.mp hthrough
    obtain ⟨part', more', hpart', hmore', rfl⟩ := List.forall₂_cons_right_iff.mp hthrough'
    rw [List.append_cons] at hnodup hnodup'
    have hk := hnumbered.add k
    rw [Nat.zero_add] at hk
    rw [joinRoutes, joinRoutes, hroute.freshCount]
    refine (planRoute_renamed db h hpart hpart' hroute hk).bind
      (fun right right' hplan hplan' hright => ?_)
    -- neither join shares a node variable, so both have the same factor
    obtain ⟨p, hjoin, hmake, hshared⟩ := hjoined.exists_join h.proper.distinct h.free hpart hplan
      (disjoint_of_nodup_flatten hnodup)
    obtain ⟨p', hjoin', hmake', hshared'⟩ := hjoined'.exists_join h.proper'.distinct h.free' hpart'
      hplan' (disjoint_of_nodup_flatten hnodup')
    have hresult := join_renamed hleft.profile hright.profile (hshared'.trans hshared.symm) hjoin
      hjoin'
    have hnext' := hjoined'.next hpart' hplan' hmake'
    rw [hroute.freshCount] at hnext'
    rw [hmake, hmake']
    exact ih hmore hmore' (hjoined.next hpart hplan hmake) hnext' hnodup hnodup'
      (.join hleft hright hresult)

/-- Twins are planned alike. -/
theorem planQuery_renamed :
    Outcome.Agree (Expression.Renamed R) (planQuery c db q) (planQuery c db q') := by
  obtain ⟨positions, hpositions, hcomponents⟩ := components_ordered (α := α) h.proper
  obtain ⟨positions', hpositions', hcomponents'⟩ := components_ordered (α := α) h.proper'
  obtain ⟨rs, hrs, hthrough⟩ := routes_of_components hpositions hcomponents
  obtain ⟨rs', hrs', hthrough'⟩ := routes_of_components hpositions' hcomponents'
  have hroutes := routes_renamed (α := α) h.biUnique h.renamed.pattern h.proper
  rw [hrs, hrs'] at hroutes
  have hnodup := hcomponents.names.nodup_iff.mpr h.proper.distinct
  have hnodup' := hcomponents'.names.nodup_iff.mpr h.proper'.distinct
  generalize positions.map q.pattern.named = parts at hthrough hnodup
  generalize positions'.map q'.pattern.named = parts' at hthrough' hnodup'
  have hempty : q'.pattern.nodes.isEmpty = q.pattern.nodes.isEmpty := by
    rw [Bool.eq_iff_iff, List.isEmpty_iff_length_eq_zero, List.isEmpty_iff_length_eq_zero,
      h.renamed.pattern.nodes.length_eq]
  simp only [planQuery, hempty, hrs, hrs']
  split
  · exact .error _
  · cases hroutes with
    | ok hroutes =>
      cases hroutes with
      | nil => exact .error _
      | @cons route route' rs rs' hroute hroutes =>
        obtain ⟨part, more, hpart, hmore, rfl⟩ := List.forall₂_cons_right_iff.mp hthrough
        obtain ⟨part', more', hpart', hmore', rfl⟩ := List.forall₂_cons_right_iff.mp hthrough'
        have hfirst := planRoute_renamed db (c := c) h hpart hpart' hroute hnumbered
        refine hfirst.bind (fun first first' hplan hplan' hrenamed => ?_)
        have hjoined' := Joined.first hpart' hplan'
        rw [hroute.freshCount] at hjoined' ⊢
        exact joinRoutes_renamed h hnumbered hmore hmore' hroutes (.first hpart hplan) hjoined'
          hnodup hnodup' hrenamed

end Twins

end Plan

namespace Estimator

variable {α : Type} [Scalar α] [NumberHash α]

/-- Estimates do not depend on how node variables are called: under new names that are different and
not reserved, a query fails as before, or has the same estimate and a plan of the same shape. If
there are predicates on relationships, the new names have to tell these apart. -/
theorem estimate_rename (estimator : Estimator α) {q : Query α} (hp : q.pattern.Proper)
    (hfree : ∀ v ∈ q.pattern.names, ¬Reserved v) {f : String → String}
    (hinj : Set.InjOn f {v | v ∈ q.pattern.names})
    (hfree' : ∀ v ∈ q.pattern.names, ¬Reserved (f v))
    (htell : (q.pattern.rename f).NamesTellEnds ∨ ∀ owner, q.relationshipPredicates? owner = none) :
    Outcome.Agree (Expression.Renamed (Called f q.pattern.names)) (estimator.plan q)
        (estimator.plan (q.rename f)) ∧
      estimator.estimate (q.rename f) = estimator.estimate q := by
  have hnumbered : Plan.Numbered (Called f q.pattern.names) 0 0 :=
    ⟨fun i => .madeUp (Plan.relationshipName_reserved _),
      fun i => .madeUp (Plan.temporaryName_reserved _)⟩
  have hplan : Outcome.Agree (Expression.Renamed (Called f q.pattern.names)) (estimator.plan q)
      (estimator.plan (q.rename f)) :=
    Plan.planQuery_renamed (Query.twins_rename hp hfree hinj hfree' htell) hnumbered
  refine ⟨hplan, ?_⟩
  rw [estimate, estimate]
  generalize estimator.plan q = planned, estimator.plan (q.rename f) = planned' at hplan ⊢
  cases hplan with
  | ok he => exact congrArg Except.ok he.profile.size
  | error failure => rfl

/-- Two relationships between the same variables, of which one has a predicate, and a variable
apart. -/
def acquainted : Query Float where
  pattern := ((Pattern.empty.addRelationship "a" none .outgoing "b").addRelationship "b" none .both
    "a").addNode "c" []
  nodePredicates := ∅
  relationshipPredicates := .singleton "a_b" (.singleton "since" (.text "May"))

/-- Ten nodes with one property. -/
def meeting : Estimator Float :=
  ⟨.standard, ⟨⟨{ Store.empty 10 with propertyIds := .singleton "since" 0 }, false⟩,
    Labels.Distribution.single []⟩⟩

/-- Exchanges the first variable and the last. -/
def exchanged (v : String) : String := if v = "a" then "c" else if v = "c" then "a" else v

theorem built_acquainted : acquainted.pattern.Built :=
  ((Pattern.Built.empty.relationship none .outgoing (by decide) (by decide)).relationship none .both
    (by decide) (by decide)).node [] (by decide)

/-- All names are known, so there is a plan. -/
theorem exists_plan_acquainted : ∃ e, meeting.plan acquainted = .ok e := by
  have hproper : acquainted.Proper := by
    refine ⟨built_acquainted.proper, by decide, built_acquainted.not_reserved,
      fun owner h => ?_, fun owner h => ?_⟩
    · cases h
    · obtain rfl := OrderedMap.contains_singleton.mp h
      exact ⟨⟨"a", "b", none, true⟩, by decide, by decide⟩
  rcases Plan.planQuery_outcome meeting.database (c := meeting.planner) hproper with
    ⟨e, he, -⟩ | ⟨f, -, hunknown⟩
  · exact ⟨e, he⟩
  · exfalso
    cases hunknown with
    | @label n name hn hname =>
      have hlabels : ∀ n ∈ acquainted.pattern.nodes, n.labels.toList = [] := by decide
      rw [OrderedSet.mem_toList, hlabels n hn] at hname
      cases hname
    | @type r name hr htype =>
      have htypes : ∀ r ∈ acquainted.pattern.relationships, r.type = none := by decide
      rw [htypes r hr] at htype
      cases htype
    | nodeProperty htable => cases htable
    | relationshipProperty htable hname hproperty =>
      obtain ⟨-, rfl⟩ := OrderedMap.eq_of_get?_singleton htable
      obtain rfl := OrderedMap.contains_singleton.mp hname
      cases hproperty

theorem estimate_rename_acquainted :
    acquainted.pattern.Proper ∧ (∀ v ∈ acquainted.pattern.names, ¬Reserved v) ∧
      Set.InjOn exchanged {v | v ∈ acquainted.pattern.names} ∧
      (∀ v ∈ acquainted.pattern.names, ¬Reserved (exchanged v)) ∧
      (acquainted.pattern.rename exchanged).NamesTellEnds ∧
      ∃ e e', meeting.plan acquainted = .ok e ∧
        meeting.plan (acquainted.rename exchanged) = .ok e' ∧
        e.Renamed (Called exchanged acquainted.pattern.names) e' ∧
        meeting.estimate (acquainted.rename exchanged) = meeting.estimate acquainted := by
  have hp := built_acquainted.proper
  have hfree := built_acquainted.not_reserved
  have hinj : Set.InjOn exchanged {v | v ∈ acquainted.pattern.names} := by
    have hall : ∀ v ∈ acquainted.pattern.names, ∀ w ∈ acquainted.pattern.names,
        exchanged v = exchanged w → v = w := by decide
    exact fun v hv w hw => hall v hv w hw
  have hfree' : ∀ v ∈ acquainted.pattern.names, ¬Reserved (exchanged v) := by decide
  have htell : (acquainted.pattern.rename exchanged).NamesTellEnds := by
    unfold NamesTellEnds
    decide
  obtain ⟨hplan, hestimate⟩ := estimate_rename meeting hp hfree hinj hfree' (.inl htell)
  obtain ⟨e, he⟩ := exists_plan_acquainted
  rw [he] at hplan
  generalize meeting.plan (acquainted.rename exchanged) = planned at hplan ⊢
  cases hplan with
  | ok h => exact ⟨hp, hfree, hinj, hfree', htell, e, _, he, rfl, h, hestimate⟩

end Estimator

end PatternCardinality
