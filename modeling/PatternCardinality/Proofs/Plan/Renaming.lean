import PatternCardinality.Proofs.Estimate.Renaming
import PatternCardinality.Proofs.Plan.RouteRenaming
import PatternCardinality.Proofs.Plan.Totality

/-!
# Plans under other names

The steps of a route through a renamed query are the same under names that correspond, so they lead
to results that agree but for names, or fail alike. A route may also be renamed to itself: the names
that it makes up are numbered from where it begins in a plan, and other numbers change no size.
-/

namespace PatternCardinality.Plan

open Estimate Statistics

variable {α : Type} {R : String → String → Prop}

/-- Steps that fail alike or are operators that agree but for names. -/
abbrev Step.Renamed (R : String → String → Prop) : Step α → Step α → Prop :=
  Outcome.Agree (Operator.Renamed R)

theorem failure?_renamed {steps steps' : List (Step α)}
    (h : List.Forall₂ (Step.Renamed R) steps steps') : failure? steps' = failure? steps := by
  induction h with
  | nil => rfl
  | cons hstep _ ih =>
    cases hstep with
    | ok => rw [failure?_ok, failure?_ok, ih]
    | error => rw [failure?_error, failure?_error]

/-- Names made up from two numbers on correspond. -/
structure Numbered (R : String → String → Prop) (n n' : ℕ) : Prop where
  relationship : ∀ i, R (relationshipName (n + i)) (relationshipName (n' + i))
  temporary : ∀ i, R (temporaryName (n + i)) (temporaryName (n' + i))

theorem Numbered.add {n n' : ℕ} (h : Numbered R n n') (k : ℕ) : Numbered R (n + k) (n' + k) := by
  constructor
  · intro i
    rw [Nat.add_assoc, Nat.add_assoc]
    exact h.relationship (k + i)
  · intro i
    rw [Nat.add_assoc, Nat.add_assoc]
    exact h.temporary (k + i)

namespace Planner

variable {c : Planner α}

theorem propertySteps_renamed {e e' : String} (he : R e e') (predicates : Option (Predicates α)) :
    List.Forall₂ (Step.Renamed R) (c.propertySteps e predicates)
      (c.propertySteps e' predicates) := by
  cases predicates with
  | none => exact .nil
  | some predicates =>
    refine .cons ?_ .nil
    cases c.propertyPredicates predicates with
    | error f => exact .error f
    | ok byId => exact .ok (.selectProperties byId c.fixed he)

theorem identify_renamed {staying staying' leaving leaving' : String}
    (hstaying : R staying staying') (hleaving : R leaving leaving') :
    (c.identify staying leaving).Renamed R (c.identify staying' leaving') := by
  rw [identify, identify]
  cases c.strategy with
  | mergeOn => exact .mergeOn hstaying hleaving
  | selfJoin => exact .selfJoin hstaying hleaving

theorem numbered_renamed {ρ : Type} {steps steps' : ℕ → ρ → List (Step α)} {l l' : List ρ}
    (h : List.Forall₂ (fun r r' => ∀ n n', Numbered R n n' →
      List.Forall₂ (Step.Renamed R) (steps n r) (steps' n' r')) l l') (width : ℕ) {n n' : ℕ}
    (hn : Numbered R n n') :
    List.Forall₂ (Step.Renamed R) (numbered steps width n l) (numbered steps' width n' l') := by
  induction h generalizing n n' with
  | nil => exact .nil
  | cons hr _ ih => exact List.rel_append (hr n n' hn) (ih (hn.add width))

variable {q q' : Query α} (hR : Relator.BiUnique R) (hq : q.Renamed R q')

include hq

theorem expandSteps_renamed {r r' : Relationship} (hr : r ∈ q.pattern.relationships)
    (hrr : r.Renamed R r') {base base' e e' target target' : String} (hbase : R base base')
    (he : R e e') (htarget : R target target') (direction : Direction) :
    List.Forall₂ (Step.Renamed R) (c.expandSteps q r base direction e target)
      (c.expandSteps q' r' base' direction e' target') := by
  rw [expandSteps, expandSteps, hq.relationships r hr r' hrr]
  refine .cons ?_ (propertySteps_renamed he _)
  have htypes : c.types r' = c.types r := by rw [types, types, hrr.type]
  rw [htypes]
  cases c.types r with
  | error f => exact .error f
  | ok types => exact .ok (.expand direction types hbase he htarget)

theorem closingSteps_renamed {r r' : Relationship} (hr : r ∈ q.pattern.relationships)
    (hrr : r.Renamed R r') {n n' : ℕ} (hn : Numbered R n n') :
    List.Forall₂ (Step.Renamed R) (c.closingSteps q n r) (c.closingSteps q' n' r') := by
  rw [closingSteps, closingSteps, hrr.directed]
  exact List.rel_append
    (expandSteps_renamed hq hr hrr hrr.source (hn.relationship 1) (hn.temporary 0) _)
    (.cons (.ok (identify_renamed hrr.target (hn.temporary 0))) .nil)

include hR

theorem nodeSteps_renamed {v v' : String} (hv : v ∈ q.pattern.names) (hvv : R v v') :
    List.Forall₂ (Step.Renamed R) (c.nodeSteps q v) (c.nodeSteps q' v') := by
  rw [nodeSteps, nodeSteps, hq.pattern.labels? hR hvv, hq.nodes v hv v' hvv]
  refine List.rel_append (List.rel_map (R := Eq) ?_ (List.forall₂_same.mpr (fun _ _ => rfl)))
    (propertySteps_renamed hvv _)
  rintro name _ rfl
  rw [labelStep, labelStep]
  split
  · exact .ok (.selectLabel _ hvv)
  · exact .error _

theorem crossingSteps_renamed {x x' : Crossing} (hr : x.relationship ∈ q.pattern.relationships)
    (hnext : x.next ∈ q.pattern.names) (hx : x.Renamed R x') {n n' : ℕ} (hn : Numbered R n n') :
    List.Forall₂ (Step.Renamed R) (c.crossingSteps q n x) (c.crossingSteps q' n' x') := by
  rw [crossingSteps, crossingSteps, hx.direction]
  exact List.rel_append
    (expandSteps_renamed hq hr hx.relationship hx.base (hn.relationship 0) hx.next _)
    (nodeSteps_renamed hR hq hnext hx.next)

omit hR hq in
/-- The steps of corresponding routes are the same under names that correspond. -/
theorem routeSteps_renamed (h : q.Twins R q') {part : List String} {route route' : Route}
    (hthrough : Route.Through q.pattern part route)
    (hroute : route.Renamed R route') {n n' : ℕ} (hn : Numbered R n n') :
    List.Forall₂ (Step.Renamed R) (c.routeSteps q n route) (c.routeSteps q' n' route') := by
  have hcovers := hthrough.covers h.proper.distinct
  have hvisit : ∀ v ∈ route.start :: route.crossings.map Crossing.next, v ∈ q.pattern.names :=
    fun v hv => hthrough.inOrder.subset (hcovers.visits.mem_iff.mp hv)
  have htake : ∀ r ∈ route.crossings.map Crossing.relationship ++ route.closing,
      r ∈ q.pattern.relationships :=
    fun r hr => (List.mem_filter.mp (hcovers.takes.mem_iff.mp hr)).1
  rw [routeSteps, routeSteps, hroute.crossings.length_eq]
  refine List.rel_append (List.rel_append ?_ ?_) ?_
  · exact nodeSteps_renamed h.biUnique h.renamed (hvisit _ List.mem_cons_self) hroute.start
  · refine numbered_renamed (List.Forall₂.imp (fun x x' hx n n' hn => ?_)
      ((List.forall₂_and_left _ _).mpr ⟨fun x hx => hx, hroute.crossings⟩)) 1 hn
    exact crossingSteps_renamed h.biUnique h.renamed
      (htake _ (List.mem_append_left _ (List.mem_map_of_mem hx.1)))
      (hvisit _ (List.mem_cons_of_mem _ (List.mem_map_of_mem hx.1))) hx.2 hn
  · refine numbered_renamed (List.Forall₂.imp (fun r r' hr n n' hn => ?_)
      ((List.forall₂_and_left _ _).mpr ⟨fun r hr => hr, hroute.closing⟩)) 2 (hn.add _)
    exact closingSteps_renamed h.renamed (htake _ (List.mem_append_right _ hr.1)) hr.2 hn

end Planner

/-! ### Routes under other numbers -/

/-- Names that are free correspond to themselves, and names that are made up to those with a number
that is larger by `n`. -/
inductive Shifted (n : ℕ) : String → String → Prop
  | free {v} (h : ¬Reserved v) : Shifted n v v
  | relationship (k : ℕ) : Shifted n (relationshipName k) (relationshipName (n + k))
  | temporary (k : ℕ) : Shifted n (temporaryName k) (temporaryName (n + k))

theorem Shifted.eq_iff {n : ℕ} {v v' w w' : String} (hv : Shifted n v v') (hw : Shifted n w w') :
    v = w ↔ v' = w' := by
  have hfree : ∀ {u : String} (k : ℕ), ¬Reserved u → u ≠ relationshipName k ∧
      u ≠ temporaryName k := by
    rintro u k hu
    exact ⟨ne_relationshipName hu k, fun h => hu (h ▸ temporaryName_reserved k)⟩
  cases hv with
  | free hv =>
    cases hw with
    | free => exact Iff.rfl
    | relationship k => exact iff_of_false (hfree k hv).1 (hfree (n + k) hv).1
    | temporary k => exact iff_of_false (hfree k hv).2 (hfree (n + k) hv).2
  | relationship j =>
    cases hw with
    | free hw => exact iff_of_false (hfree j hw).1.symm (hfree (n + j) hw).1.symm
    | relationship k =>
      rw [relationshipName_inj, relationshipName_inj]
      omega
    | temporary k =>
      exact iff_of_false (temporaryName_ne_relationshipName k j).symm
        (temporaryName_ne_relationshipName (n + k) (n + j)).symm
  | temporary j =>
    cases hw with
    | free hw => exact iff_of_false (hfree j hw).2.symm (hfree (n + j) hw).2.symm
    | relationship k =>
      exact iff_of_false (temporaryName_ne_relationshipName j k)
        (temporaryName_ne_relationshipName (n + j) (n + k))
    | temporary k =>
      rw [temporaryName_inj, temporaryName_inj]
      omega

theorem biUnique_shifted (n : ℕ) : Relator.BiUnique (Shifted n) :=
  ⟨fun _ _ _ hv hw => (hv.eq_iff hw).mpr rfl, fun _ _ _ hv hw => (hv.eq_iff hw).mp rfl⟩

theorem Shifted.eq_of_free {n : ℕ} {v v' : String} (h : Shifted n v v') (hv : ¬Reserved v) :
    v' = v := by
  cases h with
  | free => rfl
  | relationship k => exact absurd (relationshipName_reserved k) hv
  | temporary k => exact absurd (temporaryName_reserved k) hv

theorem numbered_shifted (n : ℕ) : Numbered (Shifted n) 0 n := by
  constructor <;> intro i <;> rw [Nat.zero_add]
  · exact .relationship i
  · exact .temporary i

section Shift

variable {q : Query α} (hp : q.pattern.Proper) (hfree : ∀ v ∈ q.pattern.names, ¬Reserved v)

include hp hfree

/-- A relationship of a pattern without reserved names corresponds to itself only. -/
theorem eq_of_renamed_shifted {n : ℕ} {r r' : Relationship} (hr : r ∈ q.pattern.relationships)
    (h : r.Renamed (Shifted n) r') : r' = r := by
  have hs := h.source.eq_of_free (hfree _ (hp.source_mem r hr))
  have ht := h.target.eq_of_free (hfree _ (hp.target_mem r hr))
  rw [h.eq_mk, hs, ht]

/-- A query without reserved names is the same under other numbers. -/
theorem twins_shifted (n : ℕ) : q.Twins (Shifted n) q := by
  refine ⟨biUnique_shifted n, ⟨⟨List.forall₂_same.mpr (fun v hv => ?_),
    List.forall₂_same.mpr (fun r hr => ?_)⟩, fun v hv v' h => ?_, fun r hr r' h => ?_⟩, hp, hfree,
    hfree⟩
  · exact ⟨.free (hfree _ (List.mem_map_of_mem hv)), rfl⟩
  · exact ⟨.free (hfree _ (hp.source_mem r hr)), .free (hfree _ (hp.target_mem r hr)), rfl, rfl⟩
  · rw [h.eq_of_free (hfree v hv)]
  · rw [eq_of_renamed_shifted hp hfree hr h]

end Shift

variable [Scalar α] [NumberHash α] {db : Database α}

/-- Steps that agree but for names lead from expressions that do to expressions that do. -/
theorem follow_renamed (hR : Relator.BiUnique R) {steps steps' : List (Step α)}
    (hsteps : List.Forall₂ (Step.Renamed R) steps steps') {e e' a a' : Expression α}
    (he : e.Renamed R e') (h : follow db e steps = .ok a) (h' : follow db e' steps' = .ok a') :
    a.Renamed R a' := by
  induction hsteps generalizing e e' with
  | nil =>
    cases h
    cases h'
    exact he
  | cons hstep _ ih =>
    cases hstep with
    | error f =>
      rw [follow_error] at h
      cases h
    | ok hop =>
      rw [follow_ok] at h h'
      obtain ⟨e₁, he₁, h⟩ := Outcome.bind_eq_ok.mp h
      obtain ⟨e₁', he₁', h'⟩ := Outcome.bind_eq_ok.mp h'
      obtain ⟨p, hp, rfl⟩ := apply_eq_ok.mp he₁
      obtain ⟨p', hp', rfl⟩ := apply_eq_ok.mp he₁'
      exact ih (.apply hop he (compute_renamed hR hop he.profile hp hp')) h h'

/-- Steps that agree but for names end alike where no operator is out of place. -/
theorem Runs.renamed (hR : Relator.BiUnique R) {steps steps' : List (Step α)}
    (hsteps : List.Forall₂ (Step.Renamed R) steps steps') {P Q P' Q' : Profile α → Prop}
    (h : Runs db P steps Q) (h' : Runs db P' steps' Q') {e e' : Expression α}
    (he : e.Renamed R e') (hp : P e.profile) (hp' : P' e'.profile) :
    Outcome.Agree (Expression.Renamed R) (follow db e steps) (follow db e' steps') := by
  -- the first step that fails is the same on both sides, so only one of the ways to end is left
  have hsame := failure?_renamed hsteps
  rcases h e hp with ⟨a, ha, -⟩ | ⟨f, hf, hfirst⟩
  · rcases h' e' hp' with ⟨a', ha', -⟩ | ⟨f', hf', hfirst'⟩
    · rw [ha, ha']
      exact .ok (follow_renamed hR hsteps he ha ha')
    · rw [hfirst', failure?_eq_none ha] at hsame
      cases hsame
  · rcases h' e' hp' with ⟨a', ha', -⟩ | ⟨f', hf', hfirst'⟩
    · rw [hfirst, failure?_eq_none ha'] at hsame
      cases hsame
    · rw [hfirst, hfirst'] at hsame
      cases hsame
      rw [hf, hf']
      exact .error f

/-- Corresponding routes of queries that agree but for names are planned alike. -/
theorem planRoute_renamed (db : Database α) {c : Planner α} {q q' : Query α} (h : q.Twins R q')
    {part part' : List String} {route route' : Route}
    (hthrough : Route.Through q.pattern part route)
    (hthrough' : Route.Through q'.pattern part' route') (hroute : route.Renamed R route')
    {n n' : ℕ} (hn : Numbered R n n') :
    Outcome.Agree (Expression.Renamed R) (planRoute c db q n route)
      (planRoute c db q' n' route') := by
  obtain ⟨p, hscan, hleaf, hholds⟩ := exists_scan db route.start n
  obtain ⟨p', hscan', hleaf', hholds'⟩ := exists_scan db route'.start n'
  have hruns := Planner.routeSteps_runs db (c := c) (q := q) (n := n)
    (hthrough.covers h.proper.distinct) (fun v hv => h.free v (hthrough.inOrder.subset hv))
  have hruns' := Planner.routeSteps_runs db (c := c) (q := q') (n := n')
    (hthrough'.covers h.proper'.distinct) (fun v hv => h.free' v (hthrough'.inOrder.subset hv))
  have hsteps := Planner.routeSteps_renamed (c := c) h hthrough hroute hn
  have hscanned := scan_renamed h.biUnique hroute.start hscan hscan'
  rw [planRoute, planRoute, hleaf, hleaf']
  exact hruns.renamed h.biUnique hsteps hruns' (.scan hroute.start hscanned) hholds hholds'

/-- A route that is planned somewhere can be planned first, with the same size. -/
theorem exists_planRoute_first {c : Planner α} {q : Query α} (hp : q.pattern.Proper)
    (hfree : ∀ v ∈ q.pattern.names, ¬Reserved v) {part : List String} {route : Route}
    (hthrough : Route.Through q.pattern part route) {n : ℕ} {e : Expression α}
    (h : planRoute c db q n route = .ok e) :
    ∃ e', planRoute c db q 0 route = .ok e' ∧ e'.size = e.size := by
  have htwins := twins_shifted hp hfree n
  have hroute : route.Renamed (Shifted n) route := by
    have hname : ∀ v ∈ part, Shifted n v v :=
      fun v hv => .free (hfree v (hthrough.inOrder.subset hv))
    obtain ⟨first, more, rfl, rfl⟩ := hthrough.isRoute
    exact Route.through_renamed htwins.biUnique htwins.renamed.pattern (hname _ List.mem_cons_self)
      (List.forall₂_same.mpr (fun v hv => hname v (List.mem_cons_of_mem _ hv)))
  have hplanned := planRoute_renamed db (c := c) htwins hthrough hthrough hroute
    (numbered_shifted n)
  rw [h] at hplanned
  generalize planRoute c db q 0 route = first at hplanned ⊢
  cases hplanned with
  | ok he => exact ⟨_, rfl, he.profile.size.symm⟩

end PatternCardinality.Plan
