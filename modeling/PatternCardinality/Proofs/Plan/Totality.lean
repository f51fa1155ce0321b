import PatternCardinality.Proofs.Plan.Chain
import PatternCardinality.Proofs.Query.WellFormed

/-!
# When a query has a plan

A well-formed query has a plan unless it uses a name that the statistics do not know. Planning then
fails with such a name, and with nothing else: the steps of all routes resolve every name of the
query, and no operator fails in its place.
-/

namespace PatternCardinality

open Estimate Statistics Plan

/-- The query uses a name that the statistics do not know; the failure reports it. -/
inductive Query.Unknown {α : Type} (s : Store α) (q : Query α) : Failure α → Prop
  | label {n name} (node : n ∈ q.pattern.nodes) (used : name ∈ n.labels)
      (unknown : s.labelId? name = none) : Unknown s q (.unknownLabels [name])
  | type {r name} (relationship : r ∈ q.pattern.relationships) (used : r.type = some name)
      (unknown : s.typeId? name = none) : Unknown s q (.unknownType name)
  | nodeProperty {owner predicates name}
      (table : q.nodePredicates.get? owner = some predicates)
      (used : predicates.contains name = true) (unknown : s.propertyId? name = none) :
      Unknown s q (.unknownProperty name)
  | relationshipProperty {owner predicates name}
      (table : q.relationshipPredicates.get? owner = some predicates)
      (used : predicates.contains name = true) (unknown : s.propertyId? name = none) :
      Unknown s q (.unknownProperty name)

namespace Plan

variable {α : Type}

section Names

variable {c : Planner α} {q : Query α} {f : Failure α}

theorem get?_of_predicates? {table : OrderedMap String (Predicates α)} {owner : String}
    {predicates : Predicates α} (h : Query.predicates? table owner = some predicates) :
    table.get? owner = some predicates :=
  (Option.filter_eq_some_iff.mp h).1

theorem predicates?_of_get? {table : OrderedMap String (Predicates α)} {owner name : String}
    {predicates : Predicates α} (h : table.get? owner = some predicates)
    (hname : predicates.contains name = true) :
    Query.predicates? table owner = some predicates := by
  refine Option.filter_eq_some_iff.mpr ⟨h, ?_⟩
  simp only [Bool.not_eq_true', ← Bool.not_eq_true, OrderedMap.isEmpty_iff]
  intro hnone
  simp [OrderedMap.contains, hnone] at hname

/-- Predicates fail to resolve at a property that is not known. -/
theorem propertyPredicates_eq_error {predicates : Predicates α}
    (h : c.propertyPredicates predicates = .error f) :
    ∃ name, predicates.contains name = true ∧ c.store.propertyId? name = none ∧
      f = .unknownProperty name := by
  rcases Outcome.bind_eq_error.mp h with h | ⟨entries, -, h⟩
  · obtain ⟨e, he, h⟩ := Outcome.mapM_eq_error h
    have hmem : e.1 ∈ predicates.keys := List.mem_map_of_mem he
    split at h
    · cases h
    · next hunknown =>
      cases h
      exact ⟨e.1, OrderedMap.mem_keys_iff.mp hmem, hunknown, rfl⟩
  · cases h

theorem known_of_propertyPredicates {predicates : Predicates α} {byId : PropertyPredicates α}
    (h : c.propertyPredicates predicates = .ok byId) {name : String}
    (hname : predicates.contains name = true) : c.store.propertyId? name ≠ none := by
  intro hunknown
  obtain ⟨entries, hentries, -⟩ := Outcome.bind_eq_ok.mp h
  obtain ⟨predicate, hget⟩ := OrderedMap.contains_iff.mp hname
  obtain ⟨value, -, hvalue⟩ := (Outcome.mem_of_mapM_eq_ok hentries).1 (name, predicate)
    (OrderedMap.mem_entries_iff.mpr hget)
  simp [hunknown] at hvalue

theorem error_mem_propertySteps {v : String} {predicates : Option (Predicates α)}
    (h : .error f ∈ c.propertySteps v predicates) :
    ∃ table name, predicates = some table ∧ table.contains name = true ∧
      c.store.propertyId? name = none ∧ f = .unknownProperty name := by
  cases predicates with
  | none => cases h
  | some table =>
    have herr := Outcome.map_eq_error.mp (List.mem_singleton.mp h).symm
    obtain ⟨name, hname, hunknown, rfl⟩ := propertyPredicates_eq_error herr
    exact ⟨table, name, rfl, hname, hunknown, rfl⟩

theorem mem_nodes_of_labels? {p : Pattern} {v : String} {labels : OrderedSet String}
    (h : p.labels? v = some labels) : ∃ n ∈ p.nodes, n.name = v ∧ n.labels = labels := by
  obtain ⟨n, hn, rfl⟩ := Option.map_eq_some_iff.mp h
  exact ⟨n, List.mem_of_find?_eq_some hn, by simpa using List.find?_some hn, rfl⟩

theorem labels?_of_mem {p : Pattern} (h : p.names.Nodup) {n : NodeVariable} (hn : n ∈ p.nodes) :
    p.labels? n.name = some n.labels := by
  have hall : ∀ l : List NodeVariable, (l.map (·.name)).Nodup → n ∈ l →
      l.find? (·.name = n.name) = some n := by
    intro l hl hmem
    induction l with
    | nil => cases hmem
    | cons m l ih =>
      obtain ⟨hm, hl⟩ := List.nodup_cons.mp hl
      rcases List.mem_cons.mp hmem with rfl | hmem
      · simp
      · have hne : m.name ≠ n.name := by
          intro heq
          exact hm (List.mem_map.mpr ⟨n, hmem, heq.symm⟩)
        rw [List.find?_cons_of_neg (by simpa using hne)]
        exact ih hl hmem
  rw [Pattern.labels?, hall p.nodes h hn]
  rfl

theorem error_mem_nodeSteps {v : String} (h : .error f ∈ c.nodeSteps q v) :
    q.Unknown c.store f := by
  rcases List.mem_append.mp h with h | h
  · obtain ⟨name, hname, h⟩ := List.mem_map.mp h
    cases hlabels : q.pattern.labels? v with
    | none =>
      rw [hlabels] at hname
      cases hname
    | some labels =>
      rw [hlabels] at hname
      obtain ⟨n, hn, -, rfl⟩ := mem_nodes_of_labels? hlabels
      rw [Planner.labelStep] at h
      split at h
      · cases h
      · next hunknown =>
        cases h
        exact .label hn hname hunknown
  · obtain ⟨table, name, htable, hname, hunknown, rfl⟩ := error_mem_propertySteps h
    exact .nodeProperty (get?_of_predicates? htable) hname hunknown

theorem types_eq_error {r : Relationship} (h : c.types r = .error f) :
    ∃ name, r.type = some name ∧ c.store.typeId? name = none ∧ f = .unknownType name := by
  rw [Planner.types] at h
  split at h
  · cases h
  · next name hname =>
    split at h
    · cases h
    · next hunknown =>
      cases h
      exact ⟨name, hname, hunknown, rfl⟩

theorem error_mem_expandSteps {r : Relationship} (hr : r ∈ q.pattern.relationships)
    {base e target : String} {direction : Direction}
    (h : .error f ∈ c.expandSteps q r base direction e target) : q.Unknown c.store f := by
  rcases List.mem_cons.mp h with h | h
  · obtain ⟨name, hname, hunknown, rfl⟩ := types_eq_error (Outcome.map_eq_error.mp h.symm)
    exact .type hr hname hunknown
  · obtain ⟨table, name, htable, hname, hunknown, rfl⟩ := error_mem_propertySteps h
    exact .relationshipProperty (get?_of_predicates? htable) hname hunknown

end Names

section Numbered

variable {ρ : Type} {l : List ρ}

theorem exists_of_mem_numbered {steps : Nat → ρ → List (Step α)} {width n : Nat} {s : Step α}
    (h : s ∈ Planner.numbered steps width n l) : ∃ r ∈ l, ∃ k, s ∈ steps k r := by
  induction l generalizing n with
  | nil => cases h
  | cons r l ih =>
    rcases List.mem_append.mp h with h | h
    · exact ⟨r, List.mem_cons_self, n, h⟩
    · obtain ⟨r', hr', k, hk⟩ := ih h
      exact ⟨r', List.mem_cons_of_mem _ hr', k, hk⟩

theorem exists_mem_numbered (steps : Nat → ρ → List (Step α)) (width n : Nat) {r : ρ}
    (hr : r ∈ l) :
    ∃ k, ∀ s ∈ steps k r, s ∈ Planner.numbered steps width n l := by
  induction l generalizing n with
  | nil => cases hr
  | cons r' l ih =>
    rcases List.mem_cons.mp hr with rfl | hr
    · exact ⟨n, fun s hs => List.mem_append_left _ hs⟩
    · obtain ⟨k, hk⟩ := ih (n := n + width) hr
      exact ⟨k, fun s hs => List.mem_append_right _ (hk s hs)⟩

end Numbered

section Routes

variable {c : Planner α} {q : Query α} {f : Failure α} {route : Route} {n : Nat}

/-- The selections at each variable of a route are among its steps. -/
theorem nodeSteps_subset_routeSteps {v : String}
    (hv : v ∈ route.start :: route.crossings.map Crossing.next) :
    ∀ s ∈ c.nodeSteps q v, s ∈ c.routeSteps q n route := by
  intro s hs
  rcases List.mem_cons.mp hv with rfl | hv
  · exact List.mem_append_left _ (List.mem_append_left _ hs)
  · obtain ⟨x, hx, rfl⟩ := List.mem_map.mp hv
    obtain ⟨k, hk⟩ := exists_mem_numbered (c.crossingSteps q) 1 n hx
    exact List.mem_append_left _ (List.mem_append_right _ (hk s (List.mem_append_right _ hs)))

/-- Each relationship of a route is expanded in its steps. -/
theorem expandSteps_subset_routeSteps {r : Relationship}
    (hr : r ∈ route.crossings.map Crossing.relationship ++ route.closing) :
    ∃ base direction e target, ∀ s ∈ c.expandSteps q r base direction e target,
      s ∈ c.routeSteps q n route := by
  rcases List.mem_append.mp hr with hr | hr
  · obtain ⟨x, hx, rfl⟩ := List.mem_map.mp hr
    obtain ⟨k, hk⟩ := exists_mem_numbered (c.crossingSteps q) 1 n hx
    refine ⟨x.base, x.direction, relationshipName k, x.next, fun s hs => ?_⟩
    exact List.mem_append_left _ (List.mem_append_right _ (hk s (List.mem_append_left _ hs)))
  · obtain ⟨k, hk⟩ := exists_mem_numbered (c.closingSteps q) 2 (n + route.crossings.length) hr
    refine ⟨r.source, if r.directed then .outgoing else .both, relationshipName (k + 1),
      temporaryName k, fun s hs => ?_⟩
    exact List.mem_append_right _ (hk s (List.mem_append_left _ hs))

/-- A step without an operator is due to an unknown name. -/
theorem error_mem_routeSteps
    (hrel : ∀ r ∈ route.crossings.map Crossing.relationship ++ route.closing,
      r ∈ q.pattern.relationships)
    (h : .error f ∈ c.routeSteps q n route) : q.Unknown c.store f := by
  rcases List.mem_append.mp h with h | h
  · rcases List.mem_append.mp h with h | h
    · exact error_mem_nodeSteps h
    · obtain ⟨x, hx, k, h⟩ := exists_of_mem_numbered h
      rcases List.mem_append.mp h with h | h
      · exact error_mem_expandSteps (hrel _ (List.mem_append_left _ (List.mem_map_of_mem hx))) h
      · exact error_mem_nodeSteps h
  · obtain ⟨r, hr, k, h⟩ := exists_of_mem_numbered h
    rcases List.mem_append.mp h with h | h
    · exact error_mem_expandSteps (hrel _ (List.mem_append_right _ hr)) h
    · cases List.mem_singleton.mp h

theorem exists_error_propertySteps {v : String} {table : OrderedMap String (Predicates α)}
    {predicates : Predicates α} {name : String} (htable : table.get? v = some predicates)
    (hname : predicates.contains name = true) (hunknown : c.store.propertyId? name = none)
    (e : String) : ∃ f, .error f ∈ c.propertySteps e (Query.predicates? table v) := by
  rw [predicates?_of_get? htable hname]
  cases hbyId : c.propertyPredicates predicates with
  | ok byId => exact absurd hunknown (known_of_propertyPredicates hbyId hname)
  | error f => exact ⟨f, by simp [Planner.propertySteps, hbyId, Except.map]⟩

/-- An unknown name shows in the steps of some route. -/
theorem exists_error_of_unknown {rs : List Route} {parts : List (List String)} (hq : q.Proper)
    (hcover : Cover q.pattern rs parts) (h : q.Unknown c.store f) :
    ∃ route ∈ rs, ∀ n, ∃ f', .error f' ∈ c.routeSteps q n route := by
  have hnode : ∀ v ∈ q.pattern.names, (∃ f', .error f' ∈ c.nodeSteps q v) →
      ∃ route ∈ rs, ∀ n, ∃ f', .error f' ∈ c.routeSteps q n route := by
    rintro v hv ⟨f', hf'⟩
    obtain ⟨route, hroute, hv⟩ := List.mem_flatMap.mp (hcover.visits.mem_iff.mpr hv)
    exact ⟨route, hroute, fun n => ⟨f', nodeSteps_subset_routeSteps hv _ hf'⟩⟩
  have hrelationship : ∀ r ∈ q.pattern.relationships,
      (∀ base direction e target, ∃ f', .error f' ∈ c.expandSteps q r base direction e target) →
      ∃ route ∈ rs, ∀ n, ∃ f', .error f' ∈ c.routeSteps q n route := by
    intro r hr hexpand
    obtain ⟨route, hroute, hr⟩ :=
      List.mem_flatMap.mp ((hcover.takes hq.pattern).mem_iff.mpr hr)
    refine ⟨route, hroute, fun n => ?_⟩
    obtain ⟨base, direction, e, target, hsub⟩ :=
      expandSteps_subset_routeSteps (c := c) (q := q) (n := n) hr
    obtain ⟨f', hf'⟩ := hexpand base direction e target
    exact ⟨f', hsub _ hf'⟩
  cases h with
  | @label node name hn hname hunknown =>
    refine hnode node.name (List.mem_map_of_mem hn) ⟨.unknownLabels [name], ?_⟩
    refine List.mem_append_left _ (List.mem_map.mpr ⟨name, ?_, ?_⟩)
    · rw [labels?_of_mem hq.pattern.distinct hn]
      exact hname
    · rw [Planner.labelStep, hunknown]
  | @type r name hr htype hunknown =>
    refine hrelationship r hr (fun base direction e target => ⟨.unknownType name, ?_⟩)
    refine List.mem_cons.mpr (Or.inl ?_)
    simp only [Planner.types, htype, hunknown]
    rfl
  | @nodeProperty owner predicates name htable hname hunknown =>
    have howner := hq.nodeOwner owner (OrderedMap.contains_iff.mpr ⟨predicates, htable⟩)
    obtain ⟨f', hf'⟩ := exists_error_propertySteps htable hname hunknown owner
    exact hnode owner howner ⟨f', List.mem_append_right _ hf'⟩
  | @relationshipProperty owner predicates name htable hname hunknown =>
    obtain ⟨r, hr, rfl⟩ :=
      hq.relationshipOwner owner (OrderedMap.contains_iff.mpr ⟨predicates, htable⟩)
    refine hrelationship r hr (fun base direction e target => ?_)
    obtain ⟨f', hf'⟩ := exists_error_propertySteps htable hname hunknown e
    exact ⟨f', List.mem_cons_of_mem _ hf'⟩

end Routes

section Plans

variable [Scalar α] [NumberHash α] (db : Database α) {c : Planner α} {q : Query α} {n : Nat}

theorem not_error_of_follow {e e' : Expression α} {steps : List (Step α)}
    (h : follow db e steps = .ok e') (f : Failure α) : .error f ∉ steps := by
  intro hf
  have hall := List.findSome?_eq_none_iff.mp (failure?_eq_none h) _ hf
  cases hall

/-- A route begins with a scan, which binds its first variable. -/
theorem exists_scan (v : String) (n : ℕ) :
    ∃ p, scan db v = .ok p ∧ Expression.leaf db (.scan v) = .ok (.node (.scan v) [] p) ∧
      Holds {v} n p := by
  obtain ⟨p, hp, hb⟩ := scan_binds db v
  exact ⟨p, hp, make_eq_ok.mpr ⟨p, hp, rfl⟩, ∅, hb, fun e he => absurd he (Set.notMem_empty e)⟩

/-- A route is planned, or else one of its steps is no operator. -/
theorem planRoute_outcome {route : Route} {members : List String}
    {relationships : List Relationship} (h : route.Covers members relationships)
    (hnames : ∀ v ∈ members, ¬Reserved v) :
    (∃ e, planRoute c db q n route = .ok e ∧
        Holds {v | v ∈ members} (n + route.freshCount) e.profile ∧
        ∀ f, .error f ∉ c.routeSteps q n route) ∨
      ∃ f, planRoute c db q n route = .error f ∧ .error f ∈ c.routeSteps q n route := by
  obtain ⟨p, -, hscan, hstart⟩ := exists_scan db route.start n
  simp only [planRoute, hscan, bind, Except.bind]
  rcases Planner.routeSteps_runs db (c := c) (q := q) h hnames
    (.node (.scan route.start) [] p) hstart with ⟨e, he, hh⟩ | ⟨f, herr, hf⟩
  · exact Or.inl ⟨e, he, hh, not_error_of_follow db he⟩
  · exact Or.inr ⟨f, herr, mem_of_failure? hf⟩

/-- A route that was planned binds the variables of its part. -/
theorem holds_of_planRoute {route : Route} {members : List String}
    {relationships : List Relationship} (h : route.Covers members relationships)
    (hnames : ∀ v ∈ members, ¬Reserved v) {e : Expression α}
    (hplan : planRoute c db q n route = .ok e) :
    Holds {v | v ∈ members} (n + route.freshCount) e.profile := by
  rcases planRoute_outcome db (c := c) (q := q) (n := n) h hnames with
    ⟨found, hfound, hholds, -⟩ | ⟨f, hf, -⟩
  · rw [hplan] at hfound
    cases hfound
    exact hholds
  · rw [hplan] at hf
    cases hf

theorem union_mem_flatten (part : List String) (parts : List (List String)) :
    ({v | v ∈ part} : Set String) ∪ {v | v ∈ parts.flatten} =
      {v | v ∈ (part :: parts).flatten} := by
  ext v
  simp only [Set.mem_union, Set.mem_ofPred_eq, List.flatten_cons, List.mem_append]

/-- The join of two results binds what either binds, if no node variable has a reserved name. -/
theorem exists_join {N N' : Set String} {k : Nat} (hnk : n ≤ k)
    (hfree : ∀ v ∈ N ∪ N', ¬Reserved v) {left right : Expression α} (hleft : Holds N n left.profile)
    (hright : Holds N' k right.profile) :
    ∃ e, Expression.make db .join [left, right] = .ok e ∧ Holds (N ∪ N') k e.profile := by
  obtain ⟨R, hbl, hR⟩ := hleft
  obtain ⟨R', hbr, hR'⟩ := hright
  have hnames : ∀ e ∈ R ∪ R', ∃ i < k, e = relationshipName i := by
    rintro e (he | he)
    · obtain ⟨i, hi, rfl⟩ := hR e he
      exact ⟨i, by omega, rfl⟩
    · exact hR' e he
  have hapart : ∀ v ∈ N ∪ N', v ∉ R ∪ R' := by
    intro v hv he
    obtain ⟨i, -, rfl⟩ := hnames v he
    exact hfree _ hv (relationshipName_reserved i)
  obtain ⟨p, hp, hb⟩ := join_binds db hbl hbr hapart
  exact ⟨_, make_eq_ok.mpr ⟨p, hp, rfl⟩, R ∪ R', hb, hnames⟩

/-- Further routes are planned and joined, or else one of their steps is no operator. -/
theorem joinRoutes_outcome {rs : List Route} {parts : List (List String)}
    (h : List.Forall₂ (fun route part => ∃ relationships, Route.Covers route part relationships)
      rs parts)
    (hnames : ∀ v ∈ parts.flatten, ¬Reserved v) {left : Expression α} {N : Set String}
    (hN : ∀ v ∈ N, ¬Reserved v) (hleft : Holds N n left.profile) :
    (∃ e k, joinRoutes c db q n left rs = .ok e ∧
        Holds (N ∪ {v | v ∈ parts.flatten}) k e.profile ∧
        ∀ route ∈ rs, ∃ m, ∀ f, .error f ∉ c.routeSteps q m route) ∨
      ∃ f, joinRoutes c db q n left rs = .error f ∧
        ∃ route ∈ rs, ∃ m, .error f ∈ c.routeSteps q m route := by
  induction h generalizing n left N with
  | nil =>
    refine Or.inl ⟨left, n, rfl, ?_, by simp⟩
    simpa using hleft
  | @cons route part rs parts hroute _ ih =>
    obtain ⟨relationships, hcovers⟩ := hroute
    have hpart : ∀ v ∈ part, ¬Reserved v := fun v hv =>
      hnames v (List.mem_flatten.mpr ⟨part, List.mem_cons_self, hv⟩)
    rw [joinRoutes]
    rcases planRoute_outcome db (c := c) (q := q) (n := n) hcovers hpart with
      ⟨right, hright, hholds, hclean⟩ | ⟨f, hf, hmem⟩
    · have hfree : ∀ v ∈ N ∪ {v | v ∈ part}, ¬Reserved v := by
        rintro v (hv | hv)
        · exact hN v hv
        · exact hpart v hv
      obtain ⟨joined, hjoin, hjoined⟩ := exists_join db (Nat.le_add_right _ _) hfree hleft hholds
      simp only [hright, hjoin, bind, Except.bind]
      have hrest : ∀ v ∈ parts.flatten, ¬Reserved v := fun v hv =>
        hnames v (List.mem_append_right _ hv)
      rcases ih hrest hfree hjoined with
        ⟨e, k, he, hh, hall⟩ | ⟨f, hf, other, hother, hmem⟩
      · refine Or.inl ⟨e, k, he, ?_, ?_⟩
        · rw [Set.union_assoc, union_mem_flatten] at hh
          exact hh
        · intro other hother
          rcases List.mem_cons.mp hother with rfl | hother
          · exact ⟨n, hclean⟩
          · exact hall other hother
      · exact Or.inr ⟨f, hf, other, List.mem_cons_of_mem _ hother, hmem⟩
    · refine Or.inr ⟨f, ?_, route, List.mem_cons_self, n, hmem⟩
      simp only [hf, bind, Except.bind]

/-- A query is planned along its routes and binds its node variables, or else a step of a route is
no operator. -/
theorem planQuery_along {rs : List Route} {parts : List (List String)}
    (hroutes : (routes q.pattern : Except (Failure α) _) = .ok rs)
    (hcover : Cover q.pattern rs parts)
    (hne : q.pattern.nodes ≠ []) (hfree : ∀ v ∈ q.pattern.names, ¬Reserved v) :
    (∃ e k, planQuery c db q = .ok e ∧ Holds {v | v ∈ q.pattern.names} k e.profile ∧
        ∀ route ∈ rs, ∃ m, ∀ f, .error f ∉ c.routeSteps q m route) ∨
      ∃ f, planQuery c db q = .error f ∧
        ∃ route ∈ rs, ∃ m, .error f ∈ c.routeSteps q m route := by
  have hnodes : q.pattern.nodes.isEmpty = false := by simpa using hne
  have hnames : ∀ v ∈ parts.flatten, ¬Reserved v := fun v hv =>
    hfree v (hcover.names.mem_iff.mp hv)
  have hall : {v | v ∈ parts.flatten} = {v | v ∈ q.pattern.names} := by
    ext v
    exact hcover.names.mem_iff
  simp only [planQuery, hnodes, hroutes, Bool.false_eq_true, ↓reduceIte, bind, Except.bind, ← hall]
  have hcovers := hcover.covers
  cases hcovers with
  | nil =>
    have hnil : q.pattern.names = [] := List.nil_perm.mp hcover.names
    exact absurd (List.map_eq_nil_iff.mp hnil) hne
  | @cons route part rs parts hroute hrest =>
    have hpart : ∀ v ∈ part, ¬Reserved v := fun v hv => hnames v (List.mem_append_left _ hv)
    have hmore : List.Forall₂ (fun route part => ∃ relationships,
        Route.Covers route part relationships) rs parts :=
      hrest.imp (fun route part h => ⟨Route.among q.pattern part, h⟩)
    rcases planRoute_outcome db (c := c) (q := q) (n := 0) hroute hpart with
      ⟨first, hfirst, hholds, hclean⟩ | ⟨f, hf, hmem⟩
    · rw [Nat.zero_add] at hholds
      rcases joinRoutes_outcome db (c := c) (q := q) hmore
        (fun v hv => hnames v (List.mem_append_right _ hv)) hpart hholds with
        ⟨e, k, he, hh, hrs⟩ | ⟨f, hf, other, hother, m, hmem⟩
      · refine Or.inl ⟨e, k, by simp only [hfirst, he], union_mem_flatten part parts ▸ hh, ?_⟩
        intro other hother
        rcases List.mem_cons.mp hother with rfl | hother
        · exact ⟨0, hclean⟩
        · exact hrs other hother
      · exact Or.inr ⟨f, by simp only [hfirst, hf], other, List.mem_cons_of_mem _ hother, m, hmem⟩
    · exact Or.inr ⟨f, by simp only [hf], route, List.mem_cons_self, 0, hmem⟩

/-- A proper query is planned if it uses known names only. -/
theorem planQuery_outcome (hq : q.Proper) :
    (∃ e, planQuery c db q = .ok e ∧ ∀ f, ¬q.Unknown c.store f) ∨
      ∃ f, planQuery c db q = .error f ∧ q.Unknown c.store f := by
  obtain ⟨rs, parts, hroutes, hcover⟩ := routes_cover (α := α) hq.pattern
  rcases planQuery_along db (c := c) hroutes hcover hq.nodes hq.free with
    ⟨e, -, he, -, hclean⟩ | ⟨f, hf, route, hroute, m, hmem⟩
  · refine Or.inl ⟨e, he, fun f hf => ?_⟩
    obtain ⟨route, hroute, hsome⟩ := exists_error_of_unknown hq hcover hf
    obtain ⟨m, hm⟩ := hclean route hroute
    obtain ⟨f', hf'⟩ := hsome m
    exact hm f' hf'
  · have htakes : ∀ r ∈ route.crossings.map Crossing.relationship ++ route.closing,
        r ∈ q.pattern.relationships := fun r hr =>
      (hcover.takes hq.pattern).mem_iff.mp (List.mem_flatMap.mpr ⟨route, hroute, hr⟩)
    exact Or.inr ⟨f, hf, error_mem_routeSteps htakes hmem⟩

/-- A pattern without labels and types uses no names that could be unknown. -/
theorem exists_planQuery_of_plain {p : Pattern} (hbuilt : p.Built) (hne : p.nodes ≠ [])
    (hlabels : ∀ n ∈ p.nodes, n.labels.toList = [])
    (htypes : ∀ r ∈ p.relationships, r.type = none) :
    ∃ e, planQuery c db (Query.ofPattern p) = .ok e := by
  rcases planQuery_outcome db (c := c) (Query.proper_ofPattern hbuilt hne) with
    ⟨e, he, -⟩ | ⟨f, -, hunknown⟩
  · exact ⟨e, he⟩
  · exfalso
    cases hunknown with
    | @label n name hn hname =>
      rw [OrderedSet.mem_toList, hlabels n hn] at hname
      cases hname
    | @type r name hr htype =>
      rw [htypes r hr] at htype
      cases htype
    | nodeProperty table => cases table
    | relationshipProperty table => cases table

/-- What a planned query is like: its pattern has node variables and is divided into components. -/
theorem routes_of_planQuery {e : Expression α} (h : planQuery c db q = .ok e) :
    q.pattern.nodes ≠ [] ∧ ∃ route rs first,
      (routes q.pattern : Except (Failure α) _) = .ok (route :: rs) ∧
      planRoute c db q 0 route = .ok first ∧
      joinRoutes c db q route.freshCount first rs = .ok e := by
  rw [planQuery] at h
  split at h
  · cases h
  · next hnodes =>
    obtain ⟨found, hfound, h⟩ := Outcome.bind_eq_ok.mp h
    refine ⟨by simpa using hnodes, ?_⟩
    split at h
    · cases h
    · next route rs =>
      obtain ⟨first, hfirst, h⟩ := Outcome.bind_eq_ok.mp h
      exact ⟨route, rs, first, hfound, hfirst, h⟩

theorem proper_of_planQuery (hdistinct : q.pattern.names.Nodup) {e : Expression α}
    (h : planQuery c db q = .ok e) :
    q.pattern.Proper := by
  obtain ⟨-, route, rs, first, hroutes, -, -⟩ := routes_of_planQuery db h
  have hends := ends_of_routes hroutes
  exact ⟨hdistinct, fun r hr => (hends r hr).1, fun r hr => (hends r hr).2⟩

end Plans

/-- Planning a well-formed query fails exactly if the query uses a name that the statistics do not
know, and the failure reports such a name. -/
theorem planQuery_fails_iff_unknown {q : Query Float} (hq : q.WellFormed) (c : Planner Float)
    (db : Database Float) :
    ((∃ f, planQuery c db q = .error f) ↔ ∃ f, q.Unknown c.store f) ∧
      ∀ f, planQuery c db q = .error f → q.Unknown c.store f := by
  rcases planQuery_outcome db (c := c) hq.proper with ⟨e, he, hknown⟩ | ⟨f, hf, hunknown⟩
  · have hnot : ∀ f, planQuery c db q ≠ .error f := by
      intro f hf
      rw [he] at hf
      cases hf
    refine ⟨iff_of_false ?_ ?_, fun f hf => absurd hf (hnot f)⟩
    · rintro ⟨f, hf⟩
      exact hnot f hf
    · rintro ⟨f, hf⟩
      exact hknown f hf
  · refine ⟨iff_of_true ⟨f, hf⟩ ⟨f, hunknown⟩, fun f' hf' => ?_⟩
    rw [hf] at hf'
    cases hf'
    exact hunknown

/-- A loop apart from a labelled variable has no plan where the statistics know no name. -/
theorem planQuery_fails_without_names :
    ∃ f, planQuery ⟨Store.empty 0, .mergeOn, none⟩
      ⟨⟨Store.empty 0, false⟩, Labels.Distribution.single []⟩
      (Query.ofPattern ((Pattern.empty.addRelationship "a" (some "KNOWS") .both "a").addNode "b"
        ["Person"]) : Query Float) = .error f := by
  have ha : ¬Reserved "a" := by decide
  have hb : ¬Reserved "b" := by decide
  have hbuilt := (Pattern.Built.empty.relationship (some "KNOWS") .both ha ha).node ["Person"] hb
  refine (planQuery_fails_iff_unknown (.ofPattern hbuilt ?_) _ _).1.mpr
    ⟨.unknownType "KNOWS", .type (r := ⟨"a", "a", some "KNOWS", false⟩) ?_ rfl rfl⟩
  · decide
  · decide

end Plan

end PatternCardinality
