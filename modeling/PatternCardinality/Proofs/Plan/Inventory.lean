import PatternCardinality.Proofs.Plan.Account
import PatternCardinality.Proofs.Plan.Joined

/-!
# What a plan is made of

What a query demands of a plan is listed apart from the plan: where routes start, which
relationships are followed and which of them close a cycle, the labels of the node variables and
the predicates. An operator meets a demand with the identifiers that the store has for its names.
The operators of a plan, in any order, meet the demands one by one.
-/

namespace PatternCardinality

open Estimate Statistics

namespace Estimate

variable {α : Type}

/-- The leaves of the expression are its scans. -/
inductive Expression.ScanLeaves : Expression α → Prop
  | node {op children p} (here : children = [] ↔ ∃ v, op = .scan v)
      (below : ∀ child ∈ children, ScanLeaves child) : ScanLeaves (.node op children p)

theorem Expression.Built.scanLeaves [Scalar α] [NumberHash α] {db : Database α}
    {e : Expression α} (h : e.Built db) : e.ScanLeaves := by
  induction h with
  | @make op children e before made ih =>
    obtain ⟨p, hp, rfl⟩ := make_eq_ok.mp made
    refine .node ?_ ih
    have harity := compute_arity hp
    rw [List.length_map] at harity
    rw [← List.length_eq_zero_iff, harity]
    cases op <;> simp [Operator.arity]

end Estimate

namespace Plan

variable {α : Type}

/-- What a plan has an operator for: a route starts, two routes are joined, a leg is followed, the
end of a leg is identified with that of its relationship, a variable has a label, the values of a
variable satisfy predicates. -/
inductive Demand (α : Type) where
  | start (v : String)
  | join
  | follow (l : Leg)
  | identify (l : Leg)
  | label (v name : String)
  | restrict (v : String) (predicates : Predicates α)

/-- The predicates of an owner, if it has any, demanded of a variable. -/
def restrictions (table : OrderedMap String (Predicates α)) (owner v : String) :
    List (Demand α) :=
  match table.get? owner with
  | none => []
  | some predicates => if predicates.entries.isEmpty then [] else [.restrict v predicates]

/-- All that a query demands of a plan with these routes. The predicates of a relationship are kept
under its name, and demanded of the variable that its leg adds. -/
def demands (q : Query α) (starts : List String) (tree closing : List Leg) : List (Demand α) :=
  starts.map .start ++ List.replicate (starts.length - 1) .join ++
    (tree ++ closing).map .follow ++ closing.map .identify ++
    q.pattern.nodes.flatMap (fun n => n.labels.toList.map (.label n.name)) ++
    q.pattern.nodes.flatMap (fun n => restrictions q.nodePredicates n.name n.name) ++
    (tree ++ closing).flatMap
      (fun l => restrictions q.relationshipPredicates l.relationship.name l.name)

/-- The types of a relationship: that with its name, or the wildcard `-1` if it has none. -/
inductive HasTypes (s : Store α) (r : Relationship) (types : TypeSet) : Prop
  | any (untyped : r.type = none) (members : ∀ t, t ∈ types ↔ t = -1)
  | named {name id} (typed : r.type = some name) (known : s.typeIds.get? name = some id)
      (members : ∀ t, t ∈ types ↔ t = id)

/-- Predicates under the identifiers of their properties: of several under one identifier, that of
the last name. -/
structure Resolved (s : Store α) (predicates : Predicates α) (byId : PropertyPredicates α) :
    Prop where
  known : ∀ name, predicates.contains name = true → ∃ id, s.propertyIds.get? name = some id
  last : ∀ id, byId.get? id =
    ((predicates.entries.filter (fun e => s.propertyIds.get? e.1 = some id)).getLast?).map Prod.snd

/-- An operator that meets a demand. Identifiers are those of the store, cycles are closed by the
strategy of the planner, and predicates count with its fixed selectivity. -/
inductive Meets (c : Planner α) : Demand α → Operator α → Prop
  | scan {v} : Meets c (.start v) (.scan v)
  | join : Meets c .join .join
  | expand {l types} (h : HasTypes c.store l.relationship types) :
      Meets c (.follow l) (.expand l.base l.direction l.name types l.target)
  | mergeOn {l} (h : c.strategy = .mergeOn) :
      Meets c (.identify l) (.mergeOn l.relationship.target l.target)
  | selfJoin {l} (h : c.strategy = .selfJoin) :
      Meets c (.identify l) (.selfJoin l.relationship.target l.target)
  | selectLabel {v name id} (h : c.store.labelIds.get? name = some id) :
      Meets c (.label v name) (.selectLabel v id)
  | selectProperties {v predicates byId} (h : Resolved c.store predicates byId) :
      Meets c (.restrict v predicates) (.selectProperties v byId c.fixed)

/-- A plan meets every demand of its query once. Its scans and the legs of `tree` meet each node
variable once, all legs take each relationship once, and those of `closing` lead from the source of
a relationship to a new variable. Its result binds the node variables of the pattern and a name for
each relationship. -/
structure Inventory (c : Planner α) (q : Query α) (e : Expression α) (starts : List String)
    (tree closing : List Leg) : Prop where
  operators : ∃ operators, e.operators.Perm operators ∧
    List.Forall₂ (Meets c) (demands q starts tree closing) operators
  leaves : e.ScanLeaves
  components : starts.length = q.pattern.componentCount
  cycles : closing.length + q.pattern.nodes.length =
    q.pattern.relationships.length + q.pattern.componentCount
  visits : (starts ++ tree.map Leg.target).Perm q.pattern.names
  takes : ((tree ++ closing).map Leg.relationship).Perm q.pattern.relationships
  across : ∀ l ∈ tree, l.target = l.far
  fromSource : ∀ l ∈ closing, l.fromSource = true
  names : ((tree ++ closing).map Leg.name).Nodup
  temporaries : (closing.map Leg.target).Nodup ∧
    ∀ l ∈ closing, ∃ k : ℕ, l.target = "$v" ++ toString k
  unbound : ∀ l ∈ closing, l.target ∉ q.pattern.names
  nodes : ∀ v, e.profile.isNode v = true ↔ v ∈ q.pattern.names
  relationships : ∀ v, e.profile.isRelationship v = true ↔ v ∈ (tree ++ closing).map Leg.name

section Steps

variable {c : Planner α} {q : Query α} {starts : List String} {tree closing : List Leg}

/-- The step by which a plan meets a demand. -/
def Planner.demandStep (c : Planner α) : Demand α → Step α
  | .start v => scanStep α v
  | .join => joinStep α
  | .follow l => c.expandStep l
  | .identify l => c.identifyStep l
  | .label v name => c.labelStep v name
  | .restrict v predicates =>
    (c.propertyPredicates predicates).map (fun p => .selectProperties v p c.fixed)

theorem hasTypes_of_types {r : Relationship} {types : TypeSet} (h : c.types r = .ok types) :
    HasTypes c.store r types := by
  rw [Planner.types] at h
  split at h
  · next htype =>
    cases h
    exact .any htype (fun _ => OrderedSet.mem_singleton)
  · next name htype =>
    split at h
    · next id hid =>
      cases h
      exact .named htype hid (fun _ => OrderedSet.mem_singleton)
    · cases h

/-- Entries under identifiers keep their values and their order. -/
theorem map_filter_identifiers {s : Store α} {l : List (String × Predicate α)}
    {m : List (PropertyId × Predicate α)}
    (h : List.Forall₂ (fun e e' => s.propertyIds.get? e.1 = some e'.1 ∧ e'.2 = e.2) l m)
    (id : PropertyId) : (m.filter (fun e => e.1 = id)).map Prod.snd =
      (l.filter (fun e => s.propertyIds.get? e.1 = some id)).map Prod.snd := by
  induction h with
  | nil => rfl
  | @cons e e' _ _ hentry _ ih =>
    obtain ⟨hkey, hvalue⟩ := hentry
    by_cases hid : e'.1 = id
    · simp [hkey, hid, hvalue, ih]
    · simp [hkey, hid, ih]

theorem resolved_of_propertyPredicates {predicates : Predicates α} {byId : PropertyPredicates α}
    (h : c.propertyPredicates predicates = .ok byId) : Resolved c.store predicates byId := by
  refine ⟨fun name hname => ?_, fun id => ?_⟩
  · exact Option.ne_none_iff_exists'.mp (known_of_propertyPredicates h hname)
  · obtain ⟨entries, hentries, h⟩ := Outcome.bind_eq_ok.mp h
    cases h
    have hsame : List.Forall₂ (fun e e' => c.store.propertyIds.get? e.1 = some e'.1 ∧ e'.2 = e.2)
        predicates.entries entries := by
      refine (Outcome.mapM_eq_ok.mp hentries).imp (fun e e' hstep => ?_)
      split at hstep
      · next hkey =>
        cases hstep
        exact ⟨hkey, rfl⟩
      · cases hstep
    rw [OrderedMap.get?_ofList, ← List.getLast?_map, ← List.getLast?_map,
      map_filter_identifiers hsame]

/-- A step that can be taken for a demand meets it. -/
theorem meets_of_demandStep {d : Demand α} {op : Operator α} (h : c.demandStep d = .ok op) :
    Meets c d op := by
  cases d with
  | start v =>
    cases h
    exact .scan
  | join =>
    cases h
    exact .join
  | follow l =>
    obtain ⟨types, htypes, rfl⟩ := Outcome.map_eq_ok.mp h
    exact .expand (hasTypes_of_types htypes)
  | identify l =>
    cases h
    rw [Planner.identify]
    split
    · next hstrategy => exact .mergeOn hstrategy
    · next hstrategy => exact .selfJoin hstrategy
  | label v name =>
    simp only [Planner.demandStep, Planner.labelStep] at h
    split at h
    · next id hid =>
      cases h
      exact .selectLabel hid
    · cases h
  | restrict v predicates =>
    obtain ⟨byId, hbyId, rfl⟩ := Outcome.map_eq_ok.mp h
    exact .selectProperties (resolved_of_propertyPredicates hbyId)

theorem map_restrictions (c : Planner α) (table : OrderedMap String (Predicates α))
    (owner v : String) : (restrictions table owner v).map c.demandStep =
      c.propertySteps v (Query.predicates? table owner) := by
  rw [restrictions, Query.predicates?]
  cases table.get? owner with
  | none => rfl
  | some predicates =>
    cases hempty : predicates.entries.isEmpty <;>
      simp [hempty, Option.filter, OrderedMap.isEmpty, Planner.propertySteps, Planner.demandStep]

/-- The steps at all variables are their labels and their predicates. -/
theorem nodeSteps_perm (hp : q.pattern.Proper) {visited : List String}
    (h : visited.Perm q.pattern.names) :
    (visited.flatMap (c.nodeSteps q)).Perm
      (q.pattern.nodes.flatMap (fun n => n.labels.toList.map (c.labelStep n.name)) ++
        q.pattern.nodes.flatMap (fun n => c.propertySteps n.name (q.nodePredicates? n.name))) := by
  have hnode : ∀ n ∈ q.pattern.nodes, c.nodeSteps q n.name =
      n.labels.toList.map (c.labelStep n.name) ++
        c.propertySteps n.name (q.nodePredicates? n.name) := by
    intro n hn
    rw [Planner.nodeSteps, labels?_of_mem hp.distinct hn]
    rfl
  have hnames : q.pattern.names.flatMap (c.nodeSteps q) =
      q.pattern.nodes.flatMap (fun n => n.labels.toList.map (c.labelStep n.name) ++
        c.propertySteps n.name (q.nodePredicates? n.name)) := by
    rw [Pattern.names, List.flatMap_map]
    exact List.flatMap_congr hnode
  refine (h.flatMap_right _).trans ?_
  rw [hnames]
  exact (List.flatMap_append_perm _ _ _).symm

/-- The steps that meet all demands, by what they are for. -/
theorem map_demands (c : Planner α) (q : Query α) (starts : List String)
    (tree closing : List Leg) : (demands q starts tree closing).map c.demandStep =
      starts.map (scanStep α) ++ List.replicate (starts.length - 1) (joinStep α) ++
        (tree ++ closing).map c.expandStep ++ closing.map c.identifyStep ++
        q.pattern.nodes.flatMap (fun n => n.labels.toList.map (c.labelStep n.name)) ++
        q.pattern.nodes.flatMap (fun n => c.propertySteps n.name (q.nodePredicates? n.name)) ++
        (tree ++ closing).flatMap (c.selectionSteps q) := by
  simp only [demands, List.map_append, List.map_map, List.map_replicate, List.map_flatMap,
    map_restrictions]
  rfl

/-- With the scans and the joins, the steps of an account are those that meet the demands. -/
theorem Account.perm_demands {n m : Nat} {steps : List (Step α)}
    (h : Account c q n m starts tree closing steps) (hp : q.pattern.Proper)
    (hvisits : (starts ++ tree.map Leg.target).Perm q.pattern.names) :
    (↑(starts.map (scanStep α)) + Multiset.replicate (starts.length - 1) (joinStep α) +
      ↑steps : Multiset (Step α)) = ↑((demands q starts tree closing).map c.demandStep) := by
  rw [h.steps, Multiset.coe_eq_coe.mpr (nodeSteps_perm hp hvisits), map_demands]
  simp only [← Multiset.coe_add, ← Multiset.coe_replicate]
  abel

end Steps

variable [Scalar α] [NumberHash α] {db : Database α} {c : Planner α} {q : Query α}

/-- A plan of a query over distinct free names meets every demand once: the routes meet all
variables and take all relationships, and what was taken is what the operators are. -/
theorem planQuery_inventory (hp : q.pattern.Proper) (hfree : ∀ v ∈ q.pattern.names, ¬Reserved v)
    {e : Expression α} (h : planQuery c db q = .ok e) :
    ∃ starts tree closing, Inventory c q e starts tree closing := by
  obtain ⟨m, starts, tree, closing, steps, haccount, hlength, hvisits, htakes, htaken⟩ :=
    account_planQuery hp h
  have hsteps : (e.operators.map Except.ok).Perm
      ((demands q starts tree closing).map c.demandStep) :=
    Multiset.coe_eq_coe.mp (htaken.trans (haccount.perm_demands hp hvisits))
  obtain ⟨operators, hperm, hmet⟩ := Outcome.exists_perm_forall₂ hsteps
  obtain ⟨k, R, hb, -⟩ := holds_of_planQuery hp.distinct hfree h
  refine ⟨starts, tree, closing, ⟨operators, hperm, hmet.imp (fun _ _ => meets_of_demandStep)⟩,
    (built_planQuery h).scanLeaves, hlength, ?_, hvisits, htakes, haccount.across, ?_,
    haccount.names_nodup, ⟨haccount.temporaries_nodup, ?_⟩, ?_, hb.isNode_iff,
    haccount.isRelationship_iff (built_planQuery h) htaken⟩
  · have hnodes := hvisits.length_eq
    have hrelationships := htakes.length_eq
    simp only [List.length_append, List.length_map, Pattern.names] at hnodes hrelationships
    omega
  · intro l hl
    exact (haccount.apart l hl).1
  · intro l hl
    obtain ⟨-, k, -, -, hk⟩ := haccount.apart l hl
    exact ⟨k, hk⟩
  · intro l hl hmem
    obtain ⟨-, k, -, -, hk⟩ := haccount.apart l hl
    exact hfree _ hmem (hk ▸ temporaryName_reserved k)

/-- Statistics that know a label, a type and two properties. -/
def register : Store Float :=
  Store.build 10 [.label "Person" 4 6, .type "KNOWS" 2 ⟨3, 3, 4, 8⟩, .property "age" 1,
    .property "since" 5]

/-- Two relationships between the same variables, one with a type and a predicate, and a loop at a
third variable. -/
def circles : Query Float where
  pattern := (((Pattern.empty.addRelationship "a" (some "KNOWS") .outgoing "b").addRelationship "b"
    none .both "a").addRelationship "c" (some "KNOWS") .incoming "c").addNode "a" ["Person"]
  nodePredicates := .singleton "b" (.singleton "age" (.range (.number 18) .highest))
  relationshipPredicates := .singleton "a_b" (.singleton "since" (.text "2001"))

theorem circles_proper : circles.Proper := by
  have ha : ¬Reserved "a" := by decide
  have hb : ¬Reserved "b" := by decide
  have hc : ¬Reserved "c" := by decide
  have hbuilt : circles.pattern.Built :=
    (((Pattern.Built.empty.relationship (some "KNOWS") .outgoing ha hb).relationship none .both hb
      ha).relationship (some "KNOWS") .incoming hc hc).node ["Person"] ha
  refine ⟨hbuilt.proper, by decide, hbuilt.not_reserved, ?_, ?_⟩
  · intro owner howner
    obtain rfl := OrderedMap.contains_singleton.mp howner
    decide
  · intro owner howner
    obtain rfl := OrderedMap.contains_singleton.mp howner
    decide

theorem circles_known (f : Failure Float) : ¬circles.Unknown register f := by
  intro h
  cases h with
  | @label n name hn hname hunknown =>
    have hlabels : ∀ n ∈ circles.pattern.nodes, ∀ name ∈ n.labels.toList,
        register.labelId? name ≠ none := by decide
    exact hlabels n hn name hname hunknown
  | @type r name hr htype hunknown =>
    have htypes : ∀ r ∈ circles.pattern.relationships, ∀ name ∈ r.type.toList,
        register.typeId? name ≠ none := by decide
    exact htypes r hr name (by simp [htype]) hunknown
  | nodeProperty table used hunknown =>
    obtain ⟨-, rfl⟩ := OrderedMap.eq_of_get?_singleton table
    obtain rfl := OrderedMap.contains_singleton.mp used
    exact absurd hunknown (by decide)
  | relationshipProperty table used hunknown =>
    obtain ⟨-, rfl⟩ := OrderedMap.eq_of_get?_singleton table
    obtain rfl := OrderedMap.contains_singleton.mp used
    exact absurd hunknown (by decide)

theorem planQuery_inventory_of_circles :
    ∃ (e : Expression Float) (starts : List String) (tree closing : List Leg),
      planQuery ⟨register, .mergeOn, none⟩
          ⟨⟨register, false⟩, Labels.Distribution.single []⟩ circles = .ok e ∧
        Inventory ⟨register, .mergeOn, none⟩ circles e starts tree closing := by
  rcases planQuery_outcome ⟨⟨register, false⟩, Labels.Distribution.single []⟩
    (c := ⟨register, .mergeOn, none⟩) circles_proper with ⟨e, he, -⟩ | ⟨f, -, hunknown⟩
  · obtain ⟨starts, tree, closing, h⟩ :=
      planQuery_inventory circles_proper.pattern circles_proper.free he
    exact ⟨e, starts, tree, closing, he, h⟩
  · exact absurd hunknown (circles_known f)

end Plan

end PatternCardinality
