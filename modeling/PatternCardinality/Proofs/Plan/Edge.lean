import PatternCardinality.Estimator
import PatternCardinality.Proofs.Estimate.Certain
import PatternCardinality.Proofs.Plan.Totality

/-!
# Patterns of one relationship

A pattern of one relationship is estimated exactly, from either end: selecting a label at the end
where the plan begins makes that label certain, so that it receives all mass, and the shares at the
other end are the exact ones.
-/

namespace PatternCardinality

open Estimate Labels Plan Statistics

namespace Pattern

/-- A relationship between two node variables, each with some labels. -/
def ofEdge (a : String) (labels : List String) (type : String) (direction : Direction) (b : String)
    (targetLabels : List String) : Pattern :=
  ((Pattern.empty.addNode a labels).addNode b targetLabels).addRelationship a (some type)
    direction b

variable {a b type : String} {labels targetLabels : List String} {direction : Direction}

theorem ofEdge_eq (hab : a ≠ b) : ofEdge a labels type direction b targetLabels =
    ⟨[⟨a, OrderedSet.ofList labels⟩, ⟨b, OrderedSet.ofList targetLabels⟩],
      [step a (some type) direction b]⟩ := by
  have hunion : ∀ s : OrderedSet String, s.union (OrderedSet.ofList []) = s := fun _ => rfl
  simp [ofEdge, addRelationship, addNode, withNode, empty, hab, hunion]

example : (Pattern.parse "(a:Person)-[:KNOWS]->(b:City)" : Except (Failure ℚ) Pattern) =
    .ok (ofEdge "a" ["Person"] "KNOWS" .outgoing "b" ["City"]) := by rfl

end Pattern

namespace Plan

variable {a b type : String} {labels targetLabels : List String} {direction : Direction}

/-- The route of an edge crosses it. -/
theorem routes_ofEdge {α : Type} (hab : a ≠ b) :
    (routes (Pattern.ofEdge a labels type direction b targetLabels) : Except (Failure α) _) =
      .ok [⟨a, [⟨Pattern.step a (some type) direction b, a, direction, b⟩], []⟩] := by
  have hba : b ≠ a := hab.symm
  have hcomponents : Pattern.components (α := α)
      (Pattern.ofEdge a labels type direction b targetLabels) = .ok [[0, 1]] := by
    rw [Pattern.ofEdge_eq hab]
    cases direction <;>
      simp [Pattern.components, Pattern.edge, Pattern.endpoint, Pattern.position?, Pattern.step,
        List.findIdx?_cons, hab, bind, Except.bind, pure, Except.pure] <;> rfl
  have hthrough : Route.through (Pattern.ofEdge a labels type direction b targetLabels) a [b] =
      ⟨a, [⟨Pattern.step a (some type) direction b, a, direction, b⟩], []⟩ := by
    rw [Pattern.ofEdge_eq hab]
    cases direction <;>
      simp [Route.through, Route.busiest, Route.incidence, Route.breadthFirst, Route.touching,
        Route.apart, Route.serve, Relationship.touches, Pattern.step, Crossing.of, hab, hba,
        OrderedSet.mem_singleton]
  simp only [routes, hcomponents, bind, Except.bind, pure, Except.pure]
  rw [← hthrough]
  rw [Pattern.ofEdge_eq hab]
  rfl

/-- The labels that an end of an edge requires: none, or one, for which its identifier stands. -/
inductive Requires (db : Database ℚ) : List String → LabelId → Prop
  | nothing : Requires db [] anyLabel
  | label {name l} (known : db.view.store.labelId? name = some l) (distinct : db.Distinct l) :
      Requires db [name] l

section Estimate

variable {db : Database ℚ} {c : Planner ℚ} {q : Query ℚ} {A B : LabelId} {T : TypeId}

/-- What a node variable of an edge is narrowed to. -/
theorem nodeSteps_of_requires {v : String} {l : LabelId} (hc : c.store = db.view.store)
    (h : Requires db labels l) (hv : q.pattern.labels? v = some (OrderedSet.ofList labels))
    (hq : q.nodePredicates = ∅) :
    c.nodeSteps q v = labels.map (fun _ => .ok (.selectLabel v l)) := by
  have hpredicates : q.nodePredicates? v = none := by
    rw [Query.nodePredicates?, hq]
    rfl
  rw [Planner.nodeSteps, hv, hpredicates]
  cases h with
  | nothing => rfl
  | @label name l known distinct =>
    have hstep : c.labelStep v name = .ok (.selectLabel v l) := by
      rw [Planner.labelStep, hc, known]
    change [c.labelStep v name] ++ [] = _
    rw [hstep]
    rfl

/-- The steps of an edge: the labels of its base, the step along it, the labels of its target. -/
theorem routeSteps_ofEdge (hc : c.store = db.view.store) (hab : a ≠ b)
    (ha : Requires db labels A) (hb : Requires db targetLabels B)
    (hT : db.view.store.typeId? type = some T) :
    c.routeSteps (Query.ofPattern (Pattern.ofEdge a labels type direction b targetLabels)) 0
        ⟨a, [⟨Pattern.step a (some type) direction b, a, direction, b⟩], []⟩ =
      labels.map (fun _ => .ok (.selectLabel a A)) ++
        (.ok (.expand a direction (relationshipName 0) (OrderedSet.singleton T) b) ::
          targetLabels.map (fun _ => .ok (.selectLabel b B))) := by
  set q : Query ℚ := Query.ofPattern (Pattern.ofEdge a labels type direction b targetLabels) with hq
  have hnodes : q.nodePredicates = ∅ := rfl
  have hlabels : q.pattern.labels? a = some (OrderedSet.ofList labels) := by
    simp [hq, Query.ofPattern, Pattern.ofEdge_eq hab, Pattern.labels?]
  have htarget : q.pattern.labels? b = some (OrderedSet.ofList targetLabels) := by
    simp [hq, Query.ofPattern, Pattern.ofEdge_eq hab, Pattern.labels?, hab]
  have htype : (Pattern.step a (some type) direction b).type = some type := by
    cases direction <;> rfl
  have htypes : c.types (Pattern.step a (some type) direction b) =
      .ok (OrderedSet.singleton T) := by
    simp only [Planner.types, htype, hc, hT]
  have hexpand : c.expandSteps q (Pattern.step a (some type) direction b) a direction
      (relationshipName 0) b =
        [.ok (.expand a direction (relationshipName 0) (OrderedSet.singleton T) b)] := by
    rw [Planner.expandSteps, htypes]
    rfl
  simp only [Planner.routeSteps, Planner.numbered, Planner.crossingSteps, hexpand,
    nodeSteps_of_requires hc ha hlabels hnodes, nodeSteps_of_requires hc hb htarget hnodes,
    List.append_nil, List.singleton_append]

variable [NumberHash ℚ]

/-- A step from a variable to any other is exact. -/
def Begun (db : Database ℚ) (l : LabelId) (a : String) (p : Profile ℚ) : Prop :=
  ∀ (t : Traversal ℚ) (target : String) (shares : LabelShares ℚ), t.db = db → target ≠ a →
    p.nodes.get? a = some shares → Exact db t.types t.direction l (reached t target shares p)

theorem begun_of_follow (hstore : db.view.store.Dominated) (hnested : db.Nested)
    (h : Requires db labels A) {scan e : Expression ℚ}
    (hscan : Expression.leaf db (.scan a) = .ok scan)
    (he : follow db scan (labels.map (fun _ => .ok (.selectLabel a A))) = .ok e) :
    Begun db A a e.profile := by
  obtain ⟨p, hp, rfl⟩ := make_eq_ok.mp hscan
  have hp := scan_eq_ok hp
  cases h with
  | nothing =>
    cases he
    subst hp
    intro t target shares ht _ _
    subst ht
    exact fromAllNodes_exact hstore t.types t.direction shares
  | @label name l known distinct =>
    rw [List.map_cons, List.map_nil, follow_ok] at he
    obtain ⟨e', happly, he⟩ := Outcome.bind_eq_ok.mp he
    cases he
    obtain ⟨p', hp', rfl⟩ := apply_eq_ok.mp happly
    obtain ⟨shares, hshares, hp'⟩ := selectLabel_eq_ok hp'
    have hscanned : shares = scanned db := by
      subst hp
      simpa [Expression.profile, OrderedMap.get?_singleton, eq_comm] using hshares
    subst hscanned
    have hcounts := Database.bounded_of_dominated hstore
    have hshare : LabelShares.of (scanned db) A = db.nodes A / db.total :=
      scanned_of hcounts distinct distinct.known
    have htotal := total_pos hcounts distinct
    have hkept : ¬LabelShares.of (scanned db) A ≤ 0 := by
      rw [hshare, not_le]
      exact div_pos distinct.positive htotal
    rw [if_neg hkept] at hp'
    subst hp hp'
    intro t target shares ht htarget hget
    subst ht
    have hnarrowed : shares = narrowed t.db (scanned t.db) A := by
      simpa [Expression.profile, OrderedMap.get?_insert, eq_comm] using hget
    subst hnarrowed
    have hsize : t.db.total * LabelShares.of (scanned t.db) A = t.db.nodes A := by
      rw [hshare]
      exact mul_div_cancel₀ _ htotal.ne'
    have hfree : ((OrderedMap.singleton a (scanned t.db)).insert a
        (narrowed t.db (scanned t.db) A)).get? target = none := by
      simp [OrderedMap.get?_insert, OrderedMap.get?_singleton, htarget]
    simp only [reached, Expression.profile, Bool.false_eq_true, ↓reduceIte, hsize, hfree]
    exact fromResult_exact hstore t.types t.direction hnested distinct

/-- The end of an edge keeps the matches that lead to its label. -/
theorem size_of_follow (hstore : db.view.store.Dominated) {types : TypeSet}
    (h : Requires db labels B) {e e' : Expression ℚ} {r : Traversal.Reached ℚ}
    (hexact : Exact db types direction A r) (hsize : e.profile.size = r.size)
    (hshares : e.profile.nodes.get? b = some r.target)
    (he : follow db e (labels.map (fun _ => .ok (.selectLabel b B))) = .ok e') :
    e'.size = db.relationships A types B direction := by
  cases h with
  | nothing =>
    cases he
    exact hsize.trans hexact.size
  | @label name l known distinct =>
    rw [List.map_cons, List.map_nil, follow_ok] at he
    obtain ⟨e'', happly, he⟩ := Outcome.bind_eq_ok.mp he
    cases he
    obtain ⟨p', hp', rfl⟩ := apply_eq_ok.mp happly
    obtain ⟨shares, hget, rfl⟩ := selectLabel_eq_ok hp'
    rw [hshares, Option.some_inj] at hget
    subst hget
    have hmatches := hexact.target B distinct.known
    by_cases hkept : r.target.of B ≤ 0
    · have hle : db.relationships A types B direction ≤ 0 := by
        rw [← hmatches, hexact.size]
        exact mul_nonpos_of_nonneg_of_nonpos
          (Database.relationships_nonneg hstore A types anyLabel direction) hkept
      rw [if_pos hkept]
      exact le_antisymm (Database.relationships_nonneg hstore A types B direction) hle
    · rw [if_neg hkept]
      exact (congrArg (· * r.target.of B) hsize).trans hmatches

/-- A plan of an edge counts its matches exactly. -/
theorem planQuery_ofEdge (hstore : db.view.store.Dominated) (hnested : db.Nested)
    (hc : c.store = db.view.store) (hab : a ≠ b) (ha : Requires db labels A)
    (hb : Requires db targetLabels B) (hT : db.view.store.typeId? type = some T)
    {e : Expression ℚ}
    (h : planQuery c db (Query.ofPattern
      (Pattern.ofEdge a labels type direction b targetLabels)) = .ok e) :
    e.size = db.view.relationships A T B direction := by
  have hnodes : (Query.ofPattern (Pattern.ofEdge a labels type direction b targetLabels) :
      Query ℚ).pattern.nodes.isEmpty = false := by
    rw [Query.ofPattern, Pattern.ofEdge_eq hab]
    rfl
  simp only [planQuery, hnodes, Bool.false_eq_true, ↓reduceIte] at h
  obtain ⟨rs, hrs, h⟩ := Outcome.bind_eq_ok.mp h
  rw [Query.ofPattern, routes_ofEdge hab] at hrs
  cases hrs
  obtain ⟨first, hfirst, h⟩ := Outcome.bind_eq_ok.mp h
  cases h
  obtain ⟨scan, hscan, hfollow⟩ := Outcome.bind_eq_ok.mp hfirst
  rw [routeSteps_ofEdge hc hab ha hb hT, follow_append] at hfollow
  obtain ⟨e₁, he₁, hfollow⟩ := Outcome.bind_eq_ok.mp hfollow
  have hbegun := begun_of_follow hstore hnested ha hscan he₁
  rw [follow_ok] at hfollow
  obtain ⟨e₂, he₂, hfollow⟩ := Outcome.bind_eq_ok.mp hfollow
  obtain ⟨p, hp, rfl⟩ := apply_eq_ok.mp he₂
  obtain ⟨shares, hshares, rfl⟩ := expand_eq_ok hp
  have hexact := hbegun ⟨db, OrderedSet.singleton T, direction⟩ b shares rfl hab.symm hshares
  rw [← Database.relationships_singleton]
  refine size_of_follow hstore hb hexact rfl ?_ hfollow
  simp [Expression.profile, OrderedMap.get?_insert]

/-- An edge between free names with known labels and type has a plan. -/
theorem exists_planQuery_ofEdge (hc : c.store = db.view.store) (hfreeA : ¬Reserved a)
    (hfreeB : ¬Reserved b) (hab : a ≠ b) (ha : Requires db labels A)
    (hb : Requires db targetLabels B) (hT : db.view.store.typeId? type = some T) :
    ∃ e, planQuery c db (Query.ofPattern
      (Pattern.ofEdge a labels type direction b targetLabels)) = .ok e := by
  have hbuilt : (Pattern.ofEdge a labels type direction b targetLabels).Built :=
    ((Pattern.Built.empty.node labels hfreeA).node targetLabels hfreeB).relationship (some type)
      direction hfreeA hfreeB
  have hproper : (Query.ofPattern (Pattern.ofEdge a labels type direction b targetLabels) :
      Query ℚ).Proper := by
    refine Query.proper_ofPattern hbuilt ?_
    rw [Pattern.ofEdge_eq hab]
    simp
  have hknown : ∀ {names : List String} {l : LabelId}, Requires db names l →
      ∀ name ∈ OrderedSet.ofList names, c.store.labelId? name ≠ none := by
    intro names l hrequires name hname
    rw [OrderedSet.mem_ofList] at hname
    cases hrequires with
    | nothing => cases hname
    | label known => simp [List.mem_singleton.mp hname, hc, known]
  rcases planQuery_outcome db (c := c) hproper with ⟨e, he, -⟩ | ⟨f, -, hunknown⟩
  · exact ⟨e, he⟩
  · exfalso
    cases hunknown with
    | @label n name hn hname hnone =>
      simp only [Query.ofPattern, Pattern.ofEdge_eq hab, List.mem_cons, List.not_mem_nil,
        or_false] at hn
      rcases hn with rfl | rfl
      · exact hknown ha name hname hnone
      · exact hknown hb name hname hnone
    | @type r name hr htype hnone =>
      simp only [Query.ofPattern, Pattern.ofEdge_eq hab, List.mem_singleton] at hr
      have hname : name = type := by
        subst hr
        cases direction <;> exact (Option.some_inj.mp htype).symm
      rw [hname, hc, hT] at hnone
      cases hnone
    | nodeProperty table => cases table
    | relationshipProperty table => cases table

end Estimate

end Plan

section Estimator

variable [NumberHash ℚ] {e : Estimator ℚ} {a b type : String} {labels targetLabels : List String}
  {A B : LabelId} {T : TypeId}

/-- The estimate of an edge is the number of its relationships. -/
theorem estimatePattern_ofEdge (hstore : e.database.view.store.Dominated)
    (hnested : e.database.Nested) (hab : a ≠ b) (hfreeA : ¬Reserved a) (hfreeB : ¬Reserved b)
    (ha : Requires e.database labels A) (hb : Requires e.database targetLabels B)
    (hT : e.database.view.store.typeId? type = some T) (direction : Direction) :
    e.estimatePattern (Pattern.ofEdge a labels type direction b targetLabels) =
      .ok (e.database.view.relationships A T B direction) := by
  obtain ⟨x, hx⟩ : ∃ x, planQuery e.planner e.database (Query.ofPattern
      (Pattern.ofEdge a labels type direction b targetLabels)) = .ok x :=
    exists_planQuery_ofEdge rfl hfreeA hfreeB hab ha hb hT
  have hsize := planQuery_ofEdge hstore hnested rfl hab ha hb hT hx
  rw [Estimator.estimatePattern, Estimator.estimate, Estimator.plan, hx, ← hsize]
  rfl

/-- Edges are estimated exactly, with labels at both ends, at either end, and undirected, and from
whichever end they are written. -/
theorem estimate_edge_exact (hstore : e.database.view.store.Dominated)
    (hnested : e.database.Nested) (hview : e.database.view.oneSided = false) {l m : String}
    {L M : LabelId} (hl : e.database.view.store.labelId? l = some L)
    (hm : e.database.view.store.labelId? m = some M)
    (hT : e.database.view.store.typeId? type = some T) (hL : e.database.Distinct L)
    (hM : e.database.Distinct M) (hab : a ≠ b) (ha : ¬Reserved a) (hb : ¬Reserved b) :
    (e.estimatePattern (.ofEdge a [l] type .outgoing b [m]) =
        .ok (e.database.view.store.relationshipCount L T M) ∧
      e.estimatePattern (.ofEdge b [m] type .incoming a [l]) =
        .ok (e.database.view.store.relationshipCount L T M)) ∧
    (e.estimatePattern (.ofEdge a [l] type .outgoing b []) =
        .ok (e.database.view.store.relationshipCount L T anyLabel) ∧
      e.estimatePattern (.ofEdge b [] type .incoming a [l]) =
        .ok (e.database.view.store.relationshipCount L T anyLabel)) ∧
    (e.estimatePattern (.ofEdge a [] type .outgoing b [m]) =
        .ok (e.database.view.store.relationshipCount anyLabel T M) ∧
      e.estimatePattern (.ofEdge b [m] type .incoming a []) =
        .ok (e.database.view.store.relationshipCount anyLabel T M)) ∧
    (e.estimatePattern (.ofEdge a [l] type .both b [m]) =
        .ok (e.database.view.store.relationshipCount L T M +
          e.database.view.store.relationshipCount M T L) ∧
      e.estimatePattern (.ofEdge b [m] type .both a [l]) =
        .ok (e.database.view.store.relationshipCount L T M +
          e.database.view.store.relationshipCount M T L)) := by
  have hcount : ∀ x y, e.database.view.relationshipCount x T y =
      e.database.view.store.relationshipCount x T y := by
    intro x y
    rw [View.relationshipCount, hview]
    rfl
  have hA := Requires.label hl hL
  have hB := Requires.label hm hM
  have hnone : Requires e.database [] anyLabel := .nothing
  have hforth := fun {x y : LabelId} {xs ys : List String} (hx : Requires e.database xs x)
    (hy : Requires e.database ys y) => estimatePattern_ofEdge hstore hnested hab ha hb hx hy hT
  have hback := fun {x y : LabelId} {xs ys : List String} (hx : Requires e.database xs x)
    (hy : Requires e.database ys y) =>
      estimatePattern_ofEdge hstore hnested hab.symm hb ha hx hy hT
  refine ⟨⟨?_, ?_⟩, ⟨?_, ?_⟩, ⟨?_, ?_⟩, ⟨?_, ?_⟩⟩
  · rw [hforth hA hB, View.relationships, hcount]
  · rw [hback hB hA, View.relationships, hcount]
  · rw [hforth hA hnone, View.relationships, hcount]
  · rw [hback hnone hA, View.relationships, hcount]
  · rw [hforth hnone hB, View.relationships, hcount]
  · rw [hback hB hnone, View.relationships, hcount]
  · rw [hforth hA hB, View.relationships, hcount, hcount]
  · rw [hback hB hA, View.relationships, hcount, hcount, add_comm]

end Estimator

def travellers : Estimator ℚ :=
  ⟨.standard, ⟨⟨acquaintances, false⟩,
    ⟨[OrderedSet.ofList [1], OrderedSet.ofList [2, 3]], OrderedMap.singleton 2 (.singleton 3)⟩⟩⟩

theorem travellers_nested : travellers.database.Nested := by
  have hbelow : ∀ sub l, travellers.database.distribution.isBelow sub l = true →
      sub = 3 ∧ l = 2 := by
    intro sub l h
    simp only [travellers, Distribution.isBelow, Distribution.below, SubLabels.of, OrderedMap.getD,
      OrderedMap.get?_singleton, decide_eq_true_eq] at h
    split_ifs at h with hl
    · exact ⟨List.mem_singleton.mp h, hl⟩
    · cases h
  refine ⟨?_, fun sub l h => ?_, fun sub l h => ?_⟩
  · refine List.pairwise_pair.mpr (fun l hl hl' => ?_)
    simp only [OrderedSet.mem_ofList, List.mem_cons, List.not_mem_nil, or_false] at hl hl'
    subst hl
    revert hl'
    decide
  · obtain ⟨rfl, rfl⟩ := hbelow sub l h
    decide
  · obtain ⟨rfl, rfl⟩ := hbelow sub l h
    change acquaintances.nodes 3 ≤ acquaintances.nodes 2
    rw [acquaintances_nodes, acquaintances_nodes]
    simp [anyLabel]

theorem travellers_distinct {l : LabelId} (h : l = 1 ∨ l = 2) : travellers.database.Distinct l := by
  have hlabels : ∀ m ∈ travellers.database.labels, m = 1 ∨ m = 2 ∨ m = 3 := by
    intro m hm
    obtain ⟨g, hg, hmg⟩ := Distribution.mem_labels.mp hm
    rcases List.mem_pair.mp hg with rfl | rfl
    · exact Or.inl (List.mem_singleton.mp (OrderedSet.mem_ofList.mp hmg))
    · exact Or.inr (List.mem_pair.mp (OrderedSet.mem_ofList.mp hmg))
  have hnodes : ∀ m, travellers.database.nodes m = acquaintances.nodes m := fun _ => rfl
  refine ⟨?_, ?_, fun m hm hgroup hcount => ?_⟩
  · rcases h with rfl | rfl <;> decide
  · rw [hnodes, acquaintances_nodes]
    rcases h with rfl | rfl <;> simp [anyLabel]
  · rw [hnodes, hnodes, acquaintances_nodes, acquaintances_nodes] at hcount
    rcases h with rfl | rfl <;> rcases hlabels m hm with rfl | rfl | rfl <;>
      simp_all [anyLabel]

theorem estimate_edge_exact_persons :
    @Estimator.estimatePattern ℚ _ ⟨fun _ => 0⟩ travellers
      (.ofEdge "a" ["Person"] "KNOWS" .outgoing "b" ["City"]) = .ok 5 := by
  have h := @estimate_edge_exact ⟨fun _ => 0⟩ travellers "a" "b" "KNOWS" 7 acquaintances_dominated
    travellers_nested rfl "Person" "City" 1 2 (by decide) (by decide) (by decide)
    (travellers_distinct (Or.inl rfl)) (travellers_distinct (Or.inr rfl)) (by decide) (by decide)
    (by decide)
  rw [h.1.1]
  change Except.ok (acquaintances.relationshipCount 1 7 2) = _
  rw [acquaintances_count]
  rfl

end PatternCardinality
