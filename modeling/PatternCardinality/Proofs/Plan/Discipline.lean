import PatternCardinality.Proofs.Plan.Account
import PatternCardinality.Proofs.Plan.Joined

/-!
# What is bound where in a plan

Relationships are followed from variables that are bound to variables that are not; what is
identified is bound twice before and once after; and what is joined has no variable in common. No
operator needs this to have a result, so it is kept apart from success: steps are orderly if they
keep the discipline of the expressions that they are applied to.
-/

namespace PatternCardinality

open Estimate Statistics

namespace Estimate

variable {α : Type}

/-- A name is bound as a node variable or as a relationship variable. -/
def Profile.Bound (p : Profile α) (v : String) : Prop :=
  p.isNode v = true ∨ p.isRelationship v = true

/-- An operator finds its variables as a plan is meant to provide them. -/
def Operator.Disciplined : Operator α → List (Profile α) → Profile α → Prop
  | .expand base _ relationship _ target, inputs, _ =>
    ∃ p, inputs = [p] ∧ p.isNode base = true ∧ ¬p.Bound target ∧ ¬p.Bound relationship
  | .mergeOn staying leaving, inputs, result | .selfJoin staying leaving, inputs, result =>
    ∃ p, inputs = [p] ∧ staying ≠ leaving ∧ p.isNode staying = true ∧ p.isNode leaving = true ∧
      ¬result.Bound leaving
  | .join, inputs, _ =>
    ∃ left right, inputs = [left, right] ∧
      (∀ v, left.isNode v = true → right.isNode v = false) ∧
      ∀ v, left.isRelationship v = true → right.isRelationship v = false
  | _, _, _ => True

/-- Every operator of an expression finds its variables as it is meant to. -/
inductive Expression.Disciplined : Expression α → Prop
  | node {op children p} (here : op.Disciplined (children.map profile) p)
      (below : ∀ child ∈ children, Disciplined child) : Disciplined (.node op children p)

end Estimate

namespace Plan

variable {α : Type}

section Selections

variable {c : Planner α} {q : Query α} {v : String} {op : Operator α}

/-- Selections make no demands on what is bound. -/
theorem disciplined_of_nodeSteps (h : .ok op ∈ c.nodeSteps q v) (inputs : List (Profile α))
    (p : Profile α) : op.Disciplined inputs p := by
  rcases mem_nodeSteps h with ⟨l, rfl⟩ | ⟨byId, rfl⟩ <;> trivial

theorem disciplined_of_propertySteps {predicates : Option (Predicates α)}
    (h : .ok op ∈ c.propertySteps v predicates) (inputs : List (Profile α)) (p : Profile α) :
    op.Disciplined inputs p := by
  obtain ⟨byId, rfl⟩ := mem_propertySteps h
  trivial

theorem Planner.identify_disciplined {staying leaving : String} {p p' : Profile α}
    (hne : staying ≠ leaving) (hs : p.isNode staying = true) (hl : p.isNode leaving = true)
    (hgone : ¬p'.Bound leaving) :
    (c.identify staying leaving).Disciplined [p] p' := by
  rw [Planner.identify]
  cases c.strategy <;> exact ⟨p, rfl, hne, hs, hl, hgone⟩

end Selections

section Names

variable {N : Set String} {n : Nat} {p : Profile α}

/-- What is not among the node variables and has no name of a relationship is not bound. -/
theorem Holds.not_bound (h : Holds N n p) {v : String} (hv : v ∉ N)
    (hnew : ∀ i < n, v ≠ relationshipName i) : ¬p.Bound v := by
  obtain ⟨R, hb, hR⟩ := h
  rintro (hnode | hrelationship)
  · exact hv ((hb.isNode_iff v).mp hnode)
  · obtain ⟨i, hi, rfl⟩ := hR v ((hb.isRelationship_iff v).mp hrelationship)
    exact hnew i hi rfl

theorem Holds.isNode (h : Holds N n p) {v : String} (hv : v ∈ N) :
    p.isNode v = true := by
  obtain ⟨R, hb, -⟩ := h
  exact (hb.isNode_iff v).mpr hv

end Names

variable [Scalar α] [NumberHash α]

theorem Runs.result {db : Database α} {P Q : Profile α → Prop} {steps : List (Step α)}
    (h : Runs db P steps Q) {e e' : Expression α} (he : P e.profile)
    (hfollow : follow db e steps = .ok e') : Q e'.profile := by
  rcases h e he with ⟨found, hfound, hq⟩ | ⟨f, hf, -⟩
  · rw [hfollow] at hfound
    cases hfound
    exact hq
  · rw [hfollow] at hf
    cases hf

/-- Applied to results with `P`, steps keep the discipline. -/
def Orderly (db : Database α) (P : Profile α → Prop) (steps : List (Step α)) : Prop :=
  ∀ e e' : Expression α, P e.profile → e.Disciplined → follow db e steps = .ok e' → e'.Disciplined

namespace Orderly

variable {db : Database α} {P Q : Profile α → Prop} {xs ys : List (Step α)}

theorem nil : Orderly db P [] := by
  intro e e' _ he h
  cases h
  exact he

theorem append (hxs : Orderly db P xs) (hruns : Runs db P xs Q) (hys : Orderly db Q ys) :
    Orderly db P (xs ++ ys) := by
  intro e e' hp he h
  rw [follow_append] at h
  obtain ⟨e₁, h₁, h⟩ := Outcome.bind_eq_ok.mp h
  exact hys e₁ e' (hruns.result hp h₁) (hxs e e₁ hp he h₁) h

/-- One step: if it is an operator, it is used as it is meant to be. -/
theorem single {s : Step α}
    (h : ∀ op, s = .ok op → ∀ p p', P p → op.compute db [p] = .ok p' → op.Disciplined [p] p') :
    Orderly db P [s] := by
  intro e e' hp he hfollow
  obtain ⟨e₁, hstep, hfollow⟩ := Outcome.bind_eq_ok.mp hfollow
  cases hfollow
  obtain ⟨op, hop, happly⟩ := Outcome.bind_eq_ok.mp hstep
  obtain ⟨p', hp', rfl⟩ := apply_eq_ok.mp happly
  exact .node (h op hop _ p' hp hp') (fun child hchild => List.mem_singleton.mp hchild ▸ he)

/-- Steps of which none makes demands. -/
theorem free (h : ∀ op, .ok op ∈ ys → ∀ inputs p, op.Disciplined inputs p) :
    Orderly db P ys := by
  intro e e' _ he hfollow
  refine Outcome.foldlM_invariant (P := Expression.Disciplined) (fun e s e' hs he hstep => ?_) he
    hfollow
  obtain ⟨op, rfl, happly⟩ := Outcome.bind_eq_ok.mp hstep
  obtain ⟨p', -, rfl⟩ := apply_eq_ok.mp happly
  exact .node (h op hs _ p') (fun child hchild => List.mem_singleton.mp hchild ▸ he)

/-- Steps that make no demands may follow any. -/
theorem append_free (hxs : Orderly db P xs)
    (h : ∀ op, .ok op ∈ ys → ∀ inputs p, op.Disciplined inputs p) : Orderly db P (xs ++ ys) := by
  intro e e' hp he hfollow
  rw [follow_append] at hfollow
  obtain ⟨e₁, h₁, hfollow⟩ := Outcome.bind_eq_ok.mp hfollow
  exact free (P := fun _ => True) h e₁ e' trivial (hxs e e₁ hp he h₁) hfollow

end Orderly

section Routes

variable {db : Database α} {c : Planner α} {q : Query α} {N : Set String} {n : Nat}

namespace Planner

/-- A relationship is followed to a variable that is new, under a name that is. -/
theorem expandSteps_orderly {r : Relationship} {base target : String} {direction : Direction}
    {k : Nat} (hN : NodeNames N) (hbase : base ∈ N) (htarget : ∀ i, target ≠ relationshipName i)
    (hnew : target ∉ N) (hk : n ≤ k) :
    Orderly db (Holds N n) (c.expandSteps q r base direction (relationshipName k) target) := by
  refine (Orderly.single (fun op hop p p' hp hp' => ?_)).append_free
    (fun _ hop => disciplined_of_propertySteps hop)
  obtain ⟨types, -, rfl⟩ := Outcome.map_eq_ok.mp hop
  refine ⟨p, rfl, hp.isNode hbase, hp.not_bound hnew (fun i _ => htarget i),
    hp.not_bound (hN k) (fun i hi heq => ?_)⟩
  have hki := relationshipName_inj.mp heq
  omega

theorem crossingSteps_orderly {x : Crossing} {k : Nat} (hN : NodeNames N) (hbase : x.base ∈ N)
    (hnext : ∀ i, x.next ≠ relationshipName i) (hnew : x.next ∉ N) (hk : n ≤ k) :
    Orderly db (Holds N n) (c.crossingSteps q k x) :=
  (expandSteps_orderly hN hbase hnext hnew hk).append_free
    (fun _ hop => disciplined_of_nodeSteps hop)

/-- The variable at the end of a cycle is bound twice until it is identified. -/
theorem closingSteps_orderly {r : Relationship} {k : Nat} (hN : NodeNames N) (hs : r.source ∈ N)
    (ht : r.target ∈ N) (hnew : temporaryName k ∉ N) (hk : n ≤ k) :
    Orderly db (Holds N n) (c.closingSteps q k r) := by
  refine (expandSteps_orderly hN hs (temporaryName_ne_relationshipName k) hnew
    (Nat.le_succ_of_le hk)).append (expandSteps_runs db hN hs
      (temporaryName_ne_relationshipName k) (Nat.le_succ_of_le hk))
    (Orderly.single (fun op hop p p' hp hp' => ?_))
  cases hop
  have hne : r.target ≠ temporaryName k := by
    intro heq
    exact hnew (heq ▸ ht)
  have htarget : r.target ∈ insert (temporaryName k) N := Set.mem_insert_of_mem _ ht
  obtain ⟨found, hfound, hholds⟩ := identify_binds db (c := c) hne htarget
    (Set.mem_insert _ _) hp
  rw [hp'] at hfound
  cases hfound
  refine identify_disciplined hne (hp.isNode htarget) (hp.isNode (Set.mem_insert _ _))
    (hholds.not_bound (fun hmem => hmem.2 rfl) (fun i _ => temporaryName_ne_relationshipName k i))

theorem crossings_orderly {seen : OrderedSet String} {crossings : List Crossing}
    (hf : Route.Follows seen crossings) (hnames : ∀ v ∈ Route.met seen crossings, ¬Reserved v) :
    Orderly db (Holds {v | v ∈ seen} n) (numbered (c.crossingSteps q) 1 n crossings) := by
  induction hf generalizing n with
  | nil => exact Orderly.nil
  | @cons seen x crossings sound base next rest ih =>
    have hN : NodeNames {v | v ∈ seen} :=
      nodeNames_of_free (fun v hv => hnames v (Route.mem_met.mpr (Or.inl hv)))
    have hnext : ¬Reserved x.next := hnames _ (Route.mem_met.mpr (Or.inr (by simp)))
    have hruns := crossingSteps_runs db (c := c) (q := q) hN base (ne_relationshipName hnext)
      (Nat.le_refl n)
    rw [insert_seen] at hruns
    exact (crossingSteps_orderly hN base (ne_relationshipName hnext) next (Nat.le_refl n)).append
      hruns (ih hnames)

theorem closing_orderly {closing : List Relationship} (hnames : ∀ v ∈ N, ¬Reserved v)
    (hends : ∀ r ∈ closing, r.source ∈ N ∧ r.target ∈ N) :
    Orderly db (Holds N n) (numbered (c.closingSteps q) 2 n closing) := by
  induction closing generalizing n with
  | nil => exact Orderly.nil
  | cons r closing ih =>
    obtain ⟨hs, ht⟩ := hends r List.mem_cons_self
    have hN : NodeNames N := nodeNames_of_free hnames
    have hnew : temporaryName n ∉ N := fun hi => hnames _ hi (temporaryName_reserved n)
    exact (closingSteps_orderly hN hs ht hnew (Nat.le_refl n)).append
      (closingSteps_runs db hN hs ht hnew (Nat.le_refl n))
      (ih (fun r hr => hends r (List.mem_cons_of_mem _ hr)))

/-- The steps of a route that covers a part are orderly. -/
theorem routeSteps_orderly {route : Route} {members : List String}
    {relationships : List Relationship} (h : route.Covers members relationships)
    (hnames : ∀ v ∈ members, ¬Reserved v) :
    Orderly db (Holds {route.start} n) (c.routeSteps q n route) := by
  have hcrossings : Orderly db (Holds {v | v ∈ OrderedSet.singleton route.start} n)
      (numbered (c.crossingSteps q) 1 n route.crossings) :=
    crossings_orderly h.follows (fun v hv => hnames v (h.mem_met.mp hv))
  simp only [OrderedSet.mem_singleton, Set.ofPred_eq_eq_singleton] at hcrossings
  have hstart : Orderly db (Holds {route.start} n) (c.nodeSteps q route.start) :=
    Orderly.free (fun _ hop => disciplined_of_nodeSteps hop)
  exact (hstart.append (nodeSteps_runs db (Set.mem_singleton _)) hcrossings).append
    (routeCrossings_run db h hnames)
    (closing_orderly (N := {v | v ∈ members}) hnames h.closes)

end Planner

variable {route : Route} {members : List String} {relationships : List Relationship}
  {e : Expression α}

/-- The relationships of a route have numbers from the first one on that is given to it. -/
theorem number_of_planRoute (hroute : ∀ x ∈ route.crossings, x.Sound)
    (h : planRoute c db q n route = .ok e) {v : String}
    (hv : e.profile.isRelationship v = true) : ∃ k, n ≤ k ∧ v = relationshipName k := by
  obtain ⟨tree, closing, -, -, -, haccount⟩ := Account.route (c := c) (q := q) (n := n) hroute
  obtain ⟨op, hop, hadded⟩ := ((built_planRoute h).isRelationship_iff v).mp hv
  have htaken : .ok op ∈ taken e := Multiset.mem_coe.mpr (List.mem_map_of_mem hop)
  rw [taken_planRoute h, Multiset.mem_add, Multiset.mem_singleton, Multiset.mem_coe] at htaken
  rcases htaken with hscan | hstep
  · cases hscan
    cases hadded
  · obtain ⟨l, hl, rfl⟩ := haccount.exists_leg hstep hadded
    exact ⟨l.number, (haccount.range.2 l hl).1, rfl⟩

theorem planRoute_disciplined (hroute : route.Covers members relationships)
    (hnames : ∀ v ∈ members, ¬Reserved v) (h : planRoute c db q n route = .ok e) :
    e.Disciplined := by
  obtain ⟨scan, hscan, h⟩ := Outcome.bind_eq_ok.mp h
  obtain ⟨p, -, hleaf, hholds⟩ := exists_scan db route.start n
  cases hscan.symm.trans hleaf
  have hscanned : (Expression.node (.scan route.start) [] p).Disciplined := .node trivial (by simp)
  exact Planner.routeSteps_orderly hroute hnames _ e hholds hscanned h

/-- A join is disciplined if its inputs have no node variable in common and their relationships have
different numbers. -/
theorem join_disciplined {left right : Expression α} {N' : Set String} {k : ℕ}
    (hleft : Holds N n left.profile) (hright : Holds N' k right.profile)
    (hapart : ∀ v ∈ N, v ∉ N')
    (hnumber : ∀ v, right.profile.isRelationship v = true → ∃ i, n ≤ i ∧ v = relationshipName i)
    (hdleft : left.Disciplined) (hdright : right.Disciplined)
    (h : Expression.make db .join [left, right] = .ok e) : e.Disciplined := by
  obtain ⟨p, -, rfl⟩ := make_eq_ok.mp h
  obtain ⟨R, hb, hR⟩ := hleft
  obtain ⟨R', hb', -⟩ := hright
  refine .node ⟨left.profile, right.profile, rfl, ?_, ?_⟩ ?_
  · intro v hv
    rw [← Bool.not_eq_true]
    intro hv'
    exact hapart v ((hb.isNode_iff v).mp hv) ((hb'.isNode_iff v).mp hv')
  · intro v hv
    rw [← Bool.not_eq_true]
    intro hv'
    obtain ⟨i, hi, rfl⟩ := hR v ((hb.isRelationship_iff v).mp hv)
    obtain ⟨k, hk, heq⟩ := hnumber _ hv'
    have hik := relationshipName_inj.mp heq
    omega
  · intro child hchild
    rcases List.mem_cons.mp hchild with rfl | hchild
    · exact hdleft
    · rw [List.mem_singleton.mp hchild]
      exact hdright

theorem Joined.disciplined {parts : List (List String)} (hdistinct : q.pattern.names.Nodup)
    (hfree : ∀ v ∈ q.pattern.names, ¬Reserved v) (h : Joined c db q parts n e)
    (hnodup : parts.flatten.Nodup) : e.Disciplined := by
  have hroute : ∀ {part route n e}, Route.Through q.pattern part route →
      planRoute c db q n route = .ok e → e.Disciplined := fun hroute hplan =>
    planRoute_disciplined (hroute.covers hdistinct)
      (fun v hv => hfree v (hroute.inOrder.subset hv)) hplan
  induction h with
  | first hthrough hplan => exact hroute hthrough hplan
  | next hjoined hthrough hplan hjoin ih =>
    rw [List.flatten_append, List.flatten_singleton] at hnodup
    obtain ⟨hnodup, -, hapart⟩ := List.nodup_append'.mp hnodup
    exact join_disciplined (hjoined.holds hdistinct hfree) (hthrough.holds hdistinct hfree hplan)
      (fun v hv hmem => hapart hv hmem)
      (fun v => number_of_planRoute (hthrough.covers hdistinct).follows.sound hplan) (ih hnodup)
      (hroute hthrough hplan) hjoin

end Routes

section Plans

variable {db : Database α} {c : Planner α} {q : Query α} {e : Expression α}

/-- What is bound in the end: the node variables of the pattern, and a name of its own for each
relationship, under which the plan follows it. Names made up for the ends of cycles are gone. -/
structure Settled (c : Planner α) (q : Query α) (e : Expression α) (legs : List Leg) : Prop where
  nodes : ∀ v, e.profile.isNode v = true ↔ v ∈ q.pattern.names
  relationships : ∀ v, e.profile.isRelationship v = true ↔ v ∈ legs.map Leg.name
  takes : (legs.map Leg.relationship).Perm q.pattern.relationships
  names : (legs.map Leg.name).Nodup
  followed : ∀ l ∈ legs, ∃ op ∈ e.operators, c.expandStep l = .ok op
  temporaries : ∀ k, ¬e.profile.Bound (temporaryName k)

theorem planQuery_settled (hp : q.pattern.Proper) (hfree : ∀ v ∈ q.pattern.names, ¬Reserved v)
    (h : planQuery c db q = .ok e) : ∃ legs, Settled c q e legs := by
  obtain ⟨m, starts, tree, closing, steps, haccount, -, -, htakes, htaken⟩ :=
    account_planQuery hp h
  obtain ⟨k, hholds⟩ := holds_of_planQuery hp.distinct hfree h
  refine ⟨tree ++ closing, ?_, haccount.isRelationship_iff (built_planQuery h) htaken, htakes,
    haccount.names_nodup, fun l hl => haccount.exists_operator htaken hl, fun i => ?_⟩
  · obtain ⟨R, hb, -⟩ := hholds
    exact hb.isNode_iff
  · refine hholds.not_bound (fun hmem => ?_) (fun j _ => temporaryName_ne_relationshipName i j)
    exact hfree _ hmem (temporaryName_reserved i)

/-- In a plan every operator finds its variables as it is meant to, and in the end the node
variables and a name for each relationship are bound. -/
theorem planQuery_disciplined (hdistinct : q.pattern.names.Nodup)
    (hfree : ∀ v ∈ q.pattern.names, ¬Reserved v) (h : planQuery c db q = .ok e) :
    e.Disciplined ∧ ∃ legs, Settled c q e legs := by
  obtain ⟨parts, k, hcomponents, hjoined⟩ := joined_of_planQuery hdistinct h
  have hnodup : parts.flatten.Nodup := hcomponents.names.nodup_iff.mpr hdistinct
  exact ⟨hjoined.disciplined hdistinct hfree hnodup,
    planQuery_settled (proper_of_planQuery db hdistinct h) hfree h⟩

end Plans

/-- Two relationships between the same variables, and a variable apart. -/
def paired : Pattern :=
  ((Pattern.empty.addRelationship "a" none .outgoing "b").addRelationship "a" none .both
    "b").addNode "c" []

theorem planQuery_disciplined_of_paired :
    ∃ e : Expression Float, planQuery ⟨Store.empty 0, .selfJoin, none⟩
        ⟨⟨Store.empty 0, false⟩, Labels.Distribution.single []⟩ (Query.ofPattern paired) = .ok e ∧
      e.Disciplined ∧
        ∃ legs, Settled ⟨Store.empty 0, .selfJoin, none⟩ (Query.ofPattern paired) e legs := by
  have ha : ¬Reserved "a" := by decide
  have hb : ¬Reserved "b" := by decide
  have hbuilt : paired.Built := ((Pattern.Built.empty.relationship none .outgoing ha
    hb).relationship none .both ha hb).node [] (by decide)
  obtain ⟨e, he⟩ := exists_planQuery_of_plain (c := ⟨Store.empty 0, .selfJoin, none⟩)
    (⟨⟨Store.empty 0, false⟩, Labels.Distribution.single []⟩ : Database Float) hbuilt (by decide)
    (by decide) (by decide)
  exact ⟨e, he, planQuery_disciplined hbuilt.proper.distinct hbuilt.not_reserved he⟩

end Plan

end PatternCardinality
