import Std.Data.String.ToNat
import PatternCardinality.Proofs.Pattern.Built
import PatternCardinality.Proofs.Plan.Route
import PatternCardinality.Proofs.Plan.Triple

/-!
# Chains never go wrong

Along the steps of a route every operator finds what it needs: the variable that it starts from is
bound, names made up before are not taken again, and predicates are applied once to a relationship
that has types. So the steps of a route lead from a scan of its first variable to a result that
binds exactly the variables of the route.
-/

namespace PatternCardinality.Plan

open Estimate Statistics

theorem relationshipName_reserved (n : Nat) : Reserved (relationshipName n) := by
  simp [Reserved, relationshipName]

theorem temporaryName_reserved (n : Nat) : Reserved (temporaryName n) := by
  simp [Reserved, temporaryName]

theorem relationshipName_inj {m n : Nat} : relationshipName m = relationshipName n ↔ m = n := by
  rw [relationshipName, relationshipName, String.append_right_inj]
  exact Nat.repr_inj

theorem temporaryName_inj {m n : Nat} : temporaryName m = temporaryName n ↔ m = n := by
  rw [temporaryName, temporaryName, String.append_right_inj]
  exact Nat.repr_inj

theorem temporaryName_ne_relationshipName (m n : Nat) : temporaryName m ≠ relationshipName n := by
  intro h
  have hlist := congrArg String.toList h
  simp [temporaryName, relationshipName] at hlist

variable {α : Type}

/-- A result binds the node variables `N`, and relationships under numbers below `n`. -/
def Holds (N : Set String) (n : Nat) (p : Profile α) : Prop :=
  ∃ R, p.Binds N R ∧ ∀ e ∈ R, ∃ i < n, e = relationshipName i

/-- No name of a relationship in a plan is the name of a node variable. -/
def NodeNames (N : Set String) : Prop := ∀ i, relationshipName i ∉ N

theorem ne_relationshipName {v : String} (h : ¬Reserved v) (i : Nat) : v ≠ relationshipName i := by
  rintro rfl
  exact h (relationshipName_reserved i)

theorem nodeNames_of_free {N : Set String} (h : ∀ v ∈ N, ¬Reserved v) : NodeNames N :=
  fun i hi => ne_relationshipName (h _ hi) i rfl

theorem insert_seen (seen : OrderedSet String) (v : String) :
    insert v {w | w ∈ seen} = {w | w ∈ seen.insert v} := by
  ext w
  exact OrderedSet.mem_insert.symm

theorem NodeNames.insert {N : Set String} (h : NodeNames N) {v : String}
    (hv : ∀ i, v ≠ relationshipName i) : NodeNames (Insert.insert v N) := by
  intro i hi
  rcases hi with hi | hi
  · exact hv i hi.symm
  · exact h i hi

theorem predicates?_ne_empty {table : OrderedMap String (Predicates α)} {owner : String}
    {predicates : Predicates α} (h : Query.predicates? table owner = some predicates) :
    predicates.isEmpty = false := by
  have hfilter := (Option.filter_eq_some_iff.mp h).2
  simpa using hfilter

/-- What predicates become by identifier: if there are any, some remain. -/
theorem propertyPredicates_ne_empty {c : Planner α} {predicates : Predicates α}
    {byId : PropertyPredicates α} (h : c.propertyPredicates predicates = .ok byId)
    (hne : predicates.isEmpty = false) : byId.isEmpty = false := by
  obtain ⟨entries, hentries, hbyId⟩ := Outcome.bind_eq_ok.mp h
  cases hbyId
  have hlen := (Outcome.mapM_eq_ok.mp hentries).length_eq
  cases entries with
  | nil => simp_all [OrderedMap.isEmpty]
  | cons e entries =>
    rw [← Bool.not_eq_true, OrderedMap.isEmpty_iff]
    intro hnone
    have hmem : (OrderedMap.ofList (e :: entries)).contains e.1 = true :=
      OrderedMap.contains_ofList.mpr (by simp)
    simp [OrderedMap.contains, hnone] at hmem

theorem Planner.types_ne_empty {c : Planner α} {r : Relationship} {types : TypeSet}
    (h : c.types r = .ok types) : types.isEmpty = false := by
  rw [Planner.types] at h
  split at h
  · cases h
    rfl
  · split at h
    · cases h
      rfl
    · cases h

variable [Scalar α] [NumberHash α] (db : Database α) {N : Set String} {n : Nat}

namespace Planner

variable {c : Planner α} {q : Query α}

/-- Selections at a bound node variable keep what is bound. -/
theorem nodeSteps_runs {v : String} (hv : v ∈ N) :
    Runs db (Holds N n) (c.nodeSteps q v) (Holds N n) := by
  refine Runs.all (fun op hop p hp => ?_)
  obtain ⟨R, hb, hR⟩ := hp
  rcases List.mem_append.mp hop with hop | hop
  · obtain ⟨name, -, hname⟩ := List.mem_map.mp hop
    rw [labelStep] at hname
    split at hname
    · cases hname
      obtain ⟨p', hp', hb'⟩ := selectLabel_binds db hb hv _
      exact ⟨p', hp', R, hb', hR⟩
    · cases hname
  · cases hpred : q.nodePredicates? v with
    | none => simp [propertySteps, hpred] at hop
    | some predicates =>
      rw [hpred] at hop
      obtain ⟨byId, hbyId, rfl⟩ := Outcome.map_eq_ok.mp (List.mem_singleton.mp hop).symm
      have hne := propertyPredicates_ne_empty hbyId (predicates?_ne_empty hpred)
      obtain ⟨p', hp', hb'⟩ := selectProperties_binds_node db hb hv hne c.fixed
      exact ⟨p', hp', R, hb', hR⟩

/-- A relationship leads to a variable under a name that is not taken yet. -/
theorem expandSteps_runs {r : Relationship} {base target : String} {direction : Direction}
    {k : Nat} (hN : NodeNames N) (hbase : base ∈ N) (htarget : ∀ i, target ≠ relationshipName i)
    (hk : n ≤ k) :
    Runs db (Holds N n) (c.expandSteps q r base direction (relationshipName k) target)
      (Holds (insert target N) (k + 1)) := by
  have hstep : Runs db (Holds N n)
      [(c.types r).map (fun types => .expand base direction (relationshipName k) types target)]
      (fun p => ∃ R, (p.Binds (insert target N) R ∧ ∀ e ∈ R, ∃ i < k + 1, e = relationshipName i) ∧
        relationshipName k ∈ R ∧
        ∃ types, p.types? (relationshipName k) = some types ∧ types.isEmpty = false) := by
    refine Runs.single (fun op hop p hp => ?_)
    obtain ⟨types, htypes, rfl⟩ := Outcome.map_eq_ok.mp hop
    obtain ⟨R, hb, hR⟩ := hp
    have hfree : relationshipName k ∉ R := by
      intro hmem
      obtain ⟨i, hi, heq⟩ := hR _ hmem
      have hki := relationshipName_inj.mp heq
      omega
    have hnames : ∀ e ∈ insert (relationshipName k) R, ∃ i < k + 1, e = relationshipName i := by
      rintro e (rfl | he)
      · exact ⟨k, by omega, rfl⟩
      · obtain ⟨i, hi, rfl⟩ := hR e he
        exact ⟨i, by omega, rfl⟩
    have hapart : ∀ v ∈ insert target N, v ∉ insert (relationshipName k) R := by
      intro v hv he
      obtain ⟨i, -, rfl⟩ := hnames v he
      exact hN.insert htarget i hv
    obtain ⟨p', hp', hb', ht'⟩ := expand_binds db hb hbase hfree hapart direction types
    exact ⟨p', hp', _, ⟨hb', hnames⟩, Set.mem_insert _ _, types, ht', types_ne_empty htypes⟩
  refine hstep.append ?_
  cases hpred : q.relationshipPredicates? r.name with
  | none =>
    refine Runs.nil (fun p hp => ?_)
    obtain ⟨R, hR, -⟩ := hp
    exact ⟨R, hR⟩
  | some predicates =>
    refine Runs.single (fun op hop p hp => ?_)
    obtain ⟨byId, hbyId, rfl⟩ := Outcome.map_eq_ok.mp hop
    obtain ⟨R, ⟨hb, hR⟩, hmem, types, ht, hne⟩ := hp
    have hpne := propertyPredicates_ne_empty hbyId (predicates?_ne_empty hpred)
    obtain ⟨p', hp', hb'⟩ :=
      selectProperties_binds_relationship db hb hmem ht hne hpne c.fixed
    exact ⟨p', hp', R, hb', hR⟩

theorem crossingSteps_runs {x : Crossing} {k : Nat} (hN : NodeNames N) (hbase : x.base ∈ N)
    (hnext : ∀ i, x.next ≠ relationshipName i) (hk : n ≤ k) :
    Runs db (Holds N n) (c.crossingSteps q k x) (Holds (insert x.next N) (k + 1)) :=
  (expandSteps_runs db hN hbase hnext hk).append (nodeSteps_runs db (Set.mem_insert _ _))

theorem identify_binds {staying leaving : String} (hne : staying ≠ leaving) (hs : staying ∈ N)
    (hl : leaving ∈ N) {p : Profile α} (hp : Holds N n p) :
    ∃ p', (c.identify staying leaving).compute db [p] = .ok p' ∧ Holds (N \ {leaving}) n p' := by
  obtain ⟨R, hb, hR⟩ := hp
  rw [identify]
  cases c.strategy with
  | mergeOn =>
    obtain ⟨p', hp', hb'⟩ := mergeOn_binds db hb hne hs hl
    exact ⟨p', hp', R, hb', hR⟩
  | selfJoin =>
    obtain ⟨p', hp', hb'⟩ := selfJoin_binds db hb hne hs hl
    exact ⟨p', hp', R, hb', hR⟩

/-- Closing a cycle binds a new variable and gives it up again. -/
theorem closingSteps_runs {r : Relationship} {k : Nat} (hN : NodeNames N) (hs : r.source ∈ N)
    (ht : r.target ∈ N) (hnew : temporaryName k ∉ N) (hk : n ≤ k) :
    Runs db (Holds N n) (c.closingSteps q k r) (Holds N (k + 2)) := by
  refine Runs.append (expandSteps_runs db hN hs (temporaryName_ne_relationshipName k)
    (Nat.le_succ_of_le hk)) (Runs.single (fun op hop p hp => ?_))
  cases hop
  have hne : r.target ≠ temporaryName k := by
    intro heq
    exact hnew (heq ▸ ht)
  obtain ⟨p', hp', hh⟩ := identify_binds db (c := c) hne
    (Set.mem_insert_of_mem _ ht) (Set.mem_insert _ _) hp
  refine ⟨p', hp', ?_⟩
  have hback : insert (temporaryName k) N \ {temporaryName k} = N := by
    ext v
    simp only [Set.mem_sdiff, Set.mem_insert_iff, Set.mem_singleton_iff]
    constructor
    · rintro ⟨hv | hv, hne⟩
      · exact absurd hv hne
      · exact hv
    · intro hv
      refine ⟨Or.inr hv, ?_⟩
      rintro rfl
      exact hnew hv
  exact hback ▸ hh

/-- The variables that were met are bound once the crossings are taken. -/
theorem crossings_run {seen : OrderedSet String} {crossings : List Crossing}
    (hf : Route.Follows seen crossings) (hnames : ∀ v ∈ Route.met seen crossings, ¬Reserved v) :
    Runs db (Holds {v | v ∈ seen} n) (numbered (c.crossingSteps q) 1 n crossings)
      (Holds {v | v ∈ Route.met seen crossings} (n + crossings.length)) := by
  induction hf generalizing n with
  | nil => exact Runs.nil (fun _ hp => hp)
  | @cons seen x crossings sound base next rest ih =>
    have hN : NodeNames {v | v ∈ seen} :=
      nodeNames_of_free (fun v hv => hnames v (Route.mem_met.mpr (Or.inl hv)))
    have hnext : ¬Reserved x.next := hnames _ (Route.mem_met.mpr (Or.inr (by simp)))
    have hfirst := crossingSteps_runs db (c := c) (q := q) hN base (ne_relationshipName hnext)
      (Nat.le_refl n)
    rw [insert_seen] at hfirst
    have hlen : n + (x :: crossings).length = n + 1 + crossings.length := by
      simp only [List.length_cons]
      omega
    rw [hlen]
    exact hfirst.append (ih hnames)

/-- Closing cycles leaves what is bound. -/
theorem closing_run {closing : List Relationship} (hnames : ∀ v ∈ N, ¬Reserved v)
    (hends : ∀ r ∈ closing, r.source ∈ N ∧ r.target ∈ N) :
    Runs db (Holds N n) (numbered (c.closingSteps q) 2 n closing)
      (Holds N (n + 2 * closing.length)) := by
  induction closing generalizing n with
  | nil => exact Runs.nil (fun _ hp => hp)
  | cons r closing ih =>
    obtain ⟨hs, ht⟩ := hends r List.mem_cons_self
    have hN : NodeNames N := nodeNames_of_free hnames
    have hnew : temporaryName n ∉ N := fun hi => hnames _ hi (temporaryName_reserved n)
    have hfirst := closingSteps_runs db (c := c) (q := q) hN hs ht hnew (Nat.le_refl n)
    have hlen : n + 2 * (r :: closing).length = n + 2 + 2 * closing.length := by
      simp only [List.length_cons]
      omega
    rw [hlen]
    exact hfirst.append (ih (fun r hr => hends r (List.mem_cons_of_mem _ hr)))

/-- The crossings of a route bind the variables of its part. -/
theorem routeCrossings_run {route : Route} {members : List String}
    {relationships : List Relationship} (h : route.Covers members relationships)
    (hnames : ∀ v ∈ members, ¬Reserved v) :
    Runs db (Holds {route.start} n)
      (c.nodeSteps q route.start ++ numbered (c.crossingSteps q) 1 n route.crossings)
      (Holds {v | v ∈ members} (n + route.crossings.length)) := by
  have hcrossings := crossings_run db (c := c) (q := q) (n := n) h.follows
    (fun v hv => hnames v (h.mem_met.mp hv))
  simp only [h.mem_met, OrderedSet.mem_singleton, Set.ofPred_eq_eq_singleton] at hcrossings
  exact (nodeSteps_runs db (Set.mem_singleton _)).append hcrossings

/-- The steps of a route bind the variables of its part. -/
theorem routeSteps_runs {route : Route} {members : List String}
    {relationships : List Relationship} (h : route.Covers members relationships)
    (hnames : ∀ v ∈ members, ¬Reserved v) :
    Runs db (Holds {route.start} n) (c.routeSteps q n route)
      (Holds {v | v ∈ members} (n + route.freshCount)) := by
  have hclosing := closing_run db (c := c) (q := q) (n := n + route.crossings.length)
    (N := {v | v ∈ members}) hnames h.closes
  have hlen : n + route.freshCount =
      n + route.crossings.length + 2 * route.closing.length := by
    simp only [Route.freshCount]
    omega
  rw [hlen]
  exact (routeCrossings_run db h hnames).append hclosing

end Planner

end PatternCardinality.Plan
