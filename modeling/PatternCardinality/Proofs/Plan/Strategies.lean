import PatternCardinality.Estimator
import PatternCardinality.Proofs.Estimate.Matched
import PatternCardinality.Proofs.Plan.Forest

/-!
# Both ways to close cycles

Plans by either strategy have the same steps but for how variables are identified. With a single
label and at least one node, they lead to results that match step by step, so the estimates are the
same, or both plans fail in the same way. With fewer nodes than one they may differ.
-/

namespace PatternCardinality

open Estimate Labels Statistics

namespace Plan

variable {α : Type}

/-- The planner that closes cycles in another way. -/
def Planner.withStrategy (c : Planner α) (strategy : JoinStrategy) : Planner α :=
  { c with strategy := strategy }

/-- Steps that fail alike or are operators that differ at most in how they identify variables. -/
abbrev Step.Counterpart : Step α → Step α → Prop := Outcome.Agree Operator.Counterpart

namespace Planner

variable {c : Planner α} {q : Query α}

theorem numbered_forall₂ {ρ : Type} {S : Step α → Step α → Prop}
    {steps steps' : ℕ → ρ → List (Step α)}
    (h : ∀ n r, List.Forall₂ S (steps n r) (steps' n r)) (width n : ℕ) (l : List ρ) :
    List.Forall₂ S (numbered steps width n l) (numbered steps' width n l) := by
  induction l generalizing n with
  | nil => exact .nil
  | cons r l ih => exact List.rel_append (h n r) (ih (n + width))

variable (hplain : q.Plain)

include hplain

theorem nodeSteps_counterpart (v : String) : List.Forall₂ Step.Counterpart
    ((c.withStrategy .mergeOn).nodeSteps q v) ((c.withStrategy .selfJoin).nodeSteps q v) := by
  rw [nodeSteps, nodeSteps, hplain.nodes, propertySteps, propertySteps, List.append_nil,
    List.append_nil]
  refine List.rel_map (R := Eq) ?_ (List.forall₂_same.mpr (fun _ _ => rfl))
  rintro name _ rfl
  change Step.Counterpart (c.labelStep v name) (c.labelStep v name)
  rw [labelStep]
  split
  · exact .ok (.selectLabel v _)
  · exact .error _

theorem expandSteps_counterpart (r : Relationship) (base : String) (direction : Direction)
    (e target : String) : List.Forall₂ Step.Counterpart
      ((c.withStrategy .mergeOn).expandSteps q r base direction e target)
      ((c.withStrategy .selfJoin).expandSteps q r base direction e target) := by
  rw [expandSteps, expandSteps, hplain.relationships, propertySteps, propertySteps]
  refine .cons ?_ .nil
  change Step.Counterpart ((c.types r).map _) ((c.types r).map _)
  cases c.types r with
  | ok types => exact .ok (.expand base direction e types target)
  | error f => exact .error f

theorem routeSteps_counterpart (n : ℕ) (route : Route) : List.Forall₂ Step.Counterpart
    ((c.withStrategy .mergeOn).routeSteps q n route)
    ((c.withStrategy .selfJoin).routeSteps q n route) := by
  refine List.rel_append (List.rel_append (nodeSteps_counterpart hplain _) ?_) ?_
  · refine numbered_forall₂ (fun n x => ?_) 1 n _
    exact List.rel_append (expandSteps_counterpart hplain _ _ _ _ _)
      (nodeSteps_counterpart hplain _)
  · refine numbered_forall₂ (fun n r => ?_) 2 _ _
    exact List.rel_append (expandSteps_counterpart hplain _ _ _ _ _)
      (.cons (.ok (.identify _ _)) .nil)

end Planner

variable [NumberHash ℚ] {db : Database ℚ} {L : LabelId} (h : db.Uniform L) (hone : 1 ≤ db.total)
  {c : Planner ℚ} {q : Query ℚ} (hplain : q.Plain)

/-- Expressions with results that match. -/
abbrev Matched (L : LabelId) (e e' : Expression ℚ) : Prop := e.profile.Matched L e'.profile

include h hone

theorem apply_matched {op op' : Operator ℚ} (hop : op.Counterpart op') {e e' : Expression ℚ}
    (he : Matched L e e') : Outcome.Agree (Matched L) (e.apply db op) (e'.apply db op') := by
  have harity : ¬[e].length ≠ op.arity ∧ ¬[e'].length ≠ op'.arity := by
    cases hop <;> exact ⟨not_not.mpr rfl, not_not.mpr rfl⟩
  rw [Expression.apply, Expression.apply, Expression.make, Expression.make, if_neg harity.1,
    if_neg harity.2]
  exact (compute_matched h hone hop he).bind (fun _ _ _ _ hp => .ok hp)

/-- What holds of each step holds of all of them, in turn. -/
theorem follow_matched {steps steps' : List (Step ℚ)}
    (hsteps : List.Forall₂ Step.Counterpart steps steps') {e e' : Expression ℚ}
    (he : Matched L e e') :
    Outcome.Agree (Matched L) (follow db e steps) (follow db e' steps') := by
  induction hsteps generalizing e e' with
  | nil => exact .ok he
  | cons hstep _ ih =>
    rw [follow, follow, List.foldlM_cons, List.foldlM_cons]
    refine Outcome.Agree.bind ?_ (fun _ _ _ _ hnext => ih hnext)
    exact hstep.bind (fun _ _ _ _ hop => apply_matched h hone hop he)

include hplain

theorem planRoute_matched (n : ℕ) (route : Route) : Outcome.Agree (Matched L)
    (planRoute (c.withStrategy .mergeOn) db q n route)
    (planRoute (c.withStrategy .selfJoin) db q n route) := by
  have hscan : Outcome.Agree (Matched L) (Expression.leaf db (.scan route.start))
      (Expression.leaf db (.scan route.start)) := by
    refine Outcome.agree_self (fun e he => ?_)
    obtain ⟨p, hp, rfl⟩ := make_eq_ok.mp he
    exact .certain (scan_certain h hp)
  exact hscan.bind (fun _ _ _ _ he =>
    follow_matched h hone (Planner.routeSteps_counterpart hplain n route) he)

theorem joinRoutes_matched (rs : List Route) (n : ℕ) {left left' : Expression ℚ}
    (hleft : Matched L left left') : Outcome.Agree (Matched L)
      (joinRoutes (c.withStrategy .mergeOn) db q n left rs)
      (joinRoutes (c.withStrategy .selfJoin) db q n left' rs) := by
  induction rs generalizing n left left' with
  | nil => exact .ok hleft
  | cons route rs ih =>
    refine (planRoute_matched h hone hplain n route).bind (fun right right' _ _ hright => ?_)
    refine Outcome.Agree.bind ?_ (fun _ _ _ _ hjoined => ih _ hjoined)
    exact (join_matched h hleft hright).bind (fun _ _ _ _ hp => .ok hp)

theorem planQuery_matched : Outcome.Agree (Matched L)
    (planQuery (c.withStrategy .mergeOn) db q) (planQuery (c.withStrategy .selfJoin) db q) := by
  rw [planQuery, planQuery]
  split
  · exact .error _
  · refine (Outcome.agree_self (S := Eq) (fun _ _ => rfl)).bind (fun rs _ _ _ heq => ?_)
    subst heq
    cases rs with
    | nil => exact .error _
    | cons route rs =>
      exact (planRoute_matched h hone hplain 0 route).bind (fun _ _ _ _ hfirst =>
        joinRoutes_matched h hone hplain rs _ hfirst)

end Plan

namespace Estimator

/-- The estimator that closes cycles in another way. -/
def withStrategy {α : Type} (e : Estimator α) (strategy : Plan.JoinStrategy) : Estimator α :=
  { e with settings := { e.settings with strategy := strategy } }

/-- Where every node carries the only label, and there is at least one node, the estimates of a
query without predicates by both strategies are the same, or both fail in the same way. -/
theorem estimate_mergeOn_eq_selfJoin [NumberHash ℚ] (e : Estimator ℚ) {L : LabelId}
    (h : e.database.Uniform L) (hone : 1 ≤ e.database.total) {q : Query ℚ} (hplain : q.Plain) :
    (e.withStrategy .mergeOn).estimate q = (e.withStrategy .selfJoin).estimate q := by
  have hplan : Outcome.Agree (Plan.Matched L) ((e.withStrategy .mergeOn).plan q)
      ((e.withStrategy .selfJoin).plan q) :=
    Plan.planQuery_matched (c := e.planner) h hone hplain
  rw [estimate, estimate]
  generalize (e.withStrategy .mergeOn).plan q = merged, (e.withStrategy .selfJoin).plan q = joined
    at hplan ⊢
  cases hplan with
  | ok he => exact congrArg Except.ok he.size.symm
  | error failure => rfl

/-- So many persons, and so many relationships among them. -/
def village (n k : ℚ) : Database ℚ :=
  ⟨⟨{ Store.empty n with
      labelIds := .singleton "Person" 0
      labelCounts := .singleton 0 n
      relationshipCounts := OrderedMap.tabulate (fun _ => k) (OrderedSet.ofList
        [⟨0, anyType, 0⟩, ⟨0, anyType, anyLabel⟩, ⟨anyLabel, anyType, 0⟩,
          ⟨anyLabel, anyType, anyLabel⟩]) }, false⟩, Distribution.single [0]⟩

theorem village_uniform {n k : ℚ} (hn : 0 < n) (hk : 0 ≤ k) : (village n k).Uniform 0 := by
  have hcount : ∀ b t w, b = 0 ∨ b = anyLabel → w = 0 ∨ w = anyLabel →
      (village n k).view.store.relationshipCount b t w = if t = anyType then k else 0 := by
    intro b t w hb hw
    have hkey : (⟨b, t, w⟩ : RelationshipKey) ∈ OrderedSet.ofList [⟨0, anyType, 0⟩,
        ⟨0, anyType, anyLabel⟩, ⟨anyLabel, anyType, 0⟩, ⟨anyLabel, anyType, anyLabel⟩] ↔
          t = anyType := by
      rcases hb with rfl | rfl <;> rcases hw with rfl | rfl <;>
        simp [OrderedSet.mem_ofList, anyLabel]
    simp only [village, Store.relationshipCount, OrderedMap.getD, OrderedMap.get?_tabulate, hkey]
    split <;> rfl
  have hknown : ∀ b, (village n k).Known b → b = 0 ∨ b = anyLabel :=
    fun b hb => hb.imp_left OrderedSet.mem_singleton.mp
  refine ⟨rfl, ?_, hn, fun t => ?_, fun b t w hb hw => ?_⟩
  · simp [Database.nodes, Database.total, View.nodes, village, Store.nodes, Store.empty,
      anyLabel, OrderedMap.getD, OrderedMap.get?_singleton]
  · rw [hcount _ t _ (Or.inr rfl) (Or.inr rfl)]
    split
    · exact hk
    · exact le_rfl
  · rw [hcount b t w (hknown b hb) (hknown w hw), hcount _ t _ (Or.inr rfl) (Or.inr rfl)]

/-- Two persons with relationships both ways, one to itself, and a person apart. -/
def neighbours : Query ℚ := Query.ofPattern
  (((((Pattern.empty.addNode "a" ["Person"]).addRelationship "a" none .outgoing "b").addRelationship
    "b" none .both "a").addRelationship "a" none .outgoing "a").addNode "c" ["Person"])

theorem estimate_mergeOn_eq_selfJoin_neighbours :
    (village 3 4).Uniform 0 ∧ 1 ≤ (village 3 4).total ∧ neighbours.Plain ∧
      ∃ _ : NumberHash ℚ,
        (Estimator.withStrategy ⟨.standard, village 3 4⟩ .mergeOn).estimate neighbours =
          (Estimator.withStrategy ⟨.standard, village 3 4⟩ .selfJoin).estimate neighbours ∧
        ((Estimator.withStrategy ⟨.standard, village 3 4⟩ .mergeOn).estimate neighbours).toOption =
          some (128 / 27) := by
  have huniform : (village 3 4).Uniform 0 := village_uniform (by norm_num) (by norm_num)
  have hone : 1 ≤ (village 3 4).total := by decide +kernel
  have hplain : neighbours.Plain := ⟨fun _ => rfl, fun _ => rfl⟩
  let hash : NumberHash ℚ := ⟨fun _ => 0⟩
  exact ⟨huniform, hone, hplain, hash,
    estimate_mergeOn_eq_selfJoin ⟨.standard, village 3 4⟩ huniform hone hplain, by decide +kernel⟩

/-- Two relationships of a variable to itself. -/
def selfTied : Query ℚ := Query.ofPattern
  ((Pattern.empty.addRelationship "a" none .outgoing "a").addRelationship "a" none .outgoing "a")

/-- With half a node, the shares of identified variables would have to be more than one, and the
strategies do not agree. -/
theorem estimate_mergeOn_ne_selfJoin :
    (village (1 / 2) 1).Uniform 0 ∧ 0 < (village (1 / 2) 1).total ∧ selfTied.Plain ∧
      selfTied.pattern.names.Nodup ∧ (∀ v ∈ selfTied.pattern.names, ¬Reserved v) ∧
      ∃ _ : NumberHash ℚ,
        ((Estimator.withStrategy ⟨.standard, village (1 / 2) 1⟩ .mergeOn).estimate
          selfTied).toOption = some 4 ∧
        ((Estimator.withStrategy ⟨.standard, village (1 / 2) 1⟩ .selfJoin).estimate
          selfTied).toOption = some 8 ∧
        (Estimator.withStrategy ⟨.standard, village (1 / 2) 1⟩ .mergeOn).estimate selfTied ≠
          (Estimator.withStrategy ⟨.standard, village (1 / 2) 1⟩ .selfJoin).estimate selfTied := by
  have huniform : (village (1 / 2) 1).Uniform 0 := village_uniform (by norm_num) (by norm_num)
  let hash : NumberHash ℚ := ⟨fun _ => 0⟩
  have hmerge : ((Estimator.withStrategy ⟨.standard, village (1 / 2) 1⟩ .mergeOn).estimate
      selfTied).toOption = some 4 := by decide +kernel
  have hjoin : ((Estimator.withStrategy ⟨.standard, village (1 / 2) 1⟩ .selfJoin).estimate
      selfTied).toOption = some 8 := by decide +kernel
  refine ⟨huniform, huniform.total_pos, ⟨fun _ => rfl, fun _ => rfl⟩, by decide, by decide, hash,
    hmerge, hjoin, fun heq => ?_⟩
  rw [heq, hjoin] at hmerge
  exact absurd (Option.some_inj.mp hmerge) (by norm_num)

end Estimator

end PatternCardinality
