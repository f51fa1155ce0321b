import PatternCardinality.Proofs.Estimate.Branched
import PatternCardinality.Proofs.Estimate.Certain
import PatternCardinality.Proofs.Estimate.Merged

/-!
# A label joined with itself

Select a label at two variables and join the two: their matches are all pairs of nodes with the
label. To identify the variables keeps the pairs of a node with itself, so it gives the nodes back.
Both variables put all of their mass on the label, whichever labels lie above and below it.
-/

namespace PatternCardinality.Estimate

open Labels

/-- Two node variables, each at the nodes with a label. -/
def selectedPair {α : Type} [Scalar α] (db : Database α) (a b : String) (l : LabelId) :
    Except (Failure α) (Profile α) := do
  let left ← selectAll db a [l]
  let right ← selectAll db b [l]
  join db left right

variable {db : Database ℚ} {l : LabelId} {a b : String}

theorem Database.Plausible.bounded (h : db.Plausible) : db.Bounded := ⟨h.nonneg, h.le_total⟩

theorem Database.Plausible.nested (h : db.Plausible) : db.Nested :=
  ⟨h.hierarchical.apart, fun _ _ hbelow => h.hierarchical.groupOf?_eq (Or.inr hbelow), h.le_super⟩

section Selection

variable (hcounts : db.Bounded) (hl : db.Distinct l)

include hcounts hl

/-- Among all nodes, those with a label are as many as are counted. -/
theorem selectAll_singleton (v : String) : selectAll db v [l] =
    .ok ⟨OrderedMap.singleton v (narrowed db (scanned db) l), ∅, db.nodes l, false⟩ := by
  have htotal := total_pos hcounts hl
  have hshare := scanned_of hcounts hl hl.known
  have hkept : ¬LabelShares.of (scanned db) l ≤ 0 := by
    rw [hshare, not_le]
    exact div_pos hl.positive htotal
  obtain ⟨p, hp, hbinds⟩ := scan_binds db v
  obtain ⟨p', hp', -⟩ := selectLabel_binds db hbinds rfl l
  obtain ⟨shares, hget, heq⟩ := selectLabel_eq_ok hp'
  have hscan := scan_eq_ok hp
  subst hscan
  rw [OrderedMap.get?_singleton, if_pos rfl] at hget
  cases hget
  have htable : (OrderedMap.singleton v (scanned db)).insert v (narrowed db (scanned db) l) =
      OrderedMap.singleton v (narrowed db (scanned db) l) := OrderedMap.insert_insert ∅ v _ _
  rw [if_neg hkept, htable, hshare, mul_div_cancel₀ _ htotal.ne'] at heq
  simp only [selectAll, hp, bind, Except.bind, List.foldlM_cons, List.foldlM_nil, hp', heq]
  rfl

/-- All pairs of nodes with the label. -/
theorem exists_selectedPair (hab : a ≠ b) : ∃ both, selectedPair db a b l = .ok both ∧
    both.size = db.nodes l * db.nodes l ∧
    both.nodes.get? a = some (narrowed db (scanned db) l) ∧
    both.nodes.get? b = some (narrowed db (scanned db) l) ∧
    ∀ v, both.isNode v = true → both.isRelationship v = false := by
  set shares := narrowed db (scanned db) l
  have hbinds : ∀ v, (⟨OrderedMap.singleton v shares, ∅, db.nodes l, false⟩ :
      Profile ℚ).Binds {v} ∅ := by
    intro v
    refine ⟨fun w => ?_, fun w => ?_, fun _ _ => Set.notMem_empty _⟩
    · rw [Profile.isNode, OrderedMap.contains, OrderedMap.get?_singleton]
      split <;> simp_all
    · simp [Profile.isRelationship, OrderedMap.contains]
  obtain ⟨both, hboth, -⟩ := join_binds db (hbinds a) (hbinds b) (by simp)
  have hfree : (OrderedMap.singleton a shares).get? b = none := by
    rw [OrderedMap.get?_singleton, if_neg hab.symm]
  have hnodes : joinedNodes db (OrderedMap.singleton a shares) (OrderedMap.singleton b shares) =
      ((OrderedMap.singleton a shares).insert b shares, 0) := by
    have hentries : (OrderedMap.singleton b shares).entries = [(b, shares)] := rfl
    simp only [joinedNodes, hentries, List.foldl_cons, List.foldl_nil, hfree]
  have hresult := join_eq_ok hboth
  rw [hnodes, matchProbability, if_pos rfl, mul_one] at hresult
  refine ⟨both, ?_, ?_⟩
  · simp only [selectedPair, selectAll_singleton hcounts hl, bind, Except.bind]
    exact hboth
  · rw [hresult]
    refine ⟨rfl, ?_, ?_, fun _ _ => rfl⟩
    · rw [OrderedMap.get?_insert, if_neg hab, OrderedMap.get?_singleton, if_pos rfl]
    · rw [OrderedMap.get?_insert, if_pos rfl]

end Selection

/-- Two matches of a certain label agree in their node as often as two of its nodes do. -/
theorem mergeFactor_narrowed (h : db.Plausible) (hl : db.Distinct l) :
    mergeFactor db (narrowed db (scanned db) l) (narrowed db (scanned db) l) =
      1 / db.nodes l := by
  obtain ⟨before, k, hwalk, hbefore⟩ := complete_narrowed (n := 2) h.bounded h.nested hl
  set shares := narrowed db (scanned db) l
  have hjoint : jointMass db shares shares =
      ⟨before ++ [⟨k, l, Vector.replicate 2 1⟩], Vector.replicate 2 0⟩ := by
    have hpair : pairShare shares shares = fun _ : Fin 2 => shares.of := by
      funext i
      exact ite_self _
    simp only [jointMass, hpair, Scalar.greatest_rat, max_self, hwalk]
  have hnone : (before.map (fun v => spread (db.nodes v.label)
      (v.mass.get 0 * v.mass.get 1))).sum = 0 := by
    refine List.sum_eq_zero (fun x hx => ?_)
    obtain ⟨v, hv, rfl⟩ := List.mem_map.mp hx
    rw [hbefore v hv]
    simp only [Walk.get_replicate, spread, zero_mul, zero_div, ite_self]
  rw [mergeFactor_eq, hjoint, List.map_append, List.sum_append, hnone]
  simp only [List.map_cons, List.map_nil, List.sum_singleton, Walk.get_replicate, spread,
    if_neg (not_le.mpr hl.positive), mul_one, mul_zero, zero_div, ite_self, zero_add, add_zero]

/-- Two selections of one label, joined and identified, have as many matches as one selection. -/
theorem mergeOn_selectedPair (h : db.Plausible) (hl : db.Distinct l) (hab : a ≠ b) :
    ∃ both p, selectedPair db a b l = .ok both ∧ mergeOn db a b both = .ok p ∧
      p.size = db.nodes l := by
  obtain ⟨both, hboth, hsize, ha, hb, hapart⟩ := exists_selectedPair h.bounded hl hab
  refine ⟨both, _, hboth, mergeOn_eq hab hapart ha hb, ?_⟩
  rw [hsize, mergeFactor_narrowed h hl]
  exact (mul_one_div _ _).trans (mul_self_div_self _)

/-- The parent of the siblings is on four of the nodes. -/
theorem mergeOn_selectedPair_siblings : ∃ both p,
    selectedPair siblings "a" "b" 0 = .ok both ∧ mergeOn siblings "a" "b" both = .ok p ∧
      p.size = siblings.nodes 0 := by
  have hdistinct : siblings.Distinct 0 := by
    have hunlike : ∀ m ∈ siblings.labels.toList, siblings.nodes m = siblings.nodes 0 → m = 0 :=
      List.all_iff_forall_prop.mp (by decide +kernel)
    exact ⟨by decide +kernel, by decide +kernel, fun m hm _ => hunlike m hm⟩
  exact mergeOn_selectedPair plausible_siblings hdistinct (by decide)

end PatternCardinality.Estimate
