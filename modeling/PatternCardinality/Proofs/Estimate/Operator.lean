import PatternCardinality.Estimate.Operator
import PatternCardinality.Proofs.Ordered.Map
import PatternCardinality.Proofs.Outcome

/-!
# What operators result in

Where an operator has a result, the result is the one given here. No name is bound in it as a node
variable and as a relationship variable.
-/

namespace PatternCardinality.Estimate

variable {α : Type}

/-- A result that was made has the tables that it was made of, and no name in both. -/
theorem Profile.make_eq_ok {n : OrderedMap String (LabelShares α)}
    {r : OrderedMap String TypeSet} {size : α} {initial : Bool} {p : Profile α}
    (h : Profile.make n r size initial = .ok p) :
    p = ⟨n, r, size, initial⟩ ∧ ∀ v, p.isNode v = true → p.isRelationship v = false := by
  rw [Profile.make] at h
  split at h
  · next hnone =>
    cases h
    refine ⟨rfl, fun v hv => ?_⟩
    have hall := List.filter_eq_nil_iff.mp hnone v (OrderedMap.mem_keys_iff.mpr hv)
    exact Bool.not_eq_true _ ▸ hall
  · cases h

theorem Profile.labels_eq_ok {p : Profile α} {v : String} {shares : LabelShares α} :
    p.labels v = .ok shares ↔ p.nodes.get? v = some shares := by
  rw [Profile.labels]
  split <;> simp_all

section Results

variable [Scalar α] {db : Database α} {p p' left right : Profile α} {v : String}

/-- The shares of labels among all nodes. -/
def scanned (db : Database α) : LabelShares α :=
  OrderedMap.tabulate (fun l => if 0 < db.total then db.nodes l / db.total else 0) db.labels

theorem scan_eq_ok (h : scan db v = .ok p') :
    p' = ⟨OrderedMap.singleton v (scanned db), ∅, db.total, true⟩ := by
  simp only [scan] at h
  exact (Profile.make_eq_ok h).1

theorem selectLabel_eq_ok {label : LabelId} (h : selectLabel db v label p = .ok p') :
    ∃ shares, p.nodes.get? v = some shares ∧
      p' = if shares.of label ≤ 0 then ⟨p.nodes, p.relationships, 0, false⟩
        else ⟨p.nodes.insert v (narrowed db shares label), p.relationships,
          p.size * shares.of label, false⟩ := by
  obtain ⟨shares, hshares, h⟩ := Outcome.bind_eq_ok.mp h
  refine ⟨shares, Profile.labels_eq_ok.mp hshares, ?_⟩
  dsimp only at h
  split at h
  · next hkept => rw [if_pos hkept, (Profile.make_eq_ok h).1]
  · next hkept => rw [if_neg hkept, (Profile.make_eq_ok h).1]

/-- A step multiplies the matches by a degree, that to the node bound to the target if there is one.
-/
theorem size_fromResult (t : Traversal α) (size : α) (base : LabelShares α)
    (target : Option (LabelShares α)) : (t.fromResult size base target).size =
      size * target.elim (t.degreeTo base anyLabel) (t.degreeToBound base) := by
  cases target <;> simp only [Traversal.fromResult, Option.elim] <;> split <;> rfl

/-- What a step from a result reaches. -/
def reached (t : Traversal α) (target : String) (shares : LabelShares α) (p : Profile α) :
    Traversal.Reached α :=
  if p.initial then t.fromAllNodes shares else t.fromResult p.size shares (p.nodes.get? target)

theorem expand_eq_ok {base relationship target : String} {direction : Direction} {types : TypeSet}
    (h : expand db base direction relationship types target p = .ok p') :
    ∃ shares, p.nodes.get? base = some shares ∧
      p' = ⟨(p.nodes.insert base (reached ⟨db, types, direction⟩ target shares p).base).insert
          target (reached ⟨db, types, direction⟩ target shares p).target,
        p.relationships.insert relationship types,
        (reached ⟨db, types, direction⟩ target shares p).size, false⟩ := by
  obtain ⟨shares, hshares, h⟩ := Outcome.bind_eq_ok.mp h
  refine ⟨shares, Profile.labels_eq_ok.mp hshares, ?_⟩
  split at h
  · cases h
  · exact (Profile.make_eq_ok h).1

theorem selectTypes_eq_ok {allowed : TypeSet} (h : selectTypes db v allowed p = .ok p') :
    ∃ old ratio, p.types? v = some old ∧
      ratio = (if 0 < db.relationships anyLabel old anyLabel .outgoing then
        db.relationships anyLabel (allowed.filter (fun t => decide (t ∈ old))) anyLabel .outgoing /
          db.relationships anyLabel old anyLabel .outgoing else 0) ∧
      p' = ⟨p.nodes, p.relationships.insert v (allowed.filter (fun t => decide (t ∈ old))),
        p.size * ratio, false⟩ := by
  rw [selectTypes] at h
  split at h
  · cases h
  · next old hold => exact ⟨old, _, hold, rfl, (Profile.make_eq_ok h).1⟩

theorem join_eq_ok (h : join db left right = .ok p') :
    p' = ⟨(joinedNodes db left.nodes right.nodes).1, left.relationships.union right.relationships,
      left.size * right.size * matchProbability db (joinedNodes db left.nodes right.nodes).2,
      false⟩ :=
  (Profile.make_eq_ok h).1

theorem identified_eq_ok {staying leaving : String} {shares : LabelShares α} {factor : α}
    (h : identified p staying leaving shares factor = .ok p') :
    p' = ⟨(p.nodes.erase leaving).insert staying shares, p.relationships, p.size * factor, false⟩ :=
  (Profile.make_eq_ok h).1

theorem mergeOn_eq_ok {staying leaving : String} (h : mergeOn db staying leaving p = .ok p') :
    ∃ s l, p.nodes.get? staying = some s ∧ p.nodes.get? leaving = some l ∧
      identified p staying leaving (mergedShares (mergeFactor db s l) s l) (mergeFactor db s l) =
        .ok p' := by
  rw [mergeOn] at h
  split at h
  · cases h
  · obtain ⟨s, hs, h⟩ := Outcome.bind_eq_ok.mp h
    obtain ⟨l, hl, h⟩ := Outcome.bind_eq_ok.mp h
    exact ⟨s, l, Profile.labels_eq_ok.mp hs, Profile.labels_eq_ok.mp hl, h⟩

theorem selfJoin_eq_ok {staying leaving : String} (h : selfJoin db staying leaving p = .ok p') :
    ∃ s l, p.nodes.get? staying = some s ∧ p.nodes.get? leaving = some l ∧
      identified p staying leaving (smallerShares s l) (Partition.factor db s l) = .ok p' := by
  rw [selfJoin] at h
  split at h
  · cases h
  · obtain ⟨s, hs, h⟩ := Outcome.bind_eq_ok.mp h
    obtain ⟨l, hl, h⟩ := Outcome.bind_eq_ok.mp h
    exact ⟨s, l, Profile.labels_eq_ok.mp hs, Profile.labels_eq_ok.mp hl, h⟩

variable [Statistics.NumberHash α] {predicates : PropertyPredicates α} {fixed : Option α}

/-- The share of matches that satisfy predicates on a relationship variable, and its types then. -/
def relationshipReduction (db : Database α) (types : TypeSet) (predicates : PropertyPredicates α)
    (fixed : Option α) : α × TypeSet :=
  match fixed with
  | some s => (Scalar.power s predicates.size, types)
  | none => combinedSelectivity types.toList predicates (relationshipSelectivity db)

/-- Predicates select at a node variable or at a relationship variable. -/
theorem selectProperties_eq_ok (h : selectProperties db v predicates fixed p = .ok p') :
    predicates.isEmpty = false ∧
    ((∃ shares, p.nodes.get? v = some shares ∧
        p' = ⟨if 0 < (nodeReduction db shares predicates fixed).1 then
            p.nodes.insert v (shares.mapValues (fun l s =>
              if l ∈ (nodeReduction db shares predicates fixed).2 then
                Scalar.least (s / (nodeReduction db shares predicates fixed).1) 1 else 0))
          else p.nodes, p.relationships,
          p.size * (nodeReduction db shares predicates fixed).1, false⟩) ∨
      ∃ types, p.types? v = some types ∧ types.isEmpty = false ∧
        p' = ⟨p.nodes,
          p.relationships.insert v (relationshipReduction db types predicates fixed).2,
          p.size * (relationshipReduction db types predicates fixed).1, false⟩) := by
  rw [selectProperties] at h
  split at h
  · cases h
  · next hpredicates =>
    refine ⟨Bool.not_eq_true _ ▸ hpredicates, ?_⟩
    split at h
    · next shares hshares => exact Or.inl ⟨shares, hshares, (Profile.make_eq_ok h).1⟩
    · split at h
      · next types htypes =>
        simp only [selectRelationships] at h
        split at h
        · cases h
        · next hne =>
          exact Or.inr ⟨types, htypes, Bool.not_eq_true _ ▸ hne, (Profile.make_eq_ok h).1⟩
      · cases h

/-- No operator binds a name both ways. -/
theorem compute_apart {op : Operator α} {inputs : List (Profile α)}
    (h : op.compute db inputs = .ok p') :
    ∀ v, p'.isNode v = true → p'.isRelationship v = false := by
  simp only [Operator.compute] at h
  split at h
  · simp only [scan] at h
    exact (Profile.make_eq_ok h).2
  · obtain ⟨_, -, h⟩ := Outcome.bind_eq_ok.mp h
    split at h
    · cases h
    · exact (Profile.make_eq_ok h).2
  · obtain ⟨_, -, h⟩ := Outcome.bind_eq_ok.mp h
    dsimp only at h
    split at h <;> exact (Profile.make_eq_ok h).2
  · rw [selectProperties] at h
    split at h
    · cases h
    · split at h
      · exact (Profile.make_eq_ok h).2
      · split at h
        · simp only [selectRelationships] at h
          split at h
          · cases h
          · exact (Profile.make_eq_ok h).2
        · cases h
  · rw [selectTypes] at h
    split at h
    · cases h
    · exact (Profile.make_eq_ok h).2
  · exact (Profile.make_eq_ok h).2
  · obtain ⟨_, _, -, -, h⟩ := mergeOn_eq_ok h
    exact (Profile.make_eq_ok h).2
  · obtain ⟨_, _, -, -, h⟩ := selfJoin_eq_ok h
    exact (Profile.make_eq_ok h).2
  · cases h

end Results

end PatternCardinality.Estimate
