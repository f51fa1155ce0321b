import PatternCardinality.Proofs.Query.Part
import PatternCardinality.Proofs.Query.WellFormed

/-!
# Adding predicates in place

Predicates are added to a query where it stands: the owner is entered first, and then the predicate
may turn out not to fit the one that is stored. A new owner has nothing that a predicate might not
fit, so a query is never left with an owner that was entered in vain: adding in place is all or
nothing. So the calls that failed can be left out of any sequence, and what is stored is what comes
of merging the others in order.
-/

namespace PatternCardinality.Query

/-- Replaces the state by a result; without a result the state stays. -/
def allOrNothing {ε σ : Type} (f : σ → Except ε σ) : EStateM ε σ Unit := fun s =>
  match f s with
  | .ok s' => .ok () s'
  | .error e => .error e s

section InPlace

variable {α : Type}

/-- The predicates of an owner; a new owner is entered with none. -/
def entry (owner : String) :
    EStateM (Failure α) (OrderedMap String (Predicates α)) (Predicates α) := do
  let table ← get
  match table.get? owner with
  | some predicates => return predicates
  | none =>
    set (table.insert owner ∅)
    return ∅

/-- Where predicates stand: with the node variables or with the relationships. -/
inductive Side where
  | node
  | relationship
  deriving DecidableEq

namespace Side

def table : Side → Query α → OrderedMap String (Predicates α)
  | node, q => q.nodePredicates
  | relationship, q => q.relationshipPredicates

def withTable : Side → Query α → OrderedMap String (Predicates α) → Query α
  | node, q, table => { q with nodePredicates := table }
  | relationship, q, table => { q with relationshipPredicates := table }

/-- The names that can own a predicate. -/
def owns : Side → Pattern → String → Bool
  | node, p, owner => p.contains owner
  | relationship, p, owner => p.relationships.any (·.name = owner)

/-- Works on one table of a query, which changes with the table even if the work fails. -/
def focus {ε : Type} (side : Side) (x : EStateM ε (OrderedMap String (Predicates α)) Unit) :
    EStateM ε (Query α) Unit := fun q =>
  match x.run (side.table q) with
  | .ok () table => .ok () (side.withTable q table)
  | .error e table => .error e (side.withTable q table)

end Side

/-- What a predicate is about. -/
structure Place where
  side : Side
  owner : String
  property : String
  deriving DecidableEq

/-- A call that adds a predicate. -/
structure Call (α : Type) extends Place where
  predicate : Predicate α

def stored? (q : Query α) (place : Place) : Option (Predicate α) :=
  ((place.side.table q).get? place.owner).bind (·.get? place.property)

variable [Scalar α]

/-- Adds a condition to an owner's in place, merged with one on the same property. -/
def insertMerged (owner property : String) (predicate : Predicate α) :
    EStateM (Failure α) (OrderedMap String (Predicates α)) Unit := do
  let predicates ← entry owner
  let merged ← match predicates.get? property with
    | some existing => MonadExcept.ofExcept (existing.merge predicate)
    | none => pure predicate
  modify (·.insert owner (predicates.insert property merged))

namespace Call

def apply (c : Call α) (q : Query α) : Except (Failure α) (Query α) :=
  match c.side with
  | .node => q.addNodePredicate c.owner c.property c.predicate
  | .relationship => q.addRelationshipPredicate c.owner c.property c.predicate

/-- The call as it is carried out in place. -/
def perform (c : Call α) : EStateM (Failure α) (Query α) Unit := do
  let q ← get
  if c.side.owns q.pattern c.owner then
    c.side.focus (insertMerged c.owner c.property c.predicate)
  else throw (.unboundVariable c.owner)

end Call

/-- Carries out calls one after the other, also after one that failed, and collects those that
succeeded. -/
def run : List (Call α) → Query α → Query α × List (Call α)
  | [], q => (q, [])
  | c :: calls, q =>
    match c.perform.run q with
    | .ok () q' => ((run calls q').1, c :: (run calls q').2)
    | .error _ q' => run calls q'

/-- The query with a predicate stored in a place. -/
def put (q : Query α) (place : Place) (predicate : Predicate α) : Query α :=
  place.side.withTable q ((place.side.table q).insert place.owner
    (((place.side.table q).getD place.owner ∅).insert place.property predicate))

/-- Merges a predicate with one that stands before it, if there is one. -/
def joinedTo (before : Option (Predicate α)) (predicate : Predicate α) :
    Except (Failure α) (Predicate α) :=
  match before with
  | some existing => existing.merge predicate
  | none => .ok predicate

/-- What comes of merging predicates in order with one that stands before them. -/
def mergedOnto (before : Option (Predicate α)) (predicates : List (Predicate α)) :
    Except (Failure α) (Option (Predicate α)) :=
  predicates.foldlM (fun before p => (joinedTo before p).map some) before

/-- Every owner of a predicate is in the pattern, and none is without predicates. -/
structure Tidy (q : Query α) : Prop where
  owned : ∀ side owner, (Side.table side q).contains owner = true → side.owns q.pattern owner = true
  filled : ∀ side owner predicates, (Side.table side q).get? owner = some predicates →
    predicates.isEmpty = false

end InPlace

section Entering

variable {α : Type}

/-- Only a new owner is entered. -/
theorem entry_run (table : OrderedMap String (Predicates α)) (owner : String) :
    (entry owner).run table =
      match table.get? owner with
      | some predicates => .ok predicates table
      | none => .ok ∅ (table.insert owner ∅) := by
  simp only [entry, EStateM.run_bind, EStateM.run_get]
  cases table.get? owner <;> rfl

variable [Scalar α]

theorem added_eq (table : OrderedMap String (Predicates α)) (owner property : String)
    (predicate : Predicate α) : added table owner property predicate =
      (joinedTo ((table.getD owner ∅).get? property) predicate).map
        (fun merged => table.insert owner ((table.getD owner ∅).insert property merged)) := by
  rw [added]
  cases (table.getD owner ∅).get? property with
  | some existing =>
    simp only [joinedTo]
    cases existing.merge predicate <;> rfl
  | none => rfl

/-- What is merged with nothing does not fail, so an owner that was entered stays with a
predicate. -/
theorem insertMerged_eq (owner property : String) (predicate : Predicate α) :
    insertMerged owner property predicate = allOrNothing (added · owner property predicate) := by
  funext table
  change (insertMerged owner property predicate).run table = _
  simp only [insertMerged, EStateM.run_bind, entry_run, allOrNothing, added_eq, OrderedMap.getD]
  cases table.get? owner with
  | none => simp [joinedTo, Except.map, OrderedMap.insert_insert]
  | some predicates =>
    simp only [Option.getD_some]
    cases predicates.get? property with
    | none => rfl
    | some existing =>
      simp only [joinedTo]
      cases existing.merge predicate <;> rfl

end Entering

section Places

variable {α : Type} {q : Query α} {place : Place}

@[simp] theorem table_withTable (side other : Side) (q : Query α)
    (table : OrderedMap String (Predicates α)) :
    other.table (side.withTable q table) = if other = side then table else other.table q := by
  cases side <;> cases other <;> rfl

@[simp] theorem pattern_withTable (side : Side) (q : Query α)
    (table : OrderedMap String (Predicates α)) : (side.withTable q table).pattern = q.pattern := by
  cases side <;> rfl

theorem withTable_table (side : Side) (q : Query α) : side.withTable q (side.table q) = q := by
  cases side <;> rfl

theorem get?_getD (q : Query α) (place : Place) :
    ((place.side.table q).getD place.owner ∅).get? place.property = q.stored? place := by
  rw [stored?, OrderedMap.getD]
  cases (place.side.table q).get? place.owner <;> rfl

@[simp] theorem pattern_put (predicate : Predicate α) :
    (q.put place predicate).pattern = q.pattern := pattern_withTable ..

/-- A predicate is stored in its own place only. -/
theorem stored?_put (predicate : Predicate α) (other : Place) :
    (q.put place predicate).stored? other =
      if other = place then some predicate else q.stored? other := by
  obtain ⟨side, owner, property⟩ := place
  obtain ⟨side', owner', property'⟩ := other
  rw [stored?, put, table_withTable]
  by_cases hside : side' = side
  · subst hside
    by_cases howner : owner' = owner
    · subst howner
      have hstored : ((side'.table q).getD owner' ∅).get? property' =
          q.stored? ⟨side', owner', property'⟩ := get?_getD q ⟨side', owner', property'⟩
      simp [OrderedMap.get?_insert, hstored]
    · simp [OrderedMap.get?_insert, howner, stored?]
  · simp [hside, stored?]

theorem Tidy.put (h : q.Tidy) (predicate : Predicate α)
    (howner : place.side.owns q.pattern place.owner = true) : (q.put place predicate).Tidy := by
  constructor
  · intro side owner hcontains
    rw [pattern_put]
    rw [Query.put, table_withTable] at hcontains
    split at hcontains
    · next hside =>
      rcases OrderedMap.contains_insert.mp hcontains with rfl | hcontains
      · exact hside ▸ howner
      · exact h.owned side owner (hside ▸ hcontains)
    · exact h.owned side owner hcontains
  · intro side owner predicates hget
    rw [Query.put, table_withTable] at hget
    split at hget
    · next hside =>
      rw [OrderedMap.get?_insert] at hget
      split at hget
      · cases hget
        refine Bool.eq_false_iff.mpr (fun hempty => ?_)
        have hnone := OrderedMap.isEmpty_iff.mp hempty place.property
        simp [OrderedMap.get?_insert] at hnone
      · exact h.filled side owner predicates (hside ▸ hget)
    · exact h.filled side owner predicates hget

theorem tidy_ofPattern (p : Pattern) : (ofPattern p : Query α).Tidy := by
  constructor
  · intro side owner hcontains
    cases side <;> simp [Side.table, ofPattern, OrderedMap.contains] at hcontains
  · intro side owner predicates hget
    cases side <;> simp [Side.table, ofPattern] at hget

/-- A part has only predicates of the whole query, and keeps their owners. -/
theorem Tidy.restrictedTo (h : q.Tidy) (keep : OrderedSet String) : (q.restrictedTo keep).Tidy := by
  have hpart := q.restrictedTo_part keep
  have hkept : ∀ {side : Side} {owner : String} {predicates : Predicates α},
      (side.table (q.restrictedTo keep)).get? owner = some predicates →
      (side.table q).get? owner = some predicates ∧
        side.owns (q.restrictedTo keep).pattern owner = true := by
    intro side owner predicates hget
    cases side with
    | node =>
      rw [Side.table, hpart.nodePredicates] at hget
      obtain ⟨hkeep, hget⟩ := Option.ite_none_right_eq_some.mp hget
      refine ⟨hget, ?_⟩
      have hmem := h.owned .node owner (OrderedMap.contains_iff.mpr ⟨_, hget⟩)
      rw [Side.owns, contains_eq_true_iff, Pattern.names, List.mem_map] at hmem ⊢
      obtain ⟨n, hn, rfl⟩ := hmem
      exact ⟨n, by rw [hpart.nodes]; exact List.mem_filter.mpr ⟨hn, by simpa using hkeep⟩, rfl⟩
    | relationship =>
      rw [Side.table, hpart.relationshipPredicates] at hget
      obtain ⟨hname, hget⟩ := Option.ite_none_right_eq_some.mp hget
      exact ⟨hget, by simpa [Side.owns] using hname⟩
  constructor
  · intro side owner hcontains
    obtain ⟨predicates, hget⟩ := OrderedMap.contains_iff.mp hcontains
    exact (hkept hget).2
  · intro side owner predicates hget
    exact h.filled side owner predicates (hkept hget).1

end Places

section Calls

variable {α : Type} [Scalar α] {q q' : Query α}

theorem apply_eq_added (c : Call α) (q : Query α) : c.apply q =
    if c.side.owns q.pattern c.owner then
      (added (c.side.table q) c.owner c.property c.predicate).map (c.side.withTable q)
    else .error (.unboundVariable c.owner) := by
  obtain ⟨⟨side, owner, property⟩, predicate⟩ := c
  cases side with
  | node =>
    simp only [Call.apply, addNodePredicate, Side.owns, Side.table]
    cases added q.nodePredicates owner property predicate <;> rfl
  | relationship =>
    simp only [Call.apply, addRelationshipPredicate, Side.owns, Side.table]
    cases added q.relationshipPredicates owner property predicate <;> rfl

/-- A call changes one place, if its owner is in the pattern. -/
theorem apply_eq (c : Call α) (q : Query α) : c.apply q =
    if c.side.owns q.pattern c.owner then
      (joinedTo (q.stored? c.toPlace) c.predicate).map (q.put c.toPlace)
    else .error (.unboundVariable c.owner) := by
  rw [apply_eq_added, added_eq, get?_getD q c.toPlace]
  cases joinedTo (q.stored? c.toPlace) c.predicate <;> rfl

/-- A call that is carried out in place is all or nothing. -/
theorem perform_eq (c : Call α) : c.perform = allOrNothing c.apply := by
  funext q
  change c.perform.run q = _
  simp only [Call.perform, EStateM.run_bind, EStateM.run_get, allOrNothing, apply_eq_added,
    insertMerged_eq]
  split
  · simp only [EStateM.run, Side.focus, allOrNothing]
    cases added (c.side.table q) c.owner c.property c.predicate with
    | ok table => rfl
    | error e => simp [Except.map, withTable_table]
  · rfl

/-- What a call stores is the predicate merged with the one that was there. -/
theorem apply_eq_ok {c : Call α} : c.apply q = .ok q' ↔ c.side.owns q.pattern c.owner = true ∧
    ∃ merged, joinedTo (q.stored? c.toPlace) c.predicate = .ok merged ∧
      q' = q.put c.toPlace merged := by
  rw [apply_eq]
  split
  · next howns => simp only [Outcome.map_eq_ok, howns, true_and, eq_comm (a := q')]
  · next howns => simp [howns]

theorem apply_eq_error {c : Call α} {e : Failure α} : c.apply q = .error e ↔
    c.side.owns q.pattern c.owner = false ∧ e = .unboundVariable c.owner ∨
      c.side.owns q.pattern c.owner = true ∧ ∃ existing,
        q.stored? c.toPlace = some existing ∧ existing.merge c.predicate = .error e := by
  rw [apply_eq]
  split
  · next howns =>
    rw [Outcome.map_eq_error]
    cases q.stored? c.toPlace <;> simp [joinedTo, howns]
  · next howns => simp [howns, eq_comm]

theorem Tidy.apply (h : q.Tidy) {c : Call α} (happly : c.apply q = .ok q') : q'.Tidy := by
  obtain ⟨howns, merged, -, rfl⟩ := apply_eq_ok.mp happly
  exact h.put merged howns

/-- What can come of a call that is carried out in place. -/
theorem perform_run (c : Call α) (q : Query α) :
    (∃ q', c.apply q = .ok q' ∧ c.perform.run q = .ok () q') ∨
      ∃ e, c.apply q = .error e ∧ c.perform.run q = .error e q := by
  rw [perform_eq, EStateM.run, allOrNothing]
  cases c.apply q with
  | ok q' => exact .inl ⟨q', rfl, rfl⟩
  | error e => exact .inr ⟨e, rfl, rfl⟩

theorem run_pattern (calls : List (Call α)) (q : Query α) :
    (run calls q).1.pattern = q.pattern := by
  induction calls generalizing q with
  | nil => rfl
  | cons c calls ih =>
    rw [run]
    rcases perform_run c q with ⟨q', happly, hrun⟩ | ⟨e, -, hrun⟩
    · obtain ⟨-, merged, -, rfl⟩ := apply_eq_ok.mp happly
      simp only [hrun]
      rw [ih, pattern_put]
    · simp only [hrun]
      exact ih q

theorem Tidy.run (h : q.Tidy) (calls : List (Call α)) : (run calls q).1.Tidy := by
  induction calls generalizing q with
  | nil => exact h
  | cons c calls ih =>
    rw [Query.run]
    rcases perform_run c q with ⟨q', happly, hrun⟩ | ⟨e, -, hrun⟩
    · simp only [hrun]
      exact ih (h.apply happly)
    · simp only [hrun]
      exact ih h

/-- What is stored in a place is what the calls on it that succeeded make of what was there. -/
theorem run_stored (calls : List (Call α)) (q : Query α) (place : Place) :
    mergedOnto (q.stored? place)
        (((run calls q).2.filter (·.toPlace = place)).map (·.predicate)) =
      .ok ((run calls q).1.stored? place) := by
  induction calls generalizing q with
  | nil => rfl
  | cons c calls ih =>
    rw [run]
    rcases perform_run c q with ⟨q', happly, hrun⟩ | ⟨e, -, hrun⟩
    · obtain ⟨-, merged, hmerged, rfl⟩ := apply_eq_ok.mp happly
      simp only [hrun]
      rw [← ih, stored?_put]
      by_cases hplace : c.toPlace = place
      · subst hplace
        rw [List.filter_cons_of_pos (by simp), List.map_cons, mergedOnto, List.foldlM_cons, hmerged,
          if_pos rfl]
        rfl
      · rw [List.filter_cons_of_neg (by simpa using hplace), if_neg (Ne.symm hplace)]
    · simp only [hrun]
      exact ih q

end Calls

theorem Tidy.addCondition {q q' : Query Float} (h : q.Tidy) {owner property : String}
    {v : PropertyValue} (hadd : q.addCondition owner property v = .ok q') : q'.Tidy := by
  obtain ⟨predicate, -, hadd⟩ := Outcome.bind_eq_ok.mp hadd
  split at hadd
  · exact h.apply (c := ⟨⟨.node, owner, property⟩, predicate⟩) hadd
  · exact h.apply (c := ⟨⟨.relationship, owner, property⟩, predicate⟩) hadd

/-- Queries that are made of patterns, read from texts, or parts of others, with any calls that add
predicates in between. -/
inductive Reachable : Query Float → Prop
  | ofPattern (p : Pattern) : Reachable (ofPattern p)
  | parsed {pattern conditions q} (read : Query.parse pattern conditions = .ok q) : Reachable q
  | part {q k p} (whole : Reachable q) (mem : p ∈ q.parts k) : Reachable p
  | called {q} (before : Reachable q) (calls : List (Call Float)) : Reachable (run calls q).1

theorem Reachable.tidy {q : Query Float} (h : q.Reachable) : q.Tidy := by
  induction h with
  | ofPattern p => exact tidy_ofPattern p
  | parsed read =>
    exact parse_invariant read (fun p _ => tidy_ofPattern p)
      (fun _ _ _ _ _ hq hadd => hq.addCondition hadd)
  | part _ mem ih =>
    rw [parts] at mem
    split at mem
    · cases mem
    · split at mem
      · rwa [List.mem_singleton.mp mem]
      · obtain ⟨s, -, rfl⟩ := List.mem_map.mp mem
        exact ih.restrictedTo _
  | called _ calls ih => exact ih.run calls

/-- What a call does in place: it succeeds with the result of the call, or fails and leaves the
query as it was, because the owner is unknown or the predicate does not fit the one stored. -/
structure Atomic (q : Query Float) (c : Call Float) : Prop where
  succeeds : ∀ q', c.perform.run q = .ok () q' ↔ c.apply q = .ok q'
  fails : ∀ e q', c.perform.run q = .error e q' ↔ c.apply q = .error e ∧ q' = q
  reason : ∀ e, c.apply q = .error e ↔
    c.side.owns q.pattern c.owner = false ∧ e = .unboundVariable c.owner ∨
      c.side.owns q.pattern c.owner = true ∧
        ∃ existing, q.stored? c.toPlace = some existing ∧ existing.merge c.predicate = .error e

/-- What calls made of a query, given those that succeeded: each place has what these make of what
was there, in their order. -/
structure Accounted (q final : Query Float) (succeeded : List (Call Float)) : Prop where
  pattern : final.pattern = q.pattern
  tidy : final.Tidy
  stored : ∀ place,
    mergedOnto (q.stored? place) ((succeeded.filter (·.toPlace = place)).map (·.predicate)) =
      .ok (final.stored? place)

/-- Predicates are added completely or not at all, one by one and in any sequence. -/
theorem perform_atomic {q : Query Float} (h : q.Reachable) :
    (∀ c, q.Atomic c) ∧ ∀ calls, q.Accounted (run calls q).1 (run calls q).2 := by
  constructor
  · intro c
    refine ⟨fun q' => ?_, fun e q' => ?_, fun e => apply_eq_error⟩
    · rcases perform_run c q with ⟨q'', happly, hrun⟩ | ⟨e, happly, hrun⟩
      · simp [happly, hrun]
      · simp [happly, hrun]
    · rcases perform_run c q with ⟨q'', happly, hrun⟩ | ⟨e, happly, hrun⟩
      · simp [happly, hrun]
      · simp [happly, hrun, eq_comm]
  · intro calls
    exact ⟨run_pattern calls q, h.tidy.run calls, run_stored calls q⟩

/-- Two persons who know each other. -/
def acquaintance : Pattern := Pattern.empty.addRelationship "a" (some "knows") .outgoing "b"

/-- Of these calls the second does not fit the first, and the third has an unknown owner. -/
def callsOnAcquaintance : List (Call Float) :=
  [⟨⟨.node, "a", "name"⟩, .text "Ann"⟩, ⟨⟨.node, "a", "name"⟩, .text "Bob"⟩,
    ⟨⟨.node, "c", "name"⟩, .text "Cem"⟩, ⟨⟨.relationship, "a_b", "since"⟩, .text "May"⟩]

theorem perform_atomic_of_acquaintance :
    (ofPattern acquaintance).Reachable ∧ (∀ c, (ofPattern acquaintance).Atomic c) ∧
      (∀ calls, (ofPattern acquaintance).Accounted (run calls (ofPattern acquaintance)).1
        (run calls (ofPattern acquaintance)).2) ∧
      (run callsOnAcquaintance (ofPattern acquaintance)).2 =
        [⟨⟨.node, "a", "name"⟩, .text "Ann"⟩,
          ⟨⟨.relationship, "a_b", "since"⟩, .text "May"⟩] ∧
      (run callsOnAcquaintance (ofPattern acquaintance)).1.stored? ⟨.node, "a", "name"⟩ =
        some (.text "Ann") := by
  have h : (ofPattern acquaintance).Reachable := .ofPattern acquaintance
  obtain ⟨hatomic, haccounted⟩ := perform_atomic h
  exact ⟨h, hatomic, haccounted, rfl, rfl⟩

end PatternCardinality.Query
