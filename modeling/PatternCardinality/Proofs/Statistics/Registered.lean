import PatternCardinality.Number.Double
import PatternCardinality.Proofs.Statistics.Marginal

/-!
# Counts of registered types

The number of relationships of a type is the count between nodes with any labels. Entries give this
count when they set it or add to it. To register a type keeps its totals apart from all counts, so
that a total that is registered is not the number of relationships, unless other entries have given
the same number.
-/

namespace PatternCardinality.Statistics

variable {α : Type}

/-- All relationships of a type. -/
def RelationshipKey.total (t : TypeId) : RelationshipKey := ⟨anyLabel, t, anyLabel⟩

namespace Entry

def Registers (t : TypeId) : Entry α → Prop
  | type _ id _ => id = t
  | _ => False

/-- An entry that sets the count of a key. -/
def Fixes (k : RelationshipKey) : Entry α → Prop
  | relationships key _ => key = k
  | _ => False

/-- An entry that gives a key a count, be it set or added to. -/
def Gives (k : RelationshipKey) : Entry α → Prop
  | relationships key _ => key = k
  | addRelationships key _ => k.Covers key
  | _ => False

def addition? : Entry α → Option (Addition α)
  | addRelationships key count => some (key, count)
  | _ => none

/-- The count of a key after an entry. -/
def recount [Scalar α] (k : RelationshipKey) (count : α) : Entry α → α
  | relationships key given => if key = k then given else count
  | addRelationships key given => if k.Covers key then count + given else count
  | _ => count

theorem recount_of_not_gives [Scalar α] {k : RelationshipKey} {e : Entry α} (h : ¬e.Gives k)
    (count : α) : e.recount k count = count := by
  cases e with
  | relationships key given => exact if_neg h
  | addRelationships key given => exact if_neg h
  | _ => rfl

end Entry

namespace Store

variable [Scalar α] {k : RelationshipKey} {entries : List (Entry α)}

/-- What entries add at a key to the count it has, where none of them sets that. -/
def increased (k : RelationshipKey) (entries : List (Entry α)) (count : α) : α :=
  (addedAt k (entries.filterMap Entry.addition?)).foldl (· + ·) count

/-- Each entry changes the count of a key as `recount` says. -/
theorem relationshipCount_enter_eq_recount (s : Store α) (e : Entry α) (b : LabelId) (t : TypeId)
    (w : LabelId) : (s.enter e).relationshipCount b t w =
      e.recount ⟨b, t, w⟩ (s.relationshipCount b t w) := by
  cases e with
  | relationships key given =>
    simp only [relationshipCount, enter, OrderedMap.getD, OrderedMap.get?_insert, Entry.recount,
      eq_comm (a := key)]
    split <;> rfl
  | addRelationships key given => exact relationshipCount_enter s (key, given) b t w
  | _ => rfl

theorem relationshipCount_foldl_enter (s : Store α) (b : LabelId) (t : TypeId) (w : LabelId) :
    (entries.foldl enter s).relationshipCount b t w =
      entries.foldl (Entry.recount ⟨b, t, w⟩) (s.relationshipCount b t w) := by
  induction entries generalizing s with
  | nil => rfl
  | cons e entries ih => rw [List.foldl_cons, ih, relationshipCount_enter_eq_recount, List.foldl_cons]

theorem foldl_recount_of_not_gives (h : ∀ e ∈ entries, ¬e.Gives k) (count : α) :
    entries.foldl (Entry.recount k) count = count := by
  induction entries with
  | nil => rfl
  | cons e entries ih =>
    obtain ⟨he, hentries⟩ := List.forall_mem_cons.mp h
    rw [List.foldl_cons, Entry.recount_of_not_gives he, ih hentries]

/-- Entries that do not set a count add to it. -/
theorem foldl_recount_of_not_fixes (h : ∀ e ∈ entries, ¬e.Fixes k) (count : α) :
    entries.foldl (Entry.recount k) count = increased k entries count := by
  induction entries generalizing count with
  | nil => rfl
  | cons e entries ih =>
    obtain ⟨he, hentries⟩ := List.forall_mem_cons.mp h
    rw [List.foldl_cons, ih hentries]
    cases e with
    | relationships key given => exact congrArg (increased k entries) (if_neg he)
    | addRelationships key given =>
      by_cases hcovers : k.Covers key
      · simp [Entry.recount, increased, Entry.addition?, addedAt, hcovers]
      · simp [Entry.recount, increased, Entry.addition?, addedAt, hcovers]
    | _ => rfl

theorem typeTotals?_foldl_enter {t : TypeId} (h : ∀ e ∈ entries, ¬e.Registers t) (s : Store α) :
    (entries.foldl enter s).typeTotals? t = s.typeTotals? t := by
  induction entries generalizing s with
  | nil => rfl
  | cons e entries ih =>
    obtain ⟨he, hentries⟩ := List.forall_mem_cons.mp h
    rw [List.foldl_cons, ih hentries]
    cases e with
    | type name id totals =>
      exact (OrderedMap.get?_insert _ _ _ _).trans (if_neg (fun heq => he heq.symm))
    | _ => rfl

/-- What is registered of a type last are its totals. They have no part in the number of its
relationships, which is that of the entries without the registration: the count that was set last,
or else the one from before, and what was added since. Where no later entry gives a count, it is the
total that was registered exactly if it was that before. -/
theorem typeCount_of_registered (nodeCount : α) (before : List (Entry α)) (name : String)
    (t : TypeId) (totals : TypeTotals α) (after : List (Entry α)) {s : Store α}
    (hs : build nodeCount (before ++ .type name t totals :: after) = s)
    (hlast : ∀ e ∈ after, ¬e.Registers t) :
    s.typeTotals? t = some totals ∧
      s.typeCount t = (build nodeCount (before ++ after)).typeCount t ∧
      (∀ since given rest, after = since ++ .relationships (.total t) given :: rest →
        (∀ e ∈ rest, ¬e.Fixes (.total t)) → s.typeCount t = increased (.total t) rest given) ∧
      ((∀ e ∈ after, ¬e.Fixes (.total t)) →
        s.typeCount t = increased (.total t) after ((build nodeCount before).typeCount t)) ∧
      ((∀ e ∈ after, ¬e.Gives (.total t)) →
        (s.typeCount t = totals.outgoing ↔
          (build nodeCount before).typeCount t = totals.outgoing)) := by
  have hcount : s.typeCount t =
      after.foldl (Entry.recount (.total t)) ((build nodeCount before).typeCount t) := by
    rw [← hs, build, List.foldl_append, List.foldl_cons]
    exact relationshipCount_foldl_enter _ _ _ _
  refine ⟨?_, ?_, ?_, ?_, ?_⟩
  · rw [← hs, build, List.foldl_append, List.foldl_cons, typeTotals?_foldl_enter hlast]
    exact (OrderedMap.get?_insert _ _ _ _).trans (if_pos rfl)
  · rw [hcount, build, build, List.foldl_append]
    exact (relationshipCount_foldl_enter _ _ _ _).symm
  · rintro since given rest rfl hrest
    rw [hcount, List.foldl_append, List.foldl_cons, Entry.recount, if_pos rfl,
      foldl_recount_of_not_fixes hrest]
  · intro hafter
    rw [hcount, foldl_recount_of_not_fixes hafter]
  · intro hafter
    rw [hcount, foldl_recount_of_not_gives hafter]

theorem typeCount_of_registered_twice :
    let s := build (10 : Float) [.type "KNOWS" 0 ⟨5, 5, 9, 5⟩, .addRelationships ⟨1, 0, 2⟩ 4,
      .type "KNOWS" 0 ⟨7, 7, 9, 7⟩, .relationships (.total 0) 2, .addRelationships ⟨1, 0, 1⟩ 3]
    s.typeTotals? 0 = some ⟨7, 7, 9, 7⟩ ∧ s.typeCount 0 = 5 := by
  intro s
  obtain ⟨htotals, -, hfixed, -⟩ := typeCount_of_registered (s := s) 10
    [.type "KNOWS" 0 ⟨5, 5, 9, 5⟩, .addRelationships ⟨1, 0, 2⟩ 4] "KNOWS" 0 ⟨7, 7, 9, 7⟩
    [.relationships (.total 0) 2, .addRelationships ⟨1, 0, 1⟩ 3] rfl (by simp [Entry.Registers])
  refine ⟨htotals, (hfixed [] 2 [.addRelationships ⟨1, 0, 1⟩ 3] rfl (by simp [Entry.Fixes])).trans ?_⟩
  decide +kernel

/-- A type that is registered with five relationships, and has none where no other entry gives a
count. -/
theorem typeCount_misses_registered :
    let s := build (10 : Float) [.type "KNOWS" 0 ⟨5, 5, 9, 5⟩]
    (∃ totals, s.typeTotals? 0 = some totals ∧ totals.outgoing = 5) ∧ s.typeCount 0 = 0 ∧
      ¬s.typeCount 0 = 5 := by
  refine ⟨⟨_, rfl, rfl⟩, ?_, ?_⟩ <;> decide +kernel

end Store

end PatternCardinality.Statistics
