import PatternCardinality.Proofs.Number.Exact
import PatternCardinality.Proofs.Ordered.Map
import PatternCardinality.Statistics.Store

/-!
# Counts with wildcards are marginals

Relationships that are added count for their own key and for every key that puts wildcards into it,
also where the key has wildcards already. So the count of a key is the sum over the calls whose keys
it covers: each call counts once, and their order does not matter.
-/

namespace PatternCardinality.Statistics

namespace RelationshipKey

/-- A key covers another one that has the same parts, except where the first has wildcards. -/
def Covers (k c : RelationshipKey) : Prop :=
  (c.base = k.base ∨ k.base = anyLabel) ∧ (c.type = k.type ∨ k.type = anyType) ∧
    (c.target = k.target ∨ k.target = anyLabel)

instance (k c : RelationshipKey) : Decidable (k.Covers c) :=
  inferInstanceAs (Decidable (_ ∧ _ ∧ _))

theorem mem_orAny {any id i : Int32} : i ∈ orAny any id ↔ id = i ∨ i = any := by
  rw [orAny]
  split
  · next h => simp [h, eq_comm]
  · simp [eq_comm]

theorem nodup_orAny (any id : Int32) : (orAny any id).Nodup := by
  rw [orAny]
  split
  · exact List.nodup_singleton any
  · next h => simpa using h

theorem mem_generalizations {k c : RelationshipKey} : k ∈ c.generalizations ↔ k.Covers c := by
  obtain ⟨b, t, w⟩ := k
  simp only [generalizations, Covers, List.mem_flatMap, List.mem_map, mem_orAny, mk.injEq]
  constructor
  · rintro ⟨i, hi, j, hj, l, hl, rfl, rfl, rfl⟩
    exact ⟨hi, hj, hl⟩
  · rintro ⟨hb, ht, hw⟩
    exact ⟨b, hb, t, ht, w, hw, rfl, rfl, rfl⟩

/-- No key is a generalization twice, wherever the key that it generalizes has wildcards. -/
theorem nodup_generalizations (c : RelationshipKey) : c.generalizations.Nodup := by
  rw [generalizations]
  refine List.nodup_flatMap.mpr ⟨fun i _ => List.nodup_flatMap.mpr ⟨fun j _ => ?_, ?_⟩, ?_⟩
  · refine (nodup_orAny anyLabel c.target).map (fun l l' h => ?_)
    exact congrArg target h
  · refine (nodup_orAny anyType c.type).imp (fun hne => ?_)
    simp only [Function.onFun, List.disjoint_left, List.mem_map]
    rintro k ⟨l, -, rfl⟩ ⟨l', -, h⟩
    exact hne (congrArg type h).symm
  · refine (nodup_orAny anyLabel c.base).imp (fun hne => ?_)
    simp only [Function.onFun, List.disjoint_left, List.mem_flatMap, List.mem_map]
    rintro k ⟨j, -, l, -, rfl⟩ ⟨j', -, l', -, h⟩
    exact hne (congrArg base h).symm

end RelationshipKey

/-- A relationship key with the number of relationships to add. -/
abbrev Addition (α : Type) := RelationshipKey × α

namespace Store

variable {α : Type} [Scalar α]

/-- The store that is built by adding relationships alone. -/
def ofAdditions (nodeCount : α) (calls : List (Addition α)) : Store α :=
  build nodeCount (calls.map (fun c => .addRelationships c.1 c.2))

/-- What a list of calls adds at one key. -/
def addedAt (k : RelationshipKey) (calls : List (Addition α)) : List α :=
  (calls.filter (fun c => k.Covers c.1)).map Prod.snd

/-- Each key of a list in which none stands twice is increased once. -/
theorem getD_foldl_increase {keys : List RelationshipKey} (h : keys.Nodup) (count : α)
    (counts : OrderedMap RelationshipKey α) (k : RelationshipKey) :
    (keys.foldl (fun counts k => increase counts count k) counts).getD k 0 =
      if k ∈ keys then counts.getD k 0 + count else counts.getD k 0 := by
  induction keys generalizing counts with
  | nil => rfl
  | cons j keys ih =>
    obtain ⟨hj, hkeys⟩ := List.nodup_cons.mp h
    rw [List.foldl_cons, ih hkeys]
    by_cases hk : k = j
    · subst hk
      simp [hj, increase, OrderedMap.getD, OrderedMap.get?_insert]
    · simp [hk, increase, OrderedMap.getD, OrderedMap.get?_insert]

/-- A call adds its count to the keys that cover its own one, and to no other. -/
theorem relationshipCount_enter (s : Store α) (c : Addition α) (b : LabelId) (t : TypeId)
    (w : LabelId) : (s.enter (.addRelationships c.1 c.2)).relationshipCount b t w =
      if RelationshipKey.Covers ⟨b, t, w⟩ c.1 then s.relationshipCount b t w + c.2
      else s.relationshipCount b t w := by
  simp only [enter, relationshipCount,
    getD_foldl_increase c.1.nodup_generalizations c.2 s.relationshipCounts,
    RelationshipKey.mem_generalizations]

/-- Calls add up at a key in their order. -/
theorem relationshipCount_ofAdditions (nodeCount : α) (calls : List (Addition α)) (b : LabelId)
    (t : TypeId) (w : LabelId) : (ofAdditions nodeCount calls).relationshipCount b t w =
      (addedAt ⟨b, t, w⟩ calls).foldl (· + ·) 0 := by
  -- the calls from any store on, and an empty store has no relationships
  have hfrom : ∀ s : Store α,
      ((calls.map (fun c => Entry.addRelationships c.1 c.2)).foldl enter s).relationshipCount b t w =
        (addedAt ⟨b, t, w⟩ calls).foldl (· + ·) (s.relationshipCount b t w) := by
    induction calls with
    | nil => exact fun s => rfl
    | cons c calls ih =>
      intro s
      rw [List.map_cons, List.foldl_cons, ih, relationshipCount_enter]
      by_cases hcovers : RelationshipKey.Covers ⟨b, t, w⟩ c.1
      · simp [addedAt, hcovers]
      · simp [addedAt, hcovers]
  exact hfrom (empty nodeCount)

/-- The count of a key is the sum over the calls with its parts, any part serving where the key has
a wildcard, whatever the order of the calls. -/
theorem relationshipCount_marginal (nodeCount : ℚ) (calls : List (Addition ℚ)) (b : LabelId)
    (t : TypeId) (w : LabelId) :
    (ofAdditions nodeCount calls).relationshipCount b t w =
        ((calls.filter (fun c => (c.1.base = b ∨ b = anyLabel) ∧ (c.1.type = t ∨ t = anyType) ∧
          (c.1.target = w ∨ w = anyLabel))).map Prod.snd).sum ∧
      ∀ reordered : List (Addition ℚ), reordered.Perm calls →
        (ofAdditions nodeCount reordered).relationshipCount b t w =
          (ofAdditions nodeCount calls).relationshipCount b t w := by
  have hsum : ∀ calls : List (Addition ℚ),
      (ofAdditions nodeCount calls).relationshipCount b t w = (addedAt ⟨b, t, w⟩ calls).sum := by
    intro calls
    rw [relationshipCount_ofAdditions, List.sum_eq_foldl]
  refine ⟨hsum calls, fun reordered h => ?_⟩
  rw [hsum, hsum]
  exact ((h.filter _).map Prod.snd).sum_eq

theorem relationshipCount_marginal_wildcard_target :
    let calls : List (Addition ℚ) := [(⟨3, 5, anyLabel⟩, 2), (⟨3, 5, 7⟩, 4), (⟨3, 6, 7⟩, 1)]
    (ofAdditions 10 calls).relationshipCount 3 5 anyLabel = 6 ∧ calls.reverse.Perm calls ∧
      (ofAdditions 10 calls.reverse).relationshipCount 3 5 anyLabel = 6 := by
  intro calls
  obtain ⟨hsum, horder⟩ := relationshipCount_marginal 10 calls 3 5 anyLabel
  have hsix := hsum.trans (show _ = (6 : ℚ) by decide +kernel)
  exact ⟨hsix, calls.reverse_perm, (horder _ calls.reverse_perm).trans hsix⟩

end Store

end PatternCardinality.Statistics
