import PatternCardinality.Plan.Chain
import PatternCardinality.Proofs.Query.Part
import PatternCardinality.Proofs.Query.WellFormed

/-!
# Names of relationships

Predicates are kept by the name of their relationship, which is made of its ends. Doubling the
underscores of the ends does not separate them entirely: the separator is an underscore too, so
that a pair of them can be read on either side of it. Apart from such underscores a name tells
the ends, and a predicate reaches no relationship whose ends differ otherwise.
-/

namespace PatternCardinality

namespace Relationship

/-- The ends of `r'` are those of `r`, with `n` underscores moved from the beginning of the target
to the end of the source. -/
def Shifts (n : ℕ) (r r' : Relationship) : Prop :=
  r'.source.toList = r.source.toList ++ List.replicate n '_' ∧
    r.target.toList = List.replicate n '_' ++ r'.target.toList

/-- The ends are the same apart from underscores next to the separator. -/
def Confusable (r r' : Relationship) : Prop := ∃ n, r.Shifts n r' ∨ r'.Shifts n r

/-- Names with every underscore doubled. -/
def twice (s : List Char) : List Char := s.flatMap (fun c => if c = '_' then ['_', '_'] else [c])

@[simp] theorem twice_nil : twice [] = [] := rfl

@[simp] theorem twice_underscore (s : List Char) : twice ('_' :: s) = '_' :: '_' :: twice s := rfl

theorem twice_cons {c : Char} (hc : c ≠ '_') (s : List Char) : twice (c :: s) = c :: twice s := by
  simp [twice, hc]

/-- A text that begins with an underscore when doubled begins with one. -/
theorem eq_cons_of_twice_eq_cons {s t : List Char} (h : twice s = '_' :: t) :
    ∃ s', s = '_' :: s' ∧ t = '_' :: twice s' := by
  cases s with
  | nil => cases h
  | cons c s =>
    by_cases hc : c = '_'
    · subst hc
      exact ⟨s, rfl, (List.cons.inj h).2.symm⟩
    · rw [twice_cons hc] at h
      exact absurd (List.cons.inj h).1 hc

theorem twice_injective : Function.Injective twice := by
  intro s
  induction s with
  | nil =>
    intro t h
    cases t with
    | nil => rfl
    | cons d t => by_cases hd : d = '_' <;> simp [twice, hd] at h
  | cons c s ih =>
    intro t h
    by_cases hc : c = '_'
    · subst hc
      obtain ⟨t, rfl, ht⟩ := eq_cons_of_twice_eq_cons h.symm
      rw [ih (List.cons.inj ht).2]
    · cases t with
      | nil => simp [twice_cons hc] at h
      | cons d t =>
        rw [twice_cons hc] at h
        by_cases hd : d = '_'
        · subst hd
          exact absurd (List.cons.inj h).1 hc
        · rw [twice_cons hd] at h
          obtain ⟨rfl, hrest⟩ := List.cons.inj h
          rw [ih hrest]

/-- Pairs of underscores pass the separator. -/
theorem twice_replicate_append (n : ℕ) (s t : List Char) :
    twice (s ++ List.replicate n '_') ++ '_' :: twice t =
      twice s ++ '_' :: twice (List.replicate n '_' ++ t) := by
  induction n generalizing t with
  | zero => simp
  | succ n ih =>
    have hlast : List.replicate (n + 1) '_' = List.replicate n '_' ++ ['_'] :=
      List.replicate_succ' ..
    have hpass : twice (s ++ List.replicate (n + 1) '_') ++ '_' :: twice t =
        twice (s ++ List.replicate n '_') ++ '_' :: twice ('_' :: t) := by
      rw [hlast, ← List.append_assoc]
      simp [twice]
    rw [hpass, ih ('_' :: t), hlast, List.append_assoc, List.singleton_append]

/-- Where nothing stands before the separator, only underscores can stand before another one. -/
theorem eq_replicate_of_twice_eq {s t u : List Char}
    (h : '_' :: twice t = twice s ++ '_' :: twice u) :
    ∃ n, s = List.replicate n '_' ∧ t = List.replicate n '_' ++ u := by
  induction s generalizing t with
  | nil => exact ⟨0, rfl, twice_injective (List.cons.inj h).2⟩
  | cons c s ih =>
    by_cases hc : c = '_'
    · subst hc
      obtain ⟨t, rfl, ht⟩ := eq_cons_of_twice_eq_cons (List.cons.inj h).2
      obtain ⟨n, hs, hu⟩ := ih ht.symm
      exact ⟨n + 1, congrArg _ hs, congrArg _ hu⟩
    · rw [twice_cons hc] at h
      exact absurd (List.cons.inj h).1.symm hc

/-- Two texts in doubled form around a separator, read from the left. -/
theorem twice_append_eq_iff {s t s' t' : List Char} :
    twice s ++ '_' :: twice t = twice s' ++ '_' :: twice t' ↔
      ∃ n, (s' = s ++ List.replicate n '_' ∧ t = List.replicate n '_' ++ t') ∨
        (s = s' ++ List.replicate n '_' ∧ t' = List.replicate n '_' ++ t) := by
  constructor
  · intro h
    induction s generalizing s' with
    | nil =>
      obtain ⟨n, hs, ht⟩ := eq_replicate_of_twice_eq h
      exact ⟨n, .inl ⟨hs, ht⟩⟩
    | cons c s ih =>
      cases s' with
      | nil =>
        obtain ⟨n, hs, ht⟩ := eq_replicate_of_twice_eq h.symm
        exact ⟨n, .inr ⟨hs, ht⟩⟩
      | cons d s' =>
        have hhead : c = d ∧ twice s ++ '_' :: twice t = twice s' ++ '_' :: twice t' := by
          by_cases hc : c = '_' <;> by_cases hd : d = '_'
          · subst hc hd
            exact ⟨rfl, by simpa using h⟩
          · subst hc
            rw [twice_cons hd] at h
            exact absurd (List.cons.inj h).1.symm hd
          · subst hd
            rw [twice_cons hc] at h
            exact absurd (List.cons.inj h).1 hc
          · rw [twice_cons hc, twice_cons hd] at h
            exact List.cons.inj h
        obtain ⟨rfl, hrest⟩ := hhead
        obtain ⟨n, ⟨hs, ht⟩ | ⟨hs, ht⟩⟩ := ih hrest
        · exact ⟨n, .inl ⟨congrArg _ hs, ht⟩⟩
        · exact ⟨n, .inr ⟨congrArg _ hs, ht⟩⟩
  · rintro ⟨n, ⟨rfl, rfl⟩ | ⟨rfl, rfl⟩⟩
    · exact (twice_replicate_append n s t').symm
    · exact twice_replicate_append n s' t

/-- A name tells the ends apart from underscores next to the separator. -/
theorem name_eq_iff {r r' : Relationship} : r.name = r'.name ↔ r.Confusable r' := by
  have hname : ∀ r : Relationship,
      r.name.toList = twice r.source.toList ++ '_' :: twice r.target.toList := fun r =>
    String.toList_ofList
  rw [← String.toList_inj, hname, hname, twice_append_eq_iff]
  rfl

end Relationship

namespace Query

open Plan

variable {α : Type} [Scalar α] {q q' : Query α} {owner property : String} {predicate : Predicate α}

/-- An added predicate leaves the other owners alone. -/
theorem get?_added {table table' : OrderedMap String (Predicates α)}
    (h : added table owner property predicate = .ok table') {other : String} (hne : other ≠ owner) :
    table'.get? other = table.get? other := by
  obtain ⟨merged, rfl, -⟩ := added_eq_ok h
  rw [OrderedMap.get?_insert, if_neg hne]

/-- The steps of a relationship with another name stay as they are. -/
theorem expandSteps_added (h : q.addRelationshipPredicate owner property predicate = .ok q')
    {r : Relationship} (hr : owner ≠ r.name) (c : Planner α) (base : String)
    (direction : Direction) (e target : String) :
    c.expandSteps q' r base direction e target = c.expandSteps q r base direction e target := by
  obtain ⟨-, table, htable, rfl⟩ := addRelationshipPredicate_eq_ok h
  rw [Planner.expandSteps, Planner.expandSteps, relationshipPredicates?, relationshipPredicates?,
    predicates?, predicates?, get?_added htable hr.symm]

/-- A restriction that keeps no relationship of the name loses the predicate. -/
theorem restrictedTo_added (h : q.addRelationshipPredicate owner property predicate = .ok q')
    {keep : OrderedSet String}
    (hkeep : ∀ r ∈ (q'.restrictedTo keep).pattern.relationships, owner ≠ r.name) :
    q'.restrictedTo keep = q.restrictedTo keep := by
  obtain ⟨-, table, htable, rfl⟩ := addRelationshipPredicate_eq_ok h
  simp only [restrictedTo, Query.mk.injEq, true_and]
  refine OrderedMap.ext (fun name => ?_)
  rw [OrderedMap.get?_filter_key, OrderedMap.get?_filter_key]
  refine ite_congr rfl (fun hname => get?_added htable ?_) (fun _ => rfl)
  rintro rfl
  obtain ⟨r, hr, hrname⟩ := List.mem_map.mp (OrderedSet.mem_ofList.mp hname)
  exact hkeep r hr hrname.symm

/-- A part with no relationship of the name is a part of the query without the predicate. -/
theorem parts_added (h : q.addRelationshipPredicate owner property predicate = .ok q') {k : ℕ}
    {part : Query α} (hpart : part ∈ q'.parts k)
    (hnames : ∀ r ∈ part.pattern.relationships, owner ≠ r.name) : part ∈ q.parts k := by
  have hpattern : q'.pattern = q.pattern := by
    obtain ⟨-, table, -, rfl⟩ := addRelationshipPredicate_eq_ok h
    rfl
  obtain ⟨r, hr, hname⟩ := (addRelationshipPredicate_eq_ok h).1
  have hsorted : q'.sortedNames = q.sortedNames := by rw [sortedNames, sortedNames, hpattern]
  simp only [parts, placedEdges, hsorted, hpattern] at hpart ⊢
  split at hpart
  · cases hpart
  split at hpart
  · -- the part with all node variables has the relationship itself
    rw [List.mem_singleton] at hpart
    subst hpart
    rw [hpattern] at hnames
    exact absurd hname.symm (hnames r hr)
  · next hsome hall =>
    obtain ⟨s, hs, rfl⟩ := List.mem_map.mp hpart
    rw [if_neg hsome, if_neg hall, restrictedTo_added h hnames]
    exact List.mem_map.mpr ⟨s, hs, rfl⟩

/-- Names of relationships tell their ends apart from underscores next to the separator, and a
predicate that is added to a relationship is neither applied to, nor kept for, one whose ends
differ otherwise. -/
theorem name_identifies :
    (∀ r r' : Relationship, r.name = r'.name ↔ r.Confusable r') ∧
      ∀ (q q' : Query α) (r : Relationship) (property : String) (predicate : Predicate α),
        q.addRelationshipPredicate r.name property predicate = .ok q' →
          (∀ r' : Relationship, ¬r.Confusable r' →
            ∀ (c : Planner α) (base : String) (direction : Direction) (e target : String),
              c.expandSteps q' r' base direction e target =
                c.expandSteps q r' base direction e target) ∧
          ∀ (k : ℕ), ∀ part ∈ q'.parts k,
            (∀ r' ∈ part.pattern.relationships, ¬r.Confusable r') → part ∈ q.parts k := by
  refine ⟨fun r r' => Relationship.name_eq_iff, fun q q' r property predicate h => ⟨?_, ?_⟩⟩
  · intro r' hr' c base direction e target
    exact expandSteps_added h (mt Relationship.name_eq_iff.mp hr') c base direction e target
  · intro k part hpart hother
    exact parts_added h hpart (fun r' hr' => mt Relationship.name_eq_iff.mp (hother r' hr'))

/-- Relationships from `a` to `_b`, from `a_` to `b` and from `a` to `c`. -/
def underscored : Query Float :=
  ofPattern (((Pattern.empty.addRelationship "a" none .outgoing "_b").addRelationship
    "a_" none .outgoing "b").addRelationship "a" none .outgoing "c")

/-- The relationships with a condition on the one from `a` to `_b`. -/
def underscoredAnn : Query Float :=
  { underscored with relationshipPredicates := .singleton "a___b" (.singleton "p" (.text "Ann")) }

/-- The condition reaches neither the relationship from `a` to `c` nor the part with that one
alone. -/
theorem name_identifies_underscored :
    underscored.addRelationshipPredicate (⟨"a", "_b", none, true⟩ : Relationship).name "p"
        (.text "Ann") = .ok underscoredAnn ∧
      (∀ (c : Planner Float) (base : String) (direction : Direction) (e target : String),
        c.expandSteps underscoredAnn ⟨"a", "c", none, true⟩ base direction e target =
          c.expandSteps underscored ⟨"a", "c", none, true⟩ base direction e target) ∧
      underscoredAnn.restrictedTo (OrderedSet.ofList ["a", "c"]) ∈ underscoredAnn.parts 2 ∧
      underscoredAnn.restrictedTo (OrderedSet.ofList ["a", "c"]) ∈ underscored.parts 2 := by
  have hadd : underscored.addRelationshipPredicate
      (⟨"a", "_b", none, true⟩ : Relationship).name "p" (.text "Ann") = .ok underscoredAnn := rfl
  have hother : ¬(⟨"a", "_b", none, true⟩ : Relationship).Confusable ⟨"a", "c", none, true⟩ :=
    mt Relationship.name_eq_iff.mpr (by decide)
  have hpart : underscoredAnn.restrictedTo (OrderedSet.ofList ["a", "c"]) ∈
      underscoredAnn.parts 2 := List.mem_of_getElem? (i := 1) rfl
  obtain ⟨-, hreach⟩ := name_identifies (α := Float)
  obtain ⟨hsteps, hparts⟩ := hreach underscored underscoredAnn _ "p" (.text "Ann") hadd
  refine ⟨hadd, hsteps _ hother, hpart, hparts 2 _ hpart ?_⟩
  intro r' hr'
  rw [List.mem_singleton.mp (show r' ∈ [⟨"a", "c", none, true⟩] from hr')]
  exact hother

/-- The relationship from `a_` to `b` has the same name: the condition is applied to it, and kept
in the part with that one alone. -/
theorem name_confuses :
    ¬(∀ r r' : Relationship,
      (∀ v ∈ [r.source, r.target, r'.source, r'.target],
        v ≠ "" ∧ v.toList.all Pattern.isNameChar = true) →
      r.name = r'.name → r.source = r'.source ∧ r.target = r'.target) ∧
    underscored.addRelationshipPredicate (⟨"a", "_b", none, true⟩ : Relationship).name "p"
      (.text "Ann") = .ok underscoredAnn ∧
    (∀ (c : Planner Float) (base : String) (direction : Direction) (e target : String),
      c.expandSteps underscoredAnn ⟨"a_", "b", none, true⟩ base direction e target ≠
        c.expandSteps underscored ⟨"a_", "b", none, true⟩ base direction e target) ∧
    ∃ part ∈ underscoredAnn.parts 2,
      part.pattern.relationships = [⟨"a_", "b", none, true⟩] ∧
        part.relationshipPredicates = underscoredAnn.relationshipPredicates := by
  refine ⟨fun h => ?_, rfl, fun c base direction e target h => ?_, ?_⟩
  · have hends := h ⟨"a", "_b", none, true⟩ ⟨"a_", "b", none, true⟩ (by decide) (by decide)
    exact absurd hends.1 (by decide)
  · cases congrArg List.length h
  · exact ⟨underscoredAnn.restrictedTo (OrderedSet.ofList ["a_", "b"]),
      List.mem_of_getElem? (i := 2) rfl, rfl, rfl⟩

end Query

end PatternCardinality
