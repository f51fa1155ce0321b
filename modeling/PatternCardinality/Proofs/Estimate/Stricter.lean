import PatternCardinality.Proofs.Estimate.Merged
import PatternCardinality.Proofs.Statistics.Histogram

/-!
# Further predicates

What predicates leave of a result is a power with as many factors as there are predicates, or the
least of one mean for each of them. All means are over the same candidates, which the result gives
and not the predicates. So each predicate that is added to others makes the power or the least no
larger, and the result neither, whatever the statistics say.
-/

namespace PatternCardinality.Estimate

variable {predicates predicates' : PropertyPredicates ℚ} {fixed : Option ℚ}

section Least

/-- The bound that is left of numbers is the least of them. -/
theorem foldl_least_eq {means : List ℚ} {m : ℚ} (h : means.min? = some m) :
    means.foldl (fun b m => b.least (Scalar.toBound m)) Bound.highest = .number m := by
  cases means with
  | nil => cases h
  | cons x means =>
    rw [List.min?_cons', Option.some_inj] at h
    have hfirst : Bound.highest.least (Scalar.toBound x) = Bound.number x := by
      simp [Bound.least, Bound.lt, Bound.isNaN, Scalar.toBound]
    rw [List.foldl_cons, hfirst, ← h]
    exact List.foldl_hom Bound.number Statistics.Histogram.least_number

variable {candidates : List Int32} {selectivity : Int32 → PropertyId → Predicate ℚ → ℚ}

theorem combinedSelectivity_isLeast (h : predicates.isEmpty = false) :
    IsLeast {m | ∃ k q, predicates.get? k = some q ∧
      meanSelectivity (fun c => selectivity c k q) candidates = m}
        (combinedSelectivity candidates predicates selectivity).1 := by
  have hmem : ∀ m, m ∈ predicates.entries.map
      (fun e => meanSelectivity (fun c => selectivity c e.1 e.2) candidates) ↔
        ∃ k q, predicates.get? k = some q ∧
          meanSelectivity (fun c => selectivity c k q) candidates = m := by
    simp only [List.mem_map, Prod.exists, OrderedMap.mem_entries_iff, implies_true]
  have hnonempty : predicates.entries.map
      (fun e => meanSelectivity (fun c => selectivity c e.1 e.2) candidates) ≠ [] := by
    rw [ne_eq, List.map_eq_nil_iff, ← List.isEmpty_iff]
    exact Bool.not_eq_true _ ▸ h
  obtain ⟨m, hm⟩ := Option.isSome_iff_exists.mp (List.isSome_min?_of_ne_nil hnonempty)
  have hleast : (combinedSelectivity candidates predicates selectivity).1 = m := by
    simp only [combinedSelectivity, foldl_least_eq hm]
    rfl
  rw [hleast]
  obtain ⟨hfound, hbound⟩ := List.min?_eq_some_iff.mp hm
  exact ⟨(hmem m).mp hfound, fun x hx => hbound x ((hmem x).mpr hx)⟩

theorem combinedSelectivity_antitone (h : predicates.isEmpty = false)
    (hmore : predicates.Within predicates') :
    (combinedSelectivity candidates predicates' selectivity).1 ≤
      (combinedSelectivity candidates predicates selectivity).1 := by
  refine (combinedSelectivity_isLeast h).mono (combinedSelectivity_isLeast (hmore.isEmpty_eq h)) ?_
  rintro m ⟨k, q, hq, rfl⟩
  exact ⟨k, q, hmore k q hq, rfl⟩

end Least

theorem power_antitone {s : ℚ} (hs : 0 ≤ s ∧ s ≤ 1) (hmore : predicates.Within predicates') :
    Scalar.power s predicates'.size ≤ Scalar.power s predicates.size := by
  rw [Scalar.power_rat, Scalar.power_rat]
  exact pow_le_pow_of_le_one hs.1 hs.2 hmore.size_le

section Selection

variable [Statistics.NumberHash ℚ] {db : Database ℚ}

section Reduction

variable (hfixed : ∀ s, fixed = some s → 0 ≤ s ∧ s ≤ 1) (h : predicates.isEmpty = false)
  (hmore : predicates.Within predicates')

include hfixed h hmore

theorem nodeReduction_antitone (shares : LabelShares ℚ) :
    (nodeReduction db shares predicates' fixed).1 ≤
      (nodeReduction db shares predicates fixed).1 := by
  have hdefault : (0 : ℚ) ≤ defaultSelectivity ∧ defaultSelectivity ≤ (1 : ℚ) := by decide +kernel
  simp only [nodeReduction]
  split
  · exact power_antitone hdefault hmore
  · cases fixed with
    | some s => exact power_antitone (hfixed s rfl) hmore
    | none => exact combinedSelectivity_antitone h hmore

theorem relationshipReduction_antitone (types : TypeSet) :
    (relationshipReduction db types predicates' fixed).1 ≤
      (relationshipReduction db types predicates fixed).1 := by
  cases fixed with
  | some s => exact power_antitone (hfixed s rfl) hmore
  | none => exact combinedSelectivity_antitone h hmore

end Reduction

section Size

variable (db) {p : Profile ℚ} {v : String}
  (hapart : ∀ v, p.isNode v = true → p.isRelationship v = false)

include hapart

theorem selectProperties_node {shares : LabelShares ℚ} (hshares : p.nodes.get? v = some shares)
    (h : predicates.isEmpty = false) (fixed : Option ℚ) :
    ∃ r, selectProperties db v predicates fixed p = .ok r ∧
      r.size = p.size * (nodeReduction db shares predicates fixed).1 := by
  have hnode : p.isNode v = true := OrderedMap.contains_iff.mpr ⟨shares, hshares⟩
  obtain ⟨r, hr, -⟩ :=
    selectProperties_binds_node db (Profile.binds_of_apart hapart) hnode h fixed
  refine ⟨r, hr, ?_⟩
  rcases (selectProperties_eq_ok hr).2 with ⟨shares', hshares', rfl⟩ | ⟨types, htypes, -, -⟩
  · cases hshares.symm.trans hshares'
    rfl
  · have hrelationship : p.isRelationship v = true := OrderedMap.contains_iff.mpr ⟨types, htypes⟩
    rw [hapart v hnode] at hrelationship
    cases hrelationship

theorem selectProperties_relationship {types : TypeSet} (htypes : p.types? v = some types)
    (hne : types.isEmpty = false) (h : predicates.isEmpty = false) (fixed : Option ℚ) :
    ∃ r, selectProperties db v predicates fixed p = .ok r ∧
      r.size = p.size * (relationshipReduction db types predicates fixed).1 := by
  have hrelationship : p.isRelationship v = true := OrderedMap.contains_iff.mpr ⟨types, htypes⟩
  obtain ⟨r, hr, -⟩ := selectProperties_binds_relationship db
    (Profile.binds_of_apart hapart) hrelationship htypes hne h fixed
  refine ⟨r, hr, ?_⟩
  rcases (selectProperties_eq_ok hr).2 with ⟨shares, hshares, -⟩ | ⟨types', htypes', -, rfl⟩
  · rw [hapart v (OrderedMap.contains_iff.mpr ⟨shares, hshares⟩)] at hrelationship
    cases hrelationship
  · cases htypes.symm.trans htypes'
    rfl

/-- Predicates that are added to others never leave more matches, at a node variable or at a
relationship variable that has types. -/
theorem selectProperties_antitone (hsize : 0 ≤ p.size)
    (hbound : p.isNode v = true ∨ ∃ types, p.types? v = some types ∧ types.isEmpty = false)
    (hfixed : ∀ s, fixed = some s → 0 ≤ s ∧ s ≤ 1) (h : predicates.isEmpty = false)
    (hmore : predicates.Within predicates') :
    ∃ r r', selectProperties db v predicates fixed p = .ok r ∧
      selectProperties db v predicates' fixed p = .ok r' ∧ r'.size ≤ r.size := by
  have h' := hmore.isEmpty_eq h
  rcases hbound with hnode | ⟨types, htypes, hne⟩
  · obtain ⟨shares, hshares⟩ := OrderedMap.contains_iff.mp hnode
    obtain ⟨r, hr, hsize_r⟩ := selectProperties_node db hapart hshares h fixed
    obtain ⟨r', hr', hsize_r'⟩ := selectProperties_node db hapart hshares h' fixed
    refine ⟨r, r', hr, hr', ?_⟩
    rw [hsize_r, hsize_r']
    exact mul_le_mul_of_nonneg_left (nodeReduction_antitone hfixed h hmore shares) hsize
  · obtain ⟨r, hr, hsize_r⟩ := selectProperties_relationship db hapart htypes hne h fixed
    obtain ⟨r', hr', hsize_r'⟩ :=
      selectProperties_relationship db hapart htypes hne h' fixed
    refine ⟨r, r', hr, hr', ?_⟩
    rw [hsize_r, hsize_r']
    exact mul_le_mul_of_nonneg_left (relationshipReduction_antitone hfixed h hmore types) hsize

end Size

end Selection

/-- Persons with a name and, some of them, an age, and how long some of them know each other. -/
def club : Database ℚ :=
  ⟨⟨Statistics.Store.build 20 [.label "Person" 0 10, .addRelationships ⟨0, 0, 0⟩ 8,
    .labelProperty ⟨0, 0⟩ ⟨10, 5, 0, .singleton 65 (1 / 2), []⟩,
    .labelProperty ⟨0, 1⟩ ⟨5, 4, 5, ∅, [0, 20, 20, 60]⟩,
    .typeProperty ⟨0, 1⟩ ⟨4, 4, 4, ∅, [1, 3, 9]⟩], false⟩, .disjoint [0]⟩

/-- A person, and a relationship of the only type. -/
def enrolled : Profile ℚ :=
  ⟨.singleton "a" (.singleton 0 1), .singleton "r" (.singleton 0), 8, false⟩

/-- From two to thirty. -/
def byAge : PropertyPredicates ℚ := .singleton 1 (.range (.number 2) (.number 30))

/-- Named by one letter as well. -/
def byAgeAndName : PropertyPredicates ℚ := byAge.insert 0 (.text "A")

/-- The name selects fewer persons than the age does, and of the relationships half of a half are
fewer than a half. -/
theorem selectProperties_antitone_club : ∃ _ : Statistics.NumberHash ℚ,
    (∃ r r', selectProperties club "a" byAge none enrolled = .ok r ∧
      selectProperties club "a" byAgeAndName none enrolled = .ok r' ∧
      r'.size ≤ r.size) ∧
    ∃ r r', selectProperties club "r" byAge (some (1 / 2)) enrolled = .ok r ∧
      selectProperties club "r" byAgeAndName (some (1 / 2)) enrolled = .ok r' ∧
      r'.size ≤ r.size := by
  let hash : Statistics.NumberHash ℚ := ⟨fun _ => 0⟩
  have hsize : 0 ≤ enrolled.size := by decide +kernel
  have hwithin : byAge.Within byAgeAndName := .insert (by decide +kernel) _
  have hapart : ∀ v, enrolled.isNode v = true → enrolled.isRelationship v = false := by
    intro v hv
    have hname : v = "a" := by
      by_contra hne
      simp [enrolled, Profile.isNode, OrderedMap.contains, OrderedMap.get?_singleton, hne] at hv
    rw [hname]
    decide +kernel
  have hnone : ∀ s, (none : Option ℚ) = some s → 0 ≤ s ∧ s ≤ 1 := by simp
  have hshare : ∀ s, (some (1 / 2) : Option ℚ) = some s → 0 ≤ s ∧ s ≤ 1 := by
    intro s hs
    cases hs
    decide +kernel
  refine ⟨hash, ?_, ?_⟩
  · exact selectProperties_antitone club hapart hsize (.inl (by decide +kernel)) hnone
      (by decide +kernel) hwithin
  · exact selectProperties_antitone club hapart hsize
      (.inr ⟨.singleton 0, by decide +kernel, by decide +kernel⟩) hshare (by decide +kernel) hwithin

end PatternCardinality.Estimate
