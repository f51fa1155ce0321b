import Mathlib.Data.Finset.Max
import PatternCardinality.Proofs.Estimate.Merged

/-!
# The degree as a mean

The number of relationships per match is estimated by the degrees of the labels among which the walk
divides the mass of the base, and by that of any node for the mass that no label receives. No part
is negative and the parts are together one, so the estimate is a mean of these degrees, whatever
shares the base has: it lies between the least and the greatest of them.
-/

namespace PatternCardinality.Estimate

open Labels Statistics

namespace Walk

variable {n : ℕ} {w : Walk ℚ n} {i : Fin n}

/-- The mass of a walk, weighted by label and by `x` where no label received it. -/
def mean (w : Walk ℚ n) (i : Fin n) (f : LabelId → ℚ) (x : ℚ) : ℚ :=
  weight i f w.visits + w.rest.get i * x

theorem mean_const (hone : weight i (fun _ => 1) w.visits + w.rest.get i = 1) (x : ℚ) :
    w.mean i (fun _ => x) x = x := by
  have hweight : weight i (fun _ => x) w.visits = weight i (fun _ => 1) w.visits * x := by
    simp only [weight, mul_one, List.sum_map_mul_right]
  rw [mean, hweight, ← add_mul, hone, one_mul]

theorem mean_mono (hw : w.Nonneg) {f g : LabelId → ℚ} {x y : ℚ}
    (hfg : ∀ v ∈ w.visits, f v.label ≤ g v.label) (hxy : x ≤ y) : w.mean i f x ≤ w.mean i g y := by
  refine add_le_add (List.sum_le_sum (fun v hv => ?_)) ?_
  · exact mul_le_mul_of_nonneg_left (hfg v hv) (hw.mass v hv i)
  · exact mul_le_mul_of_nonneg_left hxy (hw.rest i)

end Walk

namespace Traversal

/-- The degrees towards a label, of any node and of the nodes with each label. -/
def degrees (t : Traversal ℚ) (target : LabelId) : Finset ℚ :=
  (insert anyLabel t.db.labels.toList.toFinset).image (t.degree · target)

variable {t : Traversal ℚ} {target l : LabelId}

theorem degrees_nonempty (t : Traversal ℚ) (target : LabelId) : (t.degrees target).Nonempty :=
  (Finset.insert_nonempty _ _).image _

def leastDegree (t : Traversal ℚ) (target : LabelId) : ℚ :=
  (t.degrees target).min' (t.degrees_nonempty target)

def greatestDegree (t : Traversal ℚ) (target : LabelId) : ℚ :=
  (t.degrees target).max' (t.degrees_nonempty target)

theorem degree_mem (hl : l = anyLabel ∨ l ∈ t.db.labels) :
    t.degree l target ∈ t.degrees target := by
  refine Finset.mem_image_of_mem _ (Finset.mem_insert.mpr (hl.imp_right (fun hl => ?_)))
  exact List.mem_toFinset.mpr hl

/-- The estimated degree is a mean of degrees. -/
theorem degreeTo_between (t : Traversal ℚ) (shares : LabelShares ℚ) (target : LabelId) :
    t.leastDegree target ≤ t.degreeTo shares target ∧
      t.degreeTo shares target ≤ t.greatestDegree target := by
  have hnonneg : (t.massOf shares).Nonneg := Walk.complete_nonneg _ _ _
  have hlabel : ∀ v ∈ (t.massOf shares).visits, v.label ∈ t.db.labels :=
    Walk.complete_label (fun _ _ => mem_sortByEvidence.mp)
  have hone := Walk.complete_conserved t.db.distribution
    (fun group => sortByEvidence t.db shares.of group.toList) (fun _ : Fin 1 => shares.of) 0
  have hmean : t.degreeTo shares target =
      (t.massOf shares).mean 0 (t.degree · target) (t.degree anyLabel target) :=
    degreeTo_eq shares target
  rw [hmean]
  constructor
  · rw [← Walk.mean_const hone (t.leastDegree target)]
    exact Walk.mean_mono hnonneg
      (fun v hv => Finset.min'_le _ _ (degree_mem (Or.inr (hlabel v hv))))
      (Finset.min'_le _ _ (degree_mem (Or.inl rfl)))
  · rw [← Walk.mean_const hone (t.greatestDegree target)]
    exact Walk.mean_mono hnonneg
      (fun v hv => Finset.le_max' _ _ (degree_mem (Or.inr (hlabel v hv))))
      (Finset.le_max' _ _ (degree_mem (Or.inl rfl)))

end Traversal

section Step

variable {db : Database ℚ} {p : Profile ℚ} {base relationship target : String}
  {direction : Direction} {types : TypeSet}

/-- A step to a new variable fails only for names that are taken. -/
theorem expand_succeeds_iff (hbase : p.isNode base = true) (htarget : p.isNode target = false)
    (hapart : ∀ v, p.isNode v = true → p.isRelationship v = false) :
    (∃ p', expand db base direction relationship types target p = .ok p') ↔
      p.isRelationship relationship = false ∧ p.isNode relationship = false ∧
        relationship ≠ target ∧ p.isRelationship target = false := by
  constructor
  · rintro ⟨p', h⟩
    obtain ⟨shares, -, h⟩ := Outcome.bind_eq_ok.mp h
    split at h
    · cases h
    · next hfree =>
      obtain ⟨rfl, hdistinct⟩ := Profile.make_eq_ok h
      have hnot : ∀ v, v = target ∨ v = base ∨ p.isNode v = true →
          ¬(v = relationship ∨ p.isRelationship v = true) := by
        intro v hv hboth
        refine Bool.eq_false_iff.mp (hdistinct v ?_) (OrderedMap.contains_insert.mpr hboth)
        exact OrderedMap.contains_insert.mpr (hv.imp_right OrderedMap.contains_insert.mpr)
      refine ⟨Bool.not_eq_true _ ▸ hfree, Bool.eq_false_iff.mpr (fun hnode => ?_), ?_,
        Bool.eq_false_iff.mpr (fun hold => hnot target (Or.inl rfl) (Or.inr hold))⟩
      · exact hnot relationship (Or.inr (Or.inr hnode)) (Or.inl rfl)
      · rintro rfl
        exact hnot relationship (Or.inl rfl) (Or.inl rfl)
  · rintro ⟨hfree, hnode, hne, hnew⟩
    have hnames : ∀ v ∈ insert target {v | p.isNode v = true},
        v ∉ insert relationship {v | p.isRelationship v = true} := by
      intro v hv hboth
      rcases Set.mem_insert_iff.mp hv with rfl | hv <;>
        rcases Set.mem_insert_iff.mp hboth with rfl | hboth <;> simp_all
    obtain ⟨p', hp', -⟩ := expand_binds db (Profile.binds_of_apart hapart) hbase
      (by simp [hfree]) hnames direction types
    exact ⟨p', hp'⟩

/-- From a result of so many matches, a step to a new variable leads to as many times a mean of the
degrees of labels. -/
theorem expand_size_between (hinitial : p.initial = false) (hsize : 0 ≤ p.size)
    (hbase : p.isNode base = true) (htarget : p.isNode target = false) :
    (∀ p', expand db base direction relationship types target p = .ok p' →
      p.size * (⟨db, types, direction⟩ : Traversal ℚ).leastDegree anyLabel ≤ p'.size ∧
        p'.size ≤ p.size * (⟨db, types, direction⟩ : Traversal ℚ).greatestDegree anyLabel) ∧
    ((∀ v, p.isNode v = true → p.isRelationship v = false) →
      ((∃ p', expand db base direction relationship types target p = .ok p') ↔
        p.isRelationship relationship = false ∧ p.isNode relationship = false ∧
          relationship ≠ target ∧ p.isRelationship target = false)) := by
  refine ⟨fun p' h => ?_, fun hapart => expand_succeeds_iff hbase htarget hapart⟩
  obtain ⟨shares, -, rfl⟩ := expand_eq_ok h
  have hnone : p.nodes.get? target = none := by
    simpa [Profile.isNode, OrderedMap.contains] using htarget
  have hreached : (reached ⟨db, types, direction⟩ target shares p).size =
      p.size * (⟨db, types, direction⟩ : Traversal ℚ).degreeTo shares anyLabel := by
    simp only [reached, hinitial, Bool.false_eq_true, if_false, hnone]
    exact size_fromResult _ _ _ _
  obtain ⟨hleast, hgreatest⟩ :=
    (⟨db, types, direction⟩ : Traversal ℚ).degreeTo_between shares anyLabel
  simp only [hreached]
  exact ⟨mul_le_mul_of_nonneg_left hleast hsize, mul_le_mul_of_nonneg_left hgreatest hsize⟩

end Step

/-- Forty of a hundred nodes carry the only label; they have three relationships each, and any node
has two. -/
def linked : Database ℚ :=
  ⟨⟨{ Store.empty 100 with
      labelCounts := .singleton 0 40
      relationshipCounts := OrderedMap.ofList
        [(⟨0, 0, anyLabel⟩, 120), (⟨anyLabel, 0, anyLabel⟩, 200)] }, false⟩, .single [0]⟩

/-- Of eighty matches a quarter carry the label. -/
def quarter : Profile ℚ := ⟨.singleton "a" (.singleton 0 (1 / 4)), ∅, 80, false⟩

theorem expand_size_between_linked : ∃ p',
    expand linked "a" .outgoing "e" (.singleton 0) "b" quarter = .ok p' ∧
      80 * 2 ≤ p'.size ∧ p'.size ≤ 80 * 3 := by
  set t : Traversal ℚ := ⟨linked, .singleton 0, .outgoing⟩
  have hbetween : (∀ p', expand linked "a" .outgoing "e" (.singleton 0) "b" quarter = .ok p' →
      80 * t.leastDegree anyLabel ≤ p'.size ∧ p'.size ≤ 80 * t.greatestDegree anyLabel) ∧ _ :=
    expand_size_between rfl (by decide +kernel) (by decide) (by decide)
  obtain ⟨p', hp'⟩ := (hbetween.2 (fun _ _ => rfl)).mpr ⟨rfl, by decide, by decide, rfl⟩
  have hleast : t.leastDegree anyLabel = 2 := by decide +kernel
  have hgreatest : t.greatestDegree anyLabel = 3 := by decide +kernel
  rw [hleast, hgreatest] at hbetween
  exact ⟨p', hp', hbetween.1 p' hp'⟩

end PatternCardinality.Estimate
