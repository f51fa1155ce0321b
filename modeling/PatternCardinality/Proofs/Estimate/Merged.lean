import Mathlib.Algebra.BigOperators.Ring.List
import Mathlib.Data.Bool.AllAny
import PatternCardinality.Proofs.Estimate.Binding
import PatternCardinality.Proofs.Estimate.Hierarchy
import PatternCardinality.Proofs.Estimate.Operator
import PatternCardinality.Proofs.Labels.Distribution

/-!
# Merging variables adds no matches

The walk over the labels hands out the mass of each variable and no more. So the masses that two
variables put on the same labels, and those that both have left, multiply to at most one, and to
divide them by the nodes among which they are spread makes them no larger.
-/

namespace PatternCardinality.Estimate

open Labels

/-- There are no nodes with a label or at least one, and so it is with all nodes. -/
structure Database.Counted (db : Database ℚ) : Prop where
  nodes : ∀ l ∈ db.labels, db.nodes l = 0 ∨ 1 ≤ db.nodes l
  total : db.total = 0 ∨ 1 ≤ db.total

/-- Four of ten nodes carry the only label. -/
def marked : Database ℚ :=
  ⟨⟨{ Statistics.Store.empty 10 with labelCounts := .singleton 1 4 }, true⟩, .single [1]⟩

theorem counted_marked : marked.Counted := by
  have hnodes : ∀ l ∈ marked.labels.toList, 1 ≤ marked.nodes l :=
    List.all_iff_forall_prop.mp (by decide +kernel)
  exact ⟨fun l hl => Or.inr (hnodes l hl), Or.inr (by decide +kernel)⟩

namespace Walk

section Mass

variable {n : ℕ} {d : Distribution} {share : Fin n → LabelId → ℚ}

/-- What the labels of a group receive and what is left is what there was. -/
theorem throughGroup_conserved {excluded : Vector ℚ n} {group : ℕ} {labels : List LabelId}
    {supers covered : OrderedSet LabelId} {rest : Vector ℚ n} (i : Fin n) :
    weight i (fun _ => 1) (throughGroup d share excluded group labels supers covered rest).visits +
      (throughGroup d share excluded group labels supers covered rest).rest.get i = rest.get i := by
  induction labels generalizing supers covered rest with
  | nil => exact zero_add _
  | cons l labels ih =>
    rw [throughGroup]
    split
    · exact zero_add _
    · dsimp only
      split
      · exact ih
      · rw [weight_cons, add_assoc, ih, get_ofFn, mul_one]
        exact sub_add_cancel _ _

theorem throughGroups_conserved {sort : OrderedSet LabelId → List LabelId} {group : ℕ}
    {groups : List (OrderedSet LabelId)} {rest : Vector ℚ n} (i : Fin n) :
    weight i (fun _ => 1) (throughGroups d sort share group groups rest).visits +
      (throughGroups d sort share group groups rest).rest.get i = rest.get i := by
  induction groups generalizing group rest with
  | nil => exact zero_add _
  | cons labels groups ih =>
    rw [throughGroups]
    split
    · exact zero_add _
    · dsimp only
      rw [weight_append, add_assoc, ih]
      exact throughGroup_conserved i

theorem complete_conserved (d : Distribution) (sort : OrderedSet LabelId → List LabelId)
    (share : Fin n → LabelId → ℚ) (i : Fin n) :
    weight i (fun _ => 1) (complete d sort share).visits + (complete d sort share).rest.get i = 1 :=
  (throughGroups_conserved i).trans (Vector.getElem_replicate i.isLt)

theorem throughGroup_label {excluded : Vector ℚ n} {group : ℕ} {labels : List LabelId}
    {supers covered : OrderedSet LabelId} {rest : Vector ℚ n} :
    ∀ v ∈ (throughGroup d share excluded group labels supers covered rest).visits,
      v.label ∈ labels := by
  induction labels generalizing supers covered rest with
  | nil => exact fun v hv => absurd hv List.not_mem_nil
  | cons l labels ih =>
    intro v hv
    rw [throughGroup] at hv
    split at hv
    · cases hv
    · dsimp only at hv
      split at hv
      · exact List.mem_cons_of_mem _ (ih v hv)
      · rcases List.mem_cons.mp hv with rfl | hv
        · exact List.mem_cons_self
        · exact List.mem_cons_of_mem _ (ih v hv)

/-- Only labels of the groups are visited. -/
theorem throughGroups_label {sort : OrderedSet LabelId → List LabelId} {group : ℕ}
    {groups : List (OrderedSet LabelId)} {rest : Vector ℚ n} :
    ∀ v ∈ (throughGroups d sort share group groups rest).visits, ∃ g ∈ groups, v.label ∈ sort g := by
  induction groups generalizing group rest with
  | nil => exact fun v hv => absurd hv List.not_mem_nil
  | cons labels groups ih =>
    intro v hv
    rw [throughGroups] at hv
    split at hv
    · cases hv
    · rcases List.mem_append.mp hv with hv | hv
      · exact ⟨labels, List.mem_cons_self, throughGroup_label v hv⟩
      · obtain ⟨g, hg, hlabel⟩ := ih v hv
        exact ⟨g, List.mem_cons_of_mem _ hg, hlabel⟩

/-- Mass falls on labels of the distribution only. -/
theorem complete_label {sort : OrderedSet LabelId → List LabelId}
    (hsort : ∀ g, ∀ l ∈ sort g, l ∈ g) :
    ∀ v ∈ (complete d sort share).visits, v.label ∈ d.labels := by
  intro v hv
  obtain ⟨g, hg, hlabel⟩ := throughGroups_label v hv
  exact Distribution.mem_labels.mpr ⟨g, hg, hsort g v.label hlabel⟩

end Mass

/-- Two distributions of one meet with a probability of at most one. -/
theorem meeting_le_one {w : Walk ℚ 2} (hw : w.Nonneg)
    (hone : ∀ i, weight i (fun _ => 1) w.visits + w.rest.get i = 1) :
    (w.visits.map (fun v => v.mass.get 0 * v.mass.get 1)).sum + w.rest.get 0 * w.rest.get 1 ≤ 1 := by
  have hvisits : 0 ≤ weight 0 (fun _ => 1) w.visits := by
    refine List.sum_nonneg (fun x hx => ?_)
    obtain ⟨v, hv, rfl⟩ := List.mem_map.mp hx
    rw [mul_one]
    exact hw.mass v hv 0
  have hmass : ∀ v ∈ w.visits, v.mass.get 0 ≤ 1 := by
    intro v hv
    have hle : v.mass.get 0 * 1 ≤ weight 0 (fun _ => 1) w.visits := by
      refine List.single_le_sum (fun x hx => ?_) _ (List.mem_map_of_mem hv)
      obtain ⟨u, hu, rfl⟩ := List.mem_map.mp hx
      rw [mul_one]
      exact hw.mass u hu 0
    have hrest := hw.rest 0
    have hsum := hone 0
    linarith
  have hrest : w.rest.get 0 ≤ 1 := by
    have hsum := hone 0
    linarith
  calc (w.visits.map (fun v => v.mass.get 0 * v.mass.get 1)).sum + w.rest.get 0 * w.rest.get 1
      ≤ weight 1 (fun _ => 1) w.visits + w.rest.get 1 := by
        refine add_le_add (List.sum_le_sum (fun v hv => ?_))
          (mul_le_of_le_one_left (hw.rest 1) hrest)
        rw [mul_one]
        exact mul_le_of_le_one_left (hw.mass v hv 1) (hmass v hv)
    _ = 1 := hone 1

end Walk

section Factor

/-- What is left of some mass if it has to fall on a given one of so many nodes. -/
def spread (count mass : ℚ) : ℚ := if count ≤ 0 then 0 else mass / count

theorem spread_nonneg {count mass : ℚ} (hmass : 0 ≤ mass) : 0 ≤ spread count mass := by
  rw [spread]
  split
  · exact le_rfl
  · next hcount => exact div_nonneg hmass (not_le.mp hcount).le

theorem spread_bounds {count mass : ℚ} (hmass : 0 ≤ mass) (hcount : count = 0 ∨ 1 ≤ count) :
    0 ≤ spread count mass ∧ spread count mass ≤ mass := by
  rcases hcount with rfl | hcount
  · rw [spread, if_pos le_rfl]
    exact ⟨le_rfl, hmass⟩
  · have hpos : 0 < count := zero_lt_one.trans_le hcount
    rw [spread, if_neg (not_le.mpr hpos)]
    exact ⟨div_nonneg hmass hpos.le, div_le_self hmass hcount⟩

variable {db : Database ℚ}

theorem mergeFactor_eq (staying leaving : LabelShares ℚ) :
    mergeFactor db staying leaving =
      ((jointMass db staying leaving).visits.map
        (fun v => spread (db.nodes v.label) (v.mass.get 0 * v.mass.get 1))).sum +
      spread db.total ((jointMass db staying leaving).rest.get 0 *
        (jointMass db staying leaving).rest.get 1) := by
  have hstep : (fun (factor : ℚ) (v : Visit ℚ 2) => if db.nodes v.label ≤ 0 then factor
      else factor + v.mass[0] * v.mass[1] / db.nodes v.label) =
      fun factor v => factor + spread (db.nodes v.label) (v.mass.get 0 * v.mass.get 1) := by
    funext factor v
    rw [spread]
    split
    · exact (add_zero _).symm
    · rfl
  simp only [mergeFactor, hstep]
  rw [List.sum_eq_foldl, List.foldl_map, spread]
  by_cases htotal : 0 < db.total
  · rw [if_pos htotal, if_neg (not_le.mpr htotal)]
    rfl
  · rw [if_neg htotal, if_pos (not_lt.mp htotal), add_zero]

/-- The factor of merging two variables is a probability. -/
theorem mergeFactor_bounds (h : db.Counted) (staying leaving : LabelShares ℚ) :
    0 ≤ mergeFactor db staying leaving ∧ mergeFactor db staying leaving ≤ 1 := by
  rw [mergeFactor_eq]
  set walk := jointMass db staying leaving with hwalk
  have hnonneg : walk.Nonneg := Walk.complete_nonneg _ _ _
  have hvisit : ∀ v ∈ walk.visits,
      0 ≤ spread (db.nodes v.label) (v.mass.get 0 * v.mass.get 1) ∧
        spread (db.nodes v.label) (v.mass.get 0 * v.mass.get 1) ≤ v.mass.get 0 * v.mass.get 1 := by
    intro v hv
    refine spread_bounds (mul_nonneg (hnonneg.mass v hv 0) (hnonneg.mass v hv 1)) (h.nodes _ ?_)
    exact Walk.complete_label (fun _ _ => mem_sortByEvidence.mp) v (hwalk ▸ hv)
  obtain ⟨hrest, hle⟩ := spread_bounds (mul_nonneg (hnonneg.rest 0) (hnonneg.rest 1)) h.total
  constructor
  · refine add_nonneg (List.sum_nonneg (fun x hx => ?_)) hrest
    obtain ⟨v, hv, rfl⟩ := List.mem_map.mp hx
    exact (hvisit v hv).1
  · refine (add_le_add (List.sum_le_sum (fun v hv => (hvisit v hv).2)) hle).trans ?_
    exact Walk.meeting_le_one hnonneg (Walk.complete_conserved _ _ _)

end Factor

/-- A result that binds no name both ways. -/
theorem Profile.binds_of_apart {p : Profile ℚ}
    (hapart : ∀ v, p.isNode v = true → p.isRelationship v = false) :
    p.Binds {v | p.isNode v = true} {v | p.isRelationship v = true} := by
  refine ⟨fun _ => Iff.rfl, fun _ => Iff.rfl, fun v hv hboth => ?_⟩
  rw [Set.mem_ofPred_eq, hapart v hv] at hboth
  cases hboth

section Result

variable {db : Database ℚ} {staying leaving : String} {p : Profile ℚ} {s l : LabelShares ℚ}
  (hne : staying ≠ leaving) (hapart : ∀ v, p.isNode v = true → p.isRelationship v = false)
  (hstaying : p.nodes.get? staying = some s) (hleaving : p.nodes.get? leaving = some l)

include hne hapart hstaying hleaving

/-- Two node variables of a result can be merged. -/
theorem mergeOn_eq : mergeOn db staying leaving p =
    .ok ⟨(p.nodes.erase leaving).insert staying (mergedShares (mergeFactor db s l) s l),
      p.relationships, p.size * mergeFactor db s l, false⟩ := by
  obtain ⟨p', hp', -⟩ := mergeOn_binds db (Profile.binds_of_apart hapart) hne
    (OrderedMap.contains_iff.mpr ⟨s, hstaying⟩) (OrderedMap.contains_iff.mpr ⟨l, hleaving⟩)
  obtain ⟨s', l', hs, hl, hmade⟩ := mergeOn_eq_ok hp'
  cases hstaying.symm.trans hs
  cases hleaving.symm.trans hl
  rw [hp', identified_eq_ok hmade]

theorem selfJoin_eq : selfJoin db staying leaving p =
    .ok ⟨(p.nodes.erase leaving).insert staying (smallerShares s l), p.relationships,
      p.size * Partition.factor db s l, false⟩ := by
  obtain ⟨p', hp', -⟩ := selfJoin_binds db (Profile.binds_of_apart hapart) hne
    (OrderedMap.contains_iff.mpr ⟨s, hstaying⟩) (OrderedMap.contains_iff.mpr ⟨l, hleaving⟩)
  obtain ⟨s', l', hs, hl, hmade⟩ := selfJoin_eq_ok hp'
  cases hstaying.symm.trans hs
  cases hleaving.symm.trans hl
  rw [hp', identified_eq_ok hmade]

end Result

/-- To merge two node variables leaves at most the matches that there are, whatever the shares of
their labels. -/
theorem mergeOn_size_le {db : Database ℚ} (h : db.Counted) {staying leaving : String}
    (hne : staying ≠ leaving) {p : Profile ℚ} (hsize : 0 ≤ p.size)
    (hstaying : p.isNode staying = true) (hleaving : p.isNode leaving = true)
    (hapart : ∀ v, p.isNode v = true → p.isRelationship v = false) :
    ∃ p', mergeOn db staying leaving p = .ok p' ∧ 0 ≤ p'.size ∧ p'.size ≤ p.size := by
  obtain ⟨s, hs⟩ := OrderedMap.contains_iff.mp hstaying
  obtain ⟨l, hl⟩ := OrderedMap.contains_iff.mp hleaving
  obtain ⟨hnonneg, hle⟩ := mergeFactor_bounds h s l
  exact ⟨_, mergeOn_eq hne hapart hs hl, mul_nonneg hsize hnonneg,
    mul_le_of_le_one_right hsize hle⟩

/-- The shares of the label need not be probabilities. -/
theorem mergeOn_size_le_of_marked : ∃ p',
    mergeOn marked "a" "b" ⟨OrderedMap.ofList [("a", OrderedMap.singleton 1 (3 / 2)),
      ("b", OrderedMap.singleton 1 (-1))], ∅, 7, false⟩ = .ok p' ∧
      0 ≤ p'.size ∧ p'.size ≤ 7 := by
  exact mergeOn_size_le counted_marked (by decide) (by norm_num) (by decide +kernel) (by decide +kernel)
    (fun _ _ => rfl)

end PatternCardinality.Estimate
