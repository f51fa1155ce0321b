import PatternCardinality.Labels.Distribution
import PatternCardinality.Proofs.Ordered.Map
import PatternCardinality.Proofs.Ordered.Set

/-!
# Groups that share no label

Every distribution that is made has groups apart from each other, so the group of a label is the one
that holds it.
-/

namespace PatternCardinality.Labels.Distribution

/-- No label is in two groups. -/
def Apart (d : Distribution) : Prop := d.groups.Pairwise (fun g h => ∀ l ∈ g, l ∉ h)

variable {d : Distribution}

theorem mem_labels {l : LabelId} : l ∈ d.labels ↔ ∃ g ∈ d.groups, l ∈ g :=
  (OrderedSet.mem_foldl_union (f := id)).trans (or_iff_right List.not_mem_nil)

/-- The group of a label is the one that holds it. -/
theorem Apart.groupOf?_eq (h : d.Apart) {i : Nat} (hi : i < d.groups.length) {l : LabelId}
    (hl : l ∈ d.groups[i]) : d.groupOf? l = some i := by
  refine List.findIdx?_eq_some_iff_getElem.mpr ⟨hi, decide_eq_true hl, fun j hj hmem => ?_⟩
  have happart := List.pairwise_iff_getElem.mp h j i (by omega) hi hj
  exact happart l (of_decide_eq_true hmem) hl

/-- A label is in the group of another if their groups are the same. -/
theorem Apart.mem_iff (h : d.Apart) {g : OrderedSet LabelId} (hg : g ∈ d.groups) {l m : LabelId}
    (hm : m ∈ g) : l ∈ g ↔ d.groupOf? m = d.groupOf? l := by
  obtain ⟨i, hi, rfl⟩ := List.getElem_of_mem hg
  rw [h.groupOf?_eq hi hm]
  constructor
  · intro hl
    exact (h.groupOf?_eq hi hl).symm
  · intro hl
    obtain ⟨_, hmem, -⟩ := List.findIdx?_eq_some_iff_getElem.mp hl.symm
    exact of_decide_eq_true hmem

theorem apart_single (labels : List LabelId) : (single labels).Apart := by
  simp only [single, Apart]
  split
  · exact .nil
  · exact List.pairwise_singleton _ _

theorem apart_disjoint (labels : List LabelId) : (disjoint labels).Apart := by
  refine List.pairwise_map.mpr ((OrderedSet.ofList labels).increasing.imp (fun hlt l hl hl' => ?_))
  rw [List.mem_singleton.mp hl] at hl'
  rw [List.mem_singleton.mp hl', Std.compare_self] at hlt
  cases hlt

theorem labels_disjoint (labels : List LabelId) :
    (disjoint labels).labels = OrderedSet.ofList labels := by
  refine OrderedSet.ext (fun l => ?_)
  rw [mem_labels]
  simp [disjoint, OrderedSet.mem_toList, OrderedSet.singleton]

theorem groups_disjoint (labels : List LabelId) :
    (disjoint labels).groups = (disjoint labels).labels.toList.map OrderedSet.singleton := by
  rw [labels_disjoint]
  rfl

theorem isBelow_disjoint (labels : List LabelId) (sub l : LabelId) :
    (disjoint labels).isBelow sub l = false :=
  decide_eq_false List.not_mem_nil

/-- Labels apart from each other have groups of their own. -/
theorem groupOf?_disjoint_inj {labels : List LabelId} {l m : LabelId}
    (hl : l ∈ (disjoint labels).labels) :
    (disjoint labels).groupOf? m = (disjoint labels).groupOf? l ↔ m = l := by
  constructor
  · intro h
    obtain ⟨g, hg, hlg⟩ := mem_labels.mp hl
    have hmg := ((apart_disjoint labels).mem_iff hg hlg).mpr h.symm
    obtain ⟨k, -, rfl⟩ := List.mem_map.mp hg
    rw [OrderedSet.mem_singleton.mp hlg, OrderedSet.mem_singleton.mp hmg]
  · rintro rfl
    rfl

/-- What holds of all sub-labels in the table holds of labels below others. -/
theorem forall_isBelow {P : LabelId → LabelId → Bool}
    (h : d.subLabels.entries.all (fun e => e.2.toList.all (fun sub => P sub e.1)) = true)
    {sub l : LabelId} (hbelow : d.isBelow sub l = true) : P sub l = true := by
  have hmem : sub ∈ d.subLabels.of l := of_decide_eq_true hbelow
  rw [SubLabels.of, OrderedMap.getD] at hmem
  cases hget : d.subLabels.get? l with
  | none =>
    rw [hget] at hmem
    exact absurd hmem List.not_mem_nil
  | some subs =>
    rw [hget] at hmem
    have hentry := List.all_eq_true.mp h (l, subs) (OrderedMap.mem_entries_iff.mpr hget)
    exact List.all_eq_true.mp hentry sub hmem

/-- Where no shared label is found there is none. -/
theorem pairwise_of_shared? {index : Nat} {before groups : List (OrderedSet LabelId)}
    (h : shared? index before groups = none) :
    (∀ g ∈ before, ∀ h ∈ groups, ∀ l ∈ g, l ∉ h) ∧
      groups.Pairwise (fun g h => ∀ l ∈ g, l ∉ h) := by
  induction groups generalizing index before with
  | nil => simp
  | cons g groups ih =>
    simp only [shared?] at h
    split at h
    · cases h
    · next hnone =>
      obtain ⟨hbefore, hpairwise⟩ := ih h
      refine ⟨fun b hb c hc => ?_, List.pairwise_cons.mpr ⟨fun c hc => ?_, hpairwise⟩⟩
      · rcases List.mem_cons.mp hc with rfl | hc
        · intro l hl hlc
          have hfound := List.findSome?_eq_none_iff.mp hnone l hlc
          rw [Option.map_eq_none_iff, List.findIdx?_eq_none_iff] at hfound
          simpa [hl] using hfound b hb
        · exact hbefore b (List.mem_append_left _ hb) c hc
      · exact hbefore g (List.mem_append_right _ (List.mem_singleton.mpr rfl)) c hc

theorem apart_ofGroups {α : Type} {groups : List (OrderedSet LabelId)} {direct : SubLabels}
    (h : (ofGroups groups direct : Except (Failure α) _) = .ok d) : d.Apart := by
  simp only [ofGroups] at h
  split at h
  · cases h
  · next hnone =>
    cases h
    exact (pairwise_of_shared? hnone).2

end PatternCardinality.Labels.Distribution
