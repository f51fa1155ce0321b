import PatternCardinality.Proofs.Labels.Closure
import PatternCardinality.Proofs.Labels.Distribution
import PatternCardinality.Proofs.Ordered.Sorting

/-!
# Groups in their order

A distribution can be made of groups exactly if no two of them share a label. Its groups are then
those with labels in the order of their least ones, so it does not matter in which order they were
given.
-/

namespace PatternCardinality.Labels.Distribution

variable {α : Type} {groups groups' : List (OrderedSet LabelId)} {direct : SubLabels}
  {d : Distribution} {l : LabelId}

theorem canonical_perm (groups : List (OrderedSet LabelId)) :
    (canonical groups).Perm (groups.filter (fun g => !g.isEmpty)) := sortBy_perm _ _

theorem mem_canonical {g : OrderedSet LabelId} :
    g ∈ canonical groups ↔ g ∈ groups ∧ ∃ l, l ∈ g := by
  rw [(canonical_perm groups).mem_iff, List.mem_filter, Bool.not_eq_true', ← Bool.not_eq_true,
    OrderedSet.isEmpty_iff, not_forall]
  simp

/-- Where no label is shared none is found. -/
theorem shared?_eq_none {index : Nat} {before : List (OrderedSet LabelId)}
    (hbefore : ∀ g ∈ before, ∀ h ∈ groups, ∀ l ∈ g, l ∉ h)
    (hgroups : groups.Pairwise (fun g h => ∀ l ∈ g, l ∉ h)) :
    shared? index before groups = none := by
  induction groups generalizing index before with
  | nil => rfl
  | cons g groups ih =>
    obtain ⟨hg, hgroups⟩ := List.pairwise_cons.mp hgroups
    have hnone : g.toList.findSome? (fun l =>
        (before.findIdx? (fun h => decide (l ∈ h))).map (fun other => (l, other, index))) =
        none := by
      refine List.findSome?_eq_none_iff.mpr (fun l hl => ?_)
      rw [Option.map_eq_none_iff, List.findIdx?_eq_none_iff]
      exact fun b hb => decide_eq_false (fun hlb => hbefore b hb g List.mem_cons_self l hlb hl)
    rw [shared?, hnone]
    refine ih (fun b hb c hc => ?_) hgroups
    rcases List.mem_append.mp hb with hb | hb
    · exact hbefore b hb c (List.mem_cons_of_mem _ hc)
    · exact List.mem_singleton.mp hb ▸ hg c hc

theorem apart_symm : Std.Symm (fun g h : OrderedSet LabelId => ∀ l ∈ g, l ∉ h) :=
  ⟨fun _ _ hgh l hl hl' => hgh l hl' hl⟩

/-- Groups without labels are apart from all others. -/
theorem pairwise_canonical :
    (canonical groups).Pairwise (fun g h => ∀ l ∈ g, l ∉ h) ↔
      groups.Pairwise (fun g h => ∀ l ∈ g, l ∉ h) := by
  rw [(canonical_perm groups).pairwise_iff (fun hgh => apart_symm.symm _ _ hgh)]
  refine ⟨fun h => ?_, fun h => h.filter _⟩
  rw [List.pairwise_filter] at h
  refine h.imp (fun hgh l hl hl' => ?_)
  have hfilled : ∀ {s : OrderedSet LabelId}, l ∈ s → (!s.isEmpty) = true := by
    intro s hs
    rw [Bool.not_eq_true', ← Bool.not_eq_true, OrderedSet.isEmpty_iff]
    exact fun hempty => hempty l hs
  exact hgh (hfilled hl) (hfilled hl') l hl hl'

/-- Groups make a distribution exactly if no two of them share a label. -/
theorem ofGroups_eq_ok_iff :
    (ofGroups groups direct : Except (Failure α) _) = .ok d ↔
      groups.Pairwise (fun g h => ∀ l ∈ g, l ∉ h) ∧ d = ⟨canonical groups, direct.closure⟩ := by
  rw [← pairwise_canonical]
  simp only [ofGroups]
  constructor
  · intro h
    split at h
    · cases h
    · next hnone =>
      cases h
      exact ⟨(pairwise_of_shared? hnone).2, rfl⟩
  · rintro ⟨hgroups, rfl⟩
    rw [shared?_eq_none (by simp) hgroups]

theorem mem_labels_of_ofGroups (h : (ofGroups groups direct : Except (Failure α) _) = .ok d) :
    l ∈ d.labels ↔ ∃ g ∈ groups, l ∈ g := by
  obtain ⟨-, rfl⟩ := ofGroups_eq_ok_iff.mp h
  rw [mem_labels]
  refine exists_congr (fun g => ?_)
  rw [mem_canonical]
  exact ⟨fun hg => ⟨hg.1.1, hg.2⟩, fun hg => ⟨⟨hg.1, l, hg.2⟩, hg.2⟩⟩

theorem least?_mem {s : OrderedSet LabelId} (h : s.least? = some l) : l ∈ s :=
  List.mem_of_mem_head? h

theorem exists_least? {s : OrderedSet LabelId} (h : l ∈ s) : ∃ a, s.least? = some a := by
  obtain ⟨a, rest, hlist⟩ := List.exists_cons_of_ne_nil (List.ne_nil_of_mem h)
  exact ⟨a, by rw [OrderedSet.least?, hlist, List.head?_cons]⟩

theorem sorted_canonical (groups : List (OrderedSet LabelId)) :
    (canonical groups).Pairwise (fun g h => (compare g.least? h.least?).isLE = true) := by
  refine pairwise_sortBy (fun g h => ?_) (fun _ _ _ => Std.TransCmp.isLE_trans) _
  have hswap : compare h.least? g.least? = (compare g.least? h.least?).swap :=
    Std.OrientedCmp.eq_swap
  rw [hswap]
  cases compare g.least? h.least? <;> simp

/-- Groups apart from each other come in one order, whatever order they are given in. -/
theorem canonical_eq_of_perm (h : groups.Perm groups')
    (hgroups : groups.Pairwise (fun g h => ∀ l ∈ g, l ∉ h)) :
    canonical groups = canonical groups' := by
  have hperm : (canonical groups).Perm (canonical groups') :=
    (canonical_perm groups).trans ((h.filter _).trans (canonical_perm groups').symm)
  have hapart := pairwise_canonical.mpr hgroups
  refine hperm.eq_of_pairwise (fun g g' hg hg' hle hge => ?_) (sorted_canonical _)
    (sorted_canonical _)
  have hleast : g.least? = g'.least? :=
    Std.LawfulEqOrd.eq_of_compare (Std.OrientedCmp.isLE_antisymm hle hge)
  obtain ⟨l, hl⟩ := (mem_canonical.mp hg).2
  obtain ⟨m, hm⟩ := exists_least? hl
  by_contra hne
  have := apart_symm
  exact hapart.forall hg (hperm.mem_iff.mpr hg') hne m (least?_mem hm)
    (least?_mem (hleast ▸ hm))

/-- The order in which groups are given does not matter. -/
theorem ofGroups_eq_ok_iff_of_perm (h : groups.Perm groups') :
    (ofGroups groups direct : Except (Failure α) _) = .ok d ↔
      (ofGroups groups' direct : Except (Failure α) _) = .ok d := by
  rw [ofGroups_eq_ok_iff, ofGroups_eq_ok_iff,
    ← h.pairwise_iff (fun hgh => apart_symm.symm _ _ hgh)]
  exact and_congr_right (fun hgroups => by rw [canonical_eq_of_perm h hgroups])

end PatternCardinality.Labels.Distribution
