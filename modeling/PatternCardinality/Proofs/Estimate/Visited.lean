import PatternCardinality.Proofs.Estimate.Merged
import PatternCardinality.Proofs.Labels.Branching
import PatternCardinality.Proofs.Labels.Grouped

/-!
# What the walk visits

The walk hands out the mass of each vector exactly. It visits a label once at most, group after
group and in each group in the order in which its labels are sorted. A label is left out if one
before it in its group is above it, and otherwise only if the mass of some vector runs out.
-/

namespace PatternCardinality.Estimate.Walk

open Labels

variable {n : ℕ} {d : Distribution} {share : Fin n → LabelId → ℚ} {excluded rest : Vector ℚ n}
  {group : ℕ} {labels : List LabelId} {supers covered : OrderedSet LabelId}

section Group

/-- A label after those of a list of which none is above it. -/
def Free (d : Distribution) (labels : List LabelId) (l : LabelId) : Prop :=
  ∃ before after, labels = before ++ l :: after ∧ ∀ m ∈ before, d.isBelow l m = false

theorem notMem_union_below {l m : LabelId} :
    m ∉ covered.union (d.below l) ↔ m ∉ covered ∧ d.isBelow m l = false := by
  rw [OrderedSet.mem_union, not_or, Distribution.isBelow, decide_eq_false_iff_not]

/-- The labels of a group are visited in their order. -/
theorem throughGroup_sublist :
    ((throughGroup d share excluded group labels supers covered rest).visits.map
      Visit.label).Sublist labels := by
  induction labels generalizing supers covered rest with
  | nil => exact .slnil
  | cons l labels ih =>
    rw [throughGroup]
    split
    · exact List.nil_sublist _
    · dsimp only
      split
      · exact ih.cons l
      · exact ih.cons_cons l

/-- Those are visited that are not covered, nor below a label before them. -/
theorem throughGroup_free :
    ∀ v ∈ (throughGroup d share excluded group labels supers covered rest).visits,
      v.group = group ∧ v.label ∉ covered ∧ Free d labels v.label := by
  induction labels generalizing supers covered rest with
  | nil => exact fun v hv => absurd hv List.not_mem_nil
  | cons l labels ih =>
    have hlater : ∀ {v : Visit ℚ n}, v.group = group ∧ v.label ∉ covered.union (d.below l) ∧
        Free d labels v.label →
        v.group = group ∧ v.label ∉ covered ∧ Free d (l :: labels) v.label := by
      rintro v ⟨hgroup, hcovered, before, after, rfl, hbefore⟩
      obtain ⟨hcovered, hbelow⟩ := notMem_union_below.mp hcovered
      exact ⟨hgroup, hcovered, l :: before, after, rfl, List.forall_mem_cons.mpr ⟨hbelow, hbefore⟩⟩
    intro v hv
    rw [throughGroup] at hv
    split at hv
    · cases hv
    · dsimp only at hv
      split at hv
      · exact hlater (ih v hv)
      · next hcovered =>
        rcases List.mem_cons.mp hv with rfl | hv
        · exact ⟨rfl, hcovered, [], labels, rfl, by simp⟩
        · exact hlater (ih v hv)

theorem throughGroup_pairwise :
    (throughGroup d share excluded group labels supers covered rest).visits.Pairwise
      (fun u v => d.isBelow v.label u.label = false) := by
  induction labels generalizing supers covered rest with
  | nil => exact .nil
  | cons l labels ih =>
    rw [throughGroup]
    split
    · exact .nil
    · dsimp only
      split
      · exact ih
      · refine List.pairwise_cons.mpr ⟨fun v hv => ?_, ih⟩
        exact (notMem_union_below.mp (throughGroup_free v hv).2.1).2

/-- While there is mass, all labels are visited that are not covered, nor below one before them. -/
theorem throughGroup_visited {l : LabelId} (hcovered : l ∉ covered) (hfree : Free d labels l)
    (hrest : ¬exhausted
      (throughGroup d share excluded group labels supers covered rest).rest = true) :
    ∃ v ∈ (throughGroup d share excluded group labels supers covered rest).visits,
      v.label = l := by
  obtain ⟨before, after, rfl, hbefore⟩ := hfree
  have hsome : ¬exhausted rest = true := fun h => hrest (by rwa [throughGroup_of_exhausted h])
  induction before generalizing supers covered rest with
  | nil =>
    rw [List.nil_append, throughGroup, if_neg hsome]
    exact ⟨_, by rw [if_neg hcovered]; exact List.mem_cons_self, rfl⟩
  | cons m before ih =>
    obtain ⟨hm, hbefore⟩ := List.forall_mem_cons.mp hbefore
    have hcovered' : l ∉ covered.union (d.below m) := notMem_union_below.mpr ⟨hcovered, hm⟩
    rw [List.cons_append, throughGroup, if_neg hsome] at hrest ⊢
    dsimp only at hrest ⊢
    split at hrest
    · next hmcovered =>
      rw [if_pos hmcovered]
      exact ih hcovered' hbefore hrest hsome
    · next hmcovered =>
      rw [if_neg hmcovered]
      have hnext : ¬exhausted (remaining share excluded rest
          ((supers.filter (fun s => !decide (s ∈ d.below m))).insert m)) = true :=
        fun h => hrest (by rwa [throughGroup_of_exhausted h])
      obtain ⟨v, hv, hlabel⟩ := ih hcovered' hbefore hrest hnext
      exact ⟨v, List.mem_cons_of_mem _ hv, hlabel⟩

end Group

section Groups

variable {sort : OrderedSet LabelId → List LabelId} {groups : List (OrderedSet LabelId)}

theorem throughGroups_sublist :
    ((throughGroups d sort share group groups rest).visits.map Visit.label).Sublist
      (groups.flatMap sort) := by
  induction groups generalizing group rest with
  | nil => exact .slnil
  | cons g groups ih =>
    rw [throughGroups]
    split
    · exact List.nil_sublist _
    · rw [List.map_append, List.flatMap_cons]
      exact throughGroup_sublist.append ih

/-- A label is visited with the number of its group. -/
theorem throughGroups_free :
    ∀ v ∈ (throughGroups d sort share group groups rest).visits, ∃ j g, v.group = group + j ∧
      groups[j]? = some g ∧ Free d (sort g) v.label := by
  induction groups generalizing group rest with
  | nil => exact fun v hv => absurd hv List.not_mem_nil
  | cons g groups ih =>
    intro v hv
    rw [throughGroups] at hv
    split at hv
    · cases hv
    · rcases List.mem_append.mp hv with hv | hv
      · obtain ⟨hgroup, -, hfree⟩ := throughGroup_free v hv
        exact ⟨0, g, hgroup, rfl, hfree⟩
      · obtain ⟨j, h, hgroup, hh, hfree⟩ := ih v hv
        exact ⟨j + 1, h, by omega, hh, hfree⟩

/-- Groups are visited one after the other, and in each no label after one above it. -/
theorem throughGroups_pairwise :
    (throughGroups d sort share group groups rest).visits.Pairwise (fun u v =>
      u.group ≤ v.group ∧ (u.group = v.group → d.isBelow v.label u.label = false)) := by
  induction groups generalizing group rest with
  | nil => exact .nil
  | cons g groups ih =>
    rw [throughGroups]
    split
    · exact .nil
    · refine List.pairwise_append.mpr ⟨?_, ih, fun u hu v hv => ?_⟩
      · refine throughGroup_pairwise.imp_of_mem (fun hu hv hbelow => ⟨?_, fun _ => hbelow⟩)
        rw [(throughGroup_free _ hu).1, (throughGroup_free _ hv).1]
      · obtain ⟨hgroup, -⟩ := throughGroup_free u hu
        obtain ⟨j, -, hlater, -⟩ := throughGroups_free v hv
        exact ⟨by omega, fun heq => absurd heq (by omega)⟩

theorem throughGroups_visited {g : OrderedSet LabelId} {l : LabelId} (hg : g ∈ groups)
    (hfree : Free d (sort g) l)
    (hrest : ¬exhausted (throughGroups d sort share group groups rest).rest = true) :
    ∃ v ∈ (throughGroups d sort share group groups rest).visits, v.label = l := by
  have hsome : ¬exhausted rest = true := fun h => hrest (by rwa [throughGroups_of_exhausted h])
  induction groups generalizing group rest with
  | nil => cases hg
  | cons h groups ih =>
    rw [throughGroups, if_neg hsome] at hrest ⊢
    dsimp only at hrest ⊢
    set first := throughGroup d share (Vector.ofFn fun i => 1 - rest[i]) group (sort h) ∅ ∅ rest
      with hfirst
    have hnext : ¬exhausted first.rest = true :=
      fun hnone => hrest (by rwa [throughGroups_of_exhausted hnone])
    rcases List.mem_cons.mp hg with rfl | hg
    · obtain ⟨v, hv, hlabel⟩ := throughGroup_visited (OrderedSet.not_mem_empty l) hfree hnext
      exact ⟨v, List.mem_append_left _ hv, hlabel⟩
    · obtain ⟨v, hv, hlabel⟩ := ih hg hrest hnext
      exact ⟨v, List.mem_append_right _ hv, hlabel⟩

end Groups

/-- Sorted groups that are apart have no label twice. -/
theorem nodup_flatMap_sort {sort : OrderedSet LabelId → List LabelId} (hd : d.Apart)
    (hsort : ∀ g ∈ d.groups, (sort g).Perm g.toList) : (d.groups.flatMap sort).Nodup := by
  refine List.nodup_flatMap.mpr ⟨fun g hg => ?_, hd.imp_of_mem (fun hg hh hapart => ?_)⟩
  · exact (hsort g hg).nodup_iff.mpr (OrderedSet.nodup_toList g)
  · refine List.disjoint_left.mpr (fun l hl hl' => ?_)
    exact hapart l ((hsort _ hg).mem_iff.mp hl) ((hsort _ hh).mem_iff.mp hl')

/-- The walk hands out the mass of each vector without loss, whatever the shares are, and takes
nothing back. It visits no label twice and goes through the groups by their least labels. No label
is visited after one of its group that is above it, and all others are, unless the mass of some
vector runs out. -/
theorem complete_conserves_mass {sort : OrderedSet LabelId → List LabelId} {w : Walk ℚ n}
    (hd : d.Made) (hsort : ∀ g ∈ d.groups, (sort g).Perm g.toList)
    (hw : complete d sort share = w) :
    (∀ v ∈ w.visits, ∀ i, 0 ≤ v.mass.get i) ∧
      (∀ i, (w.visits.map (fun v => v.mass.get i)).sum + w.rest.get i = 1 ∧
        0 ≤ w.rest.get i ∧ w.rest.get i ≤ 1) ∧
      (w.visits.map Visit.label).Nodup ∧ d.groups.Pairwise Distribution.Before ∧
      w.visits.Pairwise (fun u v =>
        u.group ≤ v.group ∧ (u.group = v.group → d.isBelow v.label u.label = false)) ∧
      (∀ v ∈ w.visits, ∃ g, d.groups[v.group]? = some g ∧ Free d (sort g) v.label) ∧
      ((∃ i, w.rest.get i ≤ 0) ∨
        ∀ g ∈ d.groups, ∀ l, Free d (sort g) l → ∃ v ∈ w.visits, v.label = l) := by
  subst hw
  have hmass := complete_nonneg d sort share
  have hsum : ∀ i, ((complete d sort share).visits.map (fun v => v.mass.get i)).sum +
      (complete d sort share).rest.get i = 1 := by
    intro i
    have hone := complete_conserved d sort share i
    simp only [weight, mul_one] at hone
    exact hone
  refine ⟨hmass.mass, fun i => ⟨hsum i, hmass.rest i, ?_⟩, ?_, hd.before, throughGroups_pairwise,
    fun v hv => ?_, or_iff_not_imp_left.mpr (fun hsome g hg l hfree => ?_)⟩
  · have hvisits : 0 ≤ ((complete d sort share).visits.map (fun v => v.mass.get i)).sum := by
      refine List.sum_nonneg (List.forall_mem_map.mpr (fun v hv => hmass.mass v hv i))
    linarith [hsum i]
  · exact throughGroups_sublist.nodup (nodup_flatMap_sort hd.apart hsort)
  · obtain ⟨j, g, hgroup, hg, hfree⟩ := throughGroups_free v hv
    exact ⟨g, by rw [hgroup, zero_add, hg], hfree⟩
  · exact throughGroups_visited hg hfree (fun hnone => hsome (exhausted_iff.mp hnone))

/-- A label with another below it that is in its group, and a label of another group. -/
def twoGroups : Distribution :=
  ⟨[OrderedSet.ofList [0, 1, 2], OrderedSet.ofList [3]], .singleton 0 (.singleton 1)⟩

theorem made_twoGroups : twoGroups.Made := by
  have h : (Distribution.ofGroups [OrderedSet.ofList [3], OrderedSet.ofList [0, 1, 2]]
      (.singleton 0 (.singleton 1)) : Except (Failure ℚ) _) = .ok twoGroups :=
    Outcome.toOption_eq_some.mp (by decide +kernel)
  exact .ofGroups h

/-- Two vectors of shares, some of them no probabilities. -/
def odd (i : Fin 2) (l : LabelId) : ℚ := if l = 0 then 1 / 2 else if i.val = 0 then -1 else 1 / 3

theorem complete_conserves_mass_odd :
    twoGroups.Made ∧ (∀ g ∈ twoGroups.groups, g.toList.Perm g.toList) ∧
      ∃ w, complete twoGroups OrderedSet.toList odd = w ∧
        w.visits.map Visit.label = [0, 2, 3] ∧
        ∀ i, (w.visits.map (fun v => v.mass.get i)).sum + w.rest.get i = 1 := by
  have hw : complete twoGroups OrderedSet.toList odd = _ := rfl
  obtain ⟨-, hsum, -⟩ :=
    complete_conserves_mass made_twoGroups (fun g _ => List.Perm.refl g.toList) hw
  exact ⟨made_twoGroups, fun g _ => .refl _, _, rfl, by decide +kernel, fun i => (hsum i).1⟩

end PatternCardinality.Estimate.Walk
