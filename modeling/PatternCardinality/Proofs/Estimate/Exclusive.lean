import PatternCardinality.Proofs.Estimate.Conserved
import PatternCardinality.Proofs.Estimate.Merged
import PatternCardinality.Proofs.Estimate.Shares

/-!
# Labels that exclude each other

Where every label has a group of its own, no node carries two labels, and the shares of the labels
at a variable are together at most one. To merge two variables divides what they have in common of a
label by the chance that two matches agree in their node, and cuts the quotient at one. Each label
is cut for itself, so the shares need not exclude each other any more: they do if the quotients are
small enough together, or if there is only one. If every match has a label at one of the variables,
they are never small enough.
-/

namespace PatternCardinality.Estimate

open Labels

section Sums

variable {β : Type} {g : β → ℚ} {ls ks : List β}

/-- Only the members with a value matter to a sum. -/
theorem sum_map_filter {p : β → Prop} [DecidablePred p] (hzero : ∀ l ∈ ls, ¬p l → g l = 0) :
    ((ls.filter p).map g).sum = (ls.map g).sum := by
  have hnone : ((ls.filter (fun l => ¬p l)).map g).sum = 0 := by
    refine List.sum_eq_zero (fun x hx => ?_)
    obtain ⟨l, hl, rfl⟩ := List.mem_map.mp hx
    obtain ⟨hmem, hp⟩ := List.mem_filter.mp hl
    exact hzero l hmem (of_decide_eq_true hp)
  rw [← List.sum_map_filter_add_sum_map_filter_not p g ls, hnone, add_zero]

/-- A sum over different members is at most one over all that have a value. -/
theorem sum_map_le_of_support [DecidableEq β] (hnodup : ls.Nodup) (hg : ∀ k ∈ ks, 0 ≤ g k)
    (hzero : ∀ l ∈ ls, l ∉ ks → g l = 0) : (ls.map g).sum ≤ (ks.map g).sum := by
  have hsub : (ls.filter (fun l => l ∈ ks)).Subperm ks := by
    refine List.subperm_of_subset (hnodup.filter _) (fun l hl => ?_)
    exact of_decide_eq_true (List.mem_filter.mp hl).2
  obtain ⟨zs, hperm, hzs⟩ := hsub
  have hnonneg : ∀ x ∈ ks.map g, 0 ≤ x := List.forall_mem_map.mpr hg
  calc (ls.map g).sum = ((ls.filter (fun l => l ∈ ks)).map g).sum := (sum_map_filter hzero).symm
    _ = (zs.map g).sum := (hperm.map g).sum_eq.symm
    _ ≤ (ks.map g).sum := (hzs.map g).sum_le_sum hnonneg

/-- Positive numbers that are cut at one are at most one together with another number if they are
so before, or if there is one of them and no other number. -/
theorem sum_least_le_one_iff {xs : List ℚ} (hxs : ∀ x ∈ xs, 0 < x) {y : ℚ} (hy : 0 ≤ y) :
    y + (xs.map (min 1)).sum ≤ 1 ↔ y + xs.sum ≤ 1 ∨ (y = 0 ∧ xs.length = 1) := by
  by_cases hcut : ∃ x ∈ xs, 1 < x
  · obtain ⟨x, hx, hlarge⟩ := hcut
    have hperm := List.perm_cons_erase hx
    have hrest : ∀ z ∈ xs.erase x, 0 < z := fun z hz => hxs z (List.mem_of_mem_erase hz)
    rw [(hperm.map _).sum_eq, hperm.sum_eq, hperm.length_eq, List.map_cons, List.sum_cons,
      List.sum_cons, List.length_cons, min_eq_left hlarge.le]
    generalize xs.erase x = rest at hrest
    cases rest with
    | nil =>
      simp only [List.map_nil, List.sum_nil, List.length_nil]
      constructor
      · intro hle
        exact Or.inr ⟨by linarith, trivial⟩
      · rintro (hle | ⟨hzero, -⟩) <;> linarith
    | cons z rest =>
      have hsum : 0 ≤ (z :: rest).sum := List.sum_nonneg (fun w hw => (hrest w hw).le)
      have hmore : 0 < ((z :: rest).map (min 1)).sum := List.sum_pos _
        (List.forall_mem_map.mpr (fun w hw => lt_min zero_lt_one (hrest w hw)))
        (List.cons_ne_nil _ _)
      constructor
      · intro hle
        linarith
      · rintro (hle | ⟨-, hlength⟩)
        · linarith
        · simp at hlength
  · have hsmall : ∀ x ∈ xs, min 1 x = id x :=
      fun x hx => min_eq_right (not_lt.mp (fun hlarge => hcut ⟨x, hx, hlarge⟩))
    rw [List.map_congr_left hsmall, List.map_id]
    refine ⟨Or.inl, fun h => h.elim id ?_⟩
    rintro ⟨rfl, hlength⟩
    obtain ⟨x, rfl⟩ := List.length_eq_one_iff.mp hlength
    have hx := hsmall x List.mem_cons_self
    rw [List.sum_singleton, zero_add]
    exact min_eq_right_iff.mp hx

end Sums

namespace LabelShares

/-- Shares of labels of which a node carries at most one. -/
structure Exclusive (shares : LabelShares ℚ) : Prop where
  nonneg : ∀ x ∈ shares.values, 0 ≤ x
  le_one : shares.values.sum ≤ 1

variable {shares s t : LabelShares ℚ} {factor : ℚ} {l m : LabelId}

theorem of_nonneg (h : ∀ x ∈ shares.values, 0 ≤ x) (l : LabelId) : 0 ≤ shares.of l := by
  by_cases hl : l ∈ shares.keys
  · refine h _ ?_
    rw [values_eq]
    exact List.mem_map_of_mem hl
  · exact (of_eq_zero hl).ge

theorem nodup_keys (shares : LabelShares ℚ) : shares.keys.Nodup :=
  OrderedSet.nodup_toList shares.keySet

namespace Exclusive

variable (h : shares.Exclusive)

include h

/-- Different labels have at most one together. -/
theorem sum_of_le {labels : List LabelId} (hnodup : labels.Nodup) :
    (labels.map shares.of).sum ≤ 1 := by
  refine (sum_map_le_of_support hnodup (fun k _ => of_nonneg h.nonneg k)
    (fun l _ hl => of_eq_zero hl)).trans ?_
  rw [← values_eq]
  exact h.le_one

theorem of_le_one (l : LabelId) : shares.of l ≤ 1 := by
  simpa using h.sum_of_le (List.nodup_singleton l)

/-- Besides a certain label there is no other. -/
theorem eq_of_certain (hl : shares.of l = 1) (hm : 0 < shares.of m) : m = l := by
  by_contra hne
  have hsum : ([m, l].map shares.of).sum ≤ 1 := h.sum_of_le (by simp [hne])
  simp only [List.map_cons, List.map_nil, List.sum_cons, List.sum_nil, hl] at hsum
  linarith

end Exclusive

/-- What two variables have in common of a label. -/
def common (s t : LabelShares ℚ) (l : LabelId) : ℚ := min (s.of l) (t.of l)

/-- What they have in common of all labels. -/
def overlap (s t : LabelShares ℚ) : ℚ := (t.keys.map (common s t)).sum

/-- The labels that both may carry. -/
def shared (s t : LabelShares ℚ) : List LabelId := t.keys.filter (fun l => 0 < common s t l)

/-- The shares of labels of which the variable that leaves knows nothing. -/
def kept (s t : LabelShares ℚ) : ℚ := ((s.keys.filter (fun l => l ∉ t.keys)).map s.of).sum

theorem mem_shared : l ∈ shared s t ↔ l ∈ t.keys ∧ 0 < s.of l ∧ 0 < t.of l := by
  rw [shared, List.mem_filter, decide_eq_true_iff, common, lt_min_iff]

theorem of_mergedShares (factor : ℚ) (s t : LabelShares ℚ) (l : LabelId) :
    LabelShares.of (mergedShares factor s t) l =
      if l ∈ t.keys then mergedShare factor (s.of l) (t.of l) else s.of l := by
  have hkey : l ∈ t.keys ↔ (t.get? l).isSome = true := OrderedMap.mem_keys_iff
  rw [LabelShares.of, OrderedMap.getD, mergedShares,
    OrderedMap.get?_foldl_entries (fun k x => mergedShare factor (s.of k) x)]
  simp only [hkey]
  cases hget : t.get? l with
  | none => rfl
  | some x => simp [LabelShares.of, OrderedMap.getD, hget]

theorem keys_mergedShares_perm (factor : ℚ) (s t : LabelShares ℚ) :
    (OrderedMap.keys (mergedShares factor s t)).Perm
      (s.keys.filter (fun l => l ∉ t.keys) ++ t.keys) := by
  have happart : ((s.keys.filter (fun l => l ∉ t.keys)) ++ t.keys).Nodup := by
    refine List.nodup_append.mpr ⟨(nodup_keys s).filter _, nodup_keys t, ?_⟩
    rintro l hl _ ht rfl
    exact of_decide_eq_true (List.mem_filter.mp hl).2 ht
  refine (List.perm_ext_iff_of_nodup (nodup_keys _) happart).mpr (fun l => ?_)
  have hkeys : l ∈ OrderedMap.keys (mergedShares factor s t) ↔ l ∈ t.keys ∨ l ∈ s.keys := by
    simp only [OrderedMap.mem_keys_iff, OrderedMap.contains]
    rw [mergedShares, OrderedMap.get?_foldl_entries (fun k x => mergedShare factor (s.of k) x)]
    cases t.get? l <;> simp
  rw [hkeys, List.mem_append, List.mem_filter, decide_eq_true_iff]
  tauto

/-- What is kept, and what both variables may carry of each label. -/
theorem sum_mergedShares (factor : ℚ) (s t : LabelShares ℚ) :
    (OrderedMap.values (mergedShares factor s t)).sum =
      kept s t + (t.keys.map (fun l => mergedShare factor (s.of l) (t.of l))).sum := by
  rw [values_eq, ((keys_mergedShares_perm factor s t).map _).sum_eq, List.map_append,
    List.sum_append, kept]
  congr 2 <;> refine List.map_congr_left (fun l hl => ?_) <;> rw [of_mergedShares]
  · exact if_neg (of_decide_eq_true (List.mem_filter.mp hl).2)
  · exact if_pos hl

theorem mergedShare_zero (x y : ℚ) : mergedShare 0 x y = 0 := by simp [mergedShare]

theorem mergedShare_of_pos (hfactor : 0 < factor) {x y : ℚ} (hxy : 0 ≤ min x y) :
    mergedShare factor x y = min 1 (min x y / factor) := by
  rw [mergedShare, Scalar.least_rat, Scalar.clampUnit_rat]
  rcases hxy.eq_or_lt with hzero | hpos
  · rw [← hzero]
    simp
  · have hquotient : 0 ≤ min x y / factor := div_nonneg hxy hfactor.le
    simp [hpos.ne', hfactor.ne', max_eq_right hquotient]

variable (hs : s.Exclusive) (ht : t.Exclusive)

include hs

theorem kept_bounds (t : LabelShares ℚ) : 0 ≤ kept s t ∧ kept s t ≤ 1 :=
  ⟨List.sum_nonneg (List.forall_mem_map.mpr (fun l _ => of_nonneg hs.nonneg l)),
    hs.sum_of_le ((nodup_keys s).filter _)⟩

theorem mergedShares_nonneg (factor : ℚ) (t : LabelShares ℚ) :
    ∀ x ∈ OrderedMap.values (mergedShares factor s t), 0 ≤ x := by
  rw [values_eq]
  refine List.forall_mem_map.mpr (fun l _ => ?_)
  rw [of_mergedShares]
  split
  · exact (isShare_mergedShare _ _ _).1
  · exact of_nonneg hs.nonneg l

include ht

theorem common_nonneg (l : LabelId) : 0 ≤ common s t l :=
  le_min (of_nonneg hs.nonneg l) (of_nonneg ht.nonneg l)

theorem common_eq_zero (h : ¬0 < common s t l) : common s t l = 0 :=
  le_antisymm (not_lt.mp h) (common_nonneg hs ht l)

/-- What two variables have in common is what they have of the labels that both may carry. -/
theorem overlap_eq : overlap s t = ((shared s t).map (common s t)).sum :=
  (sum_map_filter (fun _ _ hl => common_eq_zero hs ht hl)).symm

/-- The shares of two variables that are merged exclude each other again if what they have in common
is small against the factor, or if they share a single label and nothing else is kept. -/
theorem exclusive_mergedShares_iff (hfactor : 0 ≤ factor) :
    LabelShares.Exclusive (mergedShares factor s t) ↔
      factor = 0 ∨ overlap s t ≤ (1 - kept s t) * factor ∨
        (kept s t = 0 ∧ (shared s t).length = 1) := by
  have hsum : LabelShares.Exclusive (mergedShares factor s t) ↔
      (OrderedMap.values (mergedShares factor s t)).sum ≤ 1 :=
    ⟨Exclusive.le_one, fun hle => ⟨mergedShares_nonneg hs factor t, hle⟩⟩
  obtain ⟨hkept, hone⟩ := kept_bounds hs t
  rw [hsum, sum_mergedShares]
  rcases hfactor.eq_or_lt with rfl | hpos
  · simp [mergedShare_zero, hone]
  · have hmerged : (t.keys.map (fun l => mergedShare factor (s.of l) (t.of l))).sum =
        (((shared s t).map (fun l => common s t l / factor)).map (min 1)).sum := by
      rw [List.map_map, shared, sum_map_filter]
      · exact congrArg List.sum (List.map_congr_left
          (fun l _ => mergedShare_of_pos hpos (common_nonneg hs ht l)))
      · intro l _ hl
        simp [common_eq_zero hs ht hl]
    have hoverlap : ((shared s t).map (fun l => common s t l / factor)).sum =
        overlap s t / factor := by
      simp only [overlap_eq hs ht, div_eq_mul_inv, List.sum_map_mul_right]
    have hquotients : ∀ x ∈ (shared s t).map (fun l => common s t l / factor), 0 < x :=
      List.forall_mem_map.mpr (fun l hl => div_pos (lt_min_iff.mpr (mem_shared.mp hl).2) hpos)
    rw [hmerged, sum_least_le_one_iff hquotients hkept, hoverlap, List.length_map,
      ← le_sub_iff_add_le', div_le_iff₀ hpos]
    exact (or_iff_right hpos.ne').symm

theorem mul_le_common (l : LabelId) : s.of l * t.of l ≤ common s t l :=
  le_min (mul_le_of_le_one_right (of_nonneg hs.nonneg l) (ht.of_le_one l))
    (mul_le_of_le_one_left (of_nonneg ht.nonneg l) (hs.of_le_one l))

/-- Two variables share a single label if all that they share are certain at one of them. -/
theorem length_shared (hcertain : ∀ l ∈ shared s t, s.of l = 1 ∨ t.of l = 1)
    (hsome : overlap s t ≠ 0) : (shared s t).length = 1 := by
  have hunique : ∀ l ∈ shared s t, ∀ m ∈ shared s t, m = l := by
    intro l hl m hm
    obtain ⟨-, hsm, htm⟩ := mem_shared.mp hm
    exact (hcertain l hl).elim (fun hone => hs.eq_of_certain hone hsm)
      (fun hone => ht.eq_of_certain hone htm)
  have hne : shared s t ≠ [] := by
    intro hempty
    rw [overlap_eq hs ht, hempty] at hsome
    exact hsome rfl
  obtain ⟨l, hl⟩ := List.exists_mem_of_ne_nil _ hne
  have hall : (shared s t).Perm [l] := by
    refine (List.perm_ext_iff_of_nodup ((nodup_keys t).filter _) (List.nodup_singleton l)).mpr
      (fun m => ⟨fun hm => List.mem_singleton.mpr (hunique l hl m hm), fun hm => ?_⟩)
    rwa [List.mem_singleton.mp hm]
  exact hall.length_eq

omit hs ht in
/-- If a label is as likely at both variables as at the one that has less of it, then it is certain
at the other one. -/
theorem certain_of_common_eq (h : common s t l = s.of l * t.of l) (hsl : 0 < s.of l)
    (htl : 0 < t.of l) : s.of l = 1 ∨ t.of l = 1 := by
  rcases min_choice (s.of l) (t.of l) with hmin | hmin
  · exact Or.inr ((mul_eq_left₀ hsl.ne').mp (h.symm.trans hmin))
  · exact Or.inl ((mul_eq_right₀ htl.ne').mp (h.symm.trans hmin))

end LabelShares

section Factor

variable {db : Database ℚ} {labels : List LabelId} {s t : LabelShares ℚ}

/-- The chance that two matches agree in their node if labels exclude each other: they meet on a node
with a label that both have, or neither has a label. -/
def coincidence (db : Database ℚ) (s t : LabelShares ℚ) : ℚ :=
  (db.labels.toList.map (fun l => spread (db.nodes l) (s.of l * t.of l))).sum +
    spread db.total ((1 - (db.labels.toList.map s.of).sum) * (1 - (db.labels.toList.map t.of).sum))

variable (hs : s.Exclusive) (ht : t.Exclusive)

include hs ht

theorem mergeFactor_disjoint (hd : db.distribution = .disjoint labels) :
    mergeFactor db s t = coincidence db s t := by
  have hgroups : db.distribution.groups = db.labels.toList.map OrderedSet.singleton := by
    rw [Database.labels, hd]
    exact Distribution.groups_disjoint labels
  have hwalk : jointMass db s t = Walk.throughGroups db.distribution (fun group => sortByEvidence db
      (fun l => Scalar.greatest (s.of l) (t.of l)) group.toList) (pairShare s t) 0
        (db.labels.toList.map OrderedSet.singleton) (Vector.replicate 2 1) := by
    rw [jointMass, Walk.complete, hgroups]
  obtain ⟨hvisits, hrest⟩ : ((jointMass db s t).visits.map (fun v => spread (db.nodes v.label)
      (∏ i, v.mass.get i))).sum = (db.labels.toList.map
        (fun l => spread (db.nodes l) (∏ i, pairShare s t i l))).sum ∧
      ∏ i, (jointMass db s t).rest.get i = ∏ i, ((Vector.replicate 2 (1 : ℚ)).get i -
        (db.labels.toList.map (pairShare s t i)).sum) := by
    rw [hwalk]
    refine Walk.throughGroups_of_singletons (fun l x => spread (db.nodes l) x) (fun l => ?_)
      (fun _ => rfl) (fun i l _ => ?_) (fun i => ?_)
    · simp [spread]
    · rw [pairShare]
      split
      · exact LabelShares.of_nonneg hs.nonneg l
      · exact LabelShares.of_nonneg ht.nonneg l
    · rw [Walk.get_replicate, pairShare]
      split
      · exact hs.sum_of_le (OrderedSet.nodup_toList _)
      · exact ht.sum_of_le (OrderedSet.nodup_toList _)
  have hstaying : pairShare s t 0 = s.of := rfl
  have hleaving : pairShare s t 1 = t.of := rfl
  simp only [Fin.prod_univ_two, Walk.get_replicate, hstaying, hleaving] at hvisits hrest
  rw [mergeFactor_eq, hvisits, hrest, coincidence]

theorem coincidence_nonneg (db : Database ℚ) : 0 ≤ coincidence db s t := by
  refine add_nonneg (List.sum_nonneg (List.forall_mem_map.mpr (fun l _ => spread_nonneg ?_)))
    (spread_nonneg (mul_nonneg ?_ ?_))
  · exact mul_nonneg (LabelShares.of_nonneg hs.nonneg l) (LabelShares.of_nonneg ht.nonneg l)
  · exact sub_nonneg.mpr (hs.sum_of_le (OrderedSet.nodup_toList _))
  · exact sub_nonneg.mpr (ht.sum_of_le (OrderedSet.nodup_toList _))

/-- If every match has a label at one of the variables, then the chance is no larger than that of
carrying the same label. -/
theorem coincidence_le (hcounts : ∀ l ∈ db.labels, db.nodes l = 0 ∨ 1 ≤ db.nodes l)
    (hwhole : (db.labels.toList.map s.of).sum = 1 ∨ (db.labels.toList.map t.of).sum = 1) :
    coincidence db s t ≤ (t.keys.map (fun l => s.of l * t.of l)).sum := by
  have hproduct : ∀ l, 0 ≤ s.of l * t.of l := fun l =>
    mul_nonneg (LabelShares.of_nonneg hs.nonneg l) (LabelShares.of_nonneg ht.nonneg l)
  have hrest :
      (1 - (db.labels.toList.map s.of).sum) * (1 - (db.labels.toList.map t.of).sum) = 0 := by
    rcases hwhole with hone | hone <;> rw [hone] <;> ring
  have hnone : spread db.total 0 = 0 := by simp [spread]
  rw [coincidence, hrest, hnone, add_zero]
  refine (List.sum_le_sum (fun l hl => (spread_bounds (hproduct l) (hcounts l hl)).2)).trans ?_
  refine sum_map_le_of_support (OrderedSet.nodup_toList _) (fun l _ => hproduct l)
    (fun l _ hl => ?_)
  rw [LabelShares.of_eq_zero hl, mul_zero]

open LabelShares

/-- If every match has a label at one of the variables, then what they have in common is small
against the factor only if they share a single label, which is certain at one of them. -/
theorem single_of_overlap_le (hcounts : ∀ l ∈ db.labels, db.nodes l = 0 ∨ 1 ≤ db.nodes l)
    (hwhole : (db.labels.toList.map s.of).sum = 1 ∨ (db.labels.toList.map t.of).sum = 1)
    (hpos : 0 < coincidence db s t)
    (hle : overlap s t ≤ (1 - kept s t) * coincidence db s t) :
    kept s t = 0 ∧ (shared s t).length = 1 := by
  have hfactor := coincidence_le hs ht hcounts hwhole
  have hoverlap : (t.keys.map (fun l => s.of l * t.of l)).sum ≤ overlap s t :=
    List.sum_le_sum (fun l _ => mul_le_common hs ht l)
  have hkept := (kept_bounds hs t).1
  have hproduct : kept s t * coincidence db s t = 0 :=
    le_antisymm (by linarith) (mul_nonneg hkept hpos.le)
  have hnone : kept s t = 0 := (mul_eq_zero.mp hproduct).resolve_right hpos.ne'
  rw [hnone, sub_zero, one_mul] at hle
  -- no term of the overlap exceeds that of the chance, since the sums do not
  have hsame : ∀ l ∈ t.keys, common s t l = s.of l * t.of l := by
    intro l hl
    by_contra hne
    have hlt := List.sum_lt_sum _ _ (fun m _ => mul_le_common hs ht m)
      ⟨l, hl, lt_of_le_of_ne (mul_le_common hs ht l) (Ne.symm hne)⟩
    exact absurd (hlt.trans_le hle) (not_lt.mpr hfactor)
  refine ⟨hnone, length_shared hs ht (fun l hl => ?_) (hpos.trans_le (hfactor.trans hoverlap)).ne'⟩
  obtain ⟨hmem, hsl, htl⟩ := mem_shared.mp hl
  exact certain_of_common_eq (hsame l hmem) hsl htl

end Factor

/-- Merge two variables whose labels exclude each other. The shares that remain exclude each other
again if and only if no matches agree, or what the variables have in common is small enough, or they
share a single label and nothing else is kept. If every match has a label at one of the variables,
what they have in common is never small enough. -/
theorem mergeOn_exclusive_iff {db : Database ℚ} {labels : List LabelId}
    (hd : db.distribution = .disjoint labels)
    (hcounts : ∀ l ∈ db.labels, db.nodes l = 0 ∨ 1 ≤ db.nodes l) {staying leaving : String}
    (hne : staying ≠ leaving) {p : Profile ℚ} {s t : LabelShares ℚ}
    (hstaying : p.nodes.get? staying = some s) (hleaving : p.nodes.get? leaving = some t)
    (hs : s.Exclusive) (ht : t.Exclusive)
    (hapart : ∀ v, p.isNode v = true → p.isRelationship v = false) :
    ∃ p' merged, mergeOn db staying leaving p = .ok p' ∧
      p'.nodes.get? staying = some merged ∧
      (merged.Exclusive ↔ coincidence db s t = 0 ∨
        s.overlap t ≤ (1 - s.kept t) * coincidence db s t ∨
          (s.kept t = 0 ∧ (s.shared t).length = 1)) ∧
      ((db.labels.toList.map s.of).sum = 1 ∨ (db.labels.toList.map t.of).sum = 1 →
        (merged.Exclusive ↔ coincidence db s t = 0 ∨
          (s.kept t = 0 ∧ (s.shared t).length = 1))) := by
  have hnonneg := coincidence_nonneg hs ht db
  have hiff := LabelShares.exclusive_mergedShares_iff hs ht hnonneg
  have hmerge : mergeOn db staying leaving p = _ := mergeOn_eq hne hapart hstaying hleaving
  rw [mergeFactor_disjoint hs ht hd] at hmerge
  refine ⟨_, _, hmerge, ?_, hiff, fun hwhole => ?_⟩
  · rw [OrderedMap.get?_insert, if_pos rfl]
  · rw [hiff]
    constructor
    · rintro (hzero | hsmall | hsingle)
      · exact Or.inl hzero
      · rcases hnonneg.eq_or_lt with hzero | hpos
        · exact Or.inl hzero.symm
        · exact Or.inr (single_of_overlap_le hs ht hcounts hwhole hpos hsmall)
      · exact Or.inr hsingle
    · exact Or.imp_right Or.inr

/-- Two nodes with a label of their own each. -/
def couple : Database ℚ :=
  ⟨⟨{ Statistics.Store.empty 2 with
    labelCounts := (OrderedMap.singleton 0 1).insert 1 1 }, true⟩, .disjoint [0, 1]⟩

theorem couple_nodes : ∀ l ∈ couple.labels, couple.nodes l = 0 ∨ 1 ≤ couple.nodes l := by
  have hone : ∀ l ∈ couple.labels.toList, 1 ≤ couple.nodes l :=
    List.all_iff_forall_prop.mp (by decide +kernel)
  exact fun l hl => Or.inr (hone l hl)

/-- Two variables with the same share of either label. -/
def balanced (x : ℚ) : Profile ℚ :=
  ⟨OrderedMap.ofList [("a", (OrderedMap.singleton 0 x).insert 1 x),
    ("b", (OrderedMap.singleton 0 x).insert 1 x)], ∅, 4, false⟩

theorem exclusive_balanced {x : ℚ} (hx : 0 ≤ x) (hle : x + x ≤ 1) :
    LabelShares.Exclusive ((OrderedMap.singleton 0 x).insert 1 x) := by
  have hvalues : ((OrderedMap.singleton (0 : LabelId) x).insert 1 x).values = [x, x] := rfl
  constructor
  · simp [hvalues, hx]
  · simpa [hvalues] using hle

/-- Most matches have no label, so what the variables have in common is small. -/
theorem mergeOn_exclusive_couple : ∃ p' merged, mergeOn couple "a" "b" (balanced (1 / 8)) = .ok p' ∧
    p'.nodes.get? "a" = some merged ∧ merged.Exclusive := by
  have hshares := exclusive_balanced (show (0 : ℚ) ≤ 1 / 8 by norm_num) (by norm_num)
  have hd : couple.distribution = .disjoint [0, 1] := rfl
  obtain ⟨p', merged, hp', hget, hiff, -⟩ := mergeOn_exclusive_iff hd couple_nodes
    (by decide : "a" ≠ "b") (p := balanced (1 / 8)) rfl rfl hshares hshares (fun _ _ => rfl)
  exact ⟨p', merged, hp', hget, hiff.mpr (Or.inr (Or.inl (by decide +kernel)))⟩

/-- Of matches that have either label as often, all have both once they are merged. -/
theorem mergeOn_both_labels :
    couple.distribution = .disjoint [0, 1] ∧
      (∀ l ∈ couple.labels, couple.nodes l = 0 ∨ 1 ≤ couple.nodes l) ∧
      LabelShares.Exclusive ((OrderedMap.singleton 0 (1 / 2)).insert 1 (1 / 2)) ∧
      ((mergeOn couple "a" "b" (balanced (1 / 2))).toOption.bind
        (fun p => p.nodes.get? "a")).map (fun merged => merged.values.sum) = some 2 :=
  ⟨rfl, couple_nodes, exclusive_balanced (by norm_num) (by norm_num), by decide +kernel⟩

end PatternCardinality.Estimate
