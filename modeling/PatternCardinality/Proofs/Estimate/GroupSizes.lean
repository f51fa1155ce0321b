import PatternCardinality.Proofs.Estimate.Covering
import PatternCardinality.Proofs.Estimate.Evidence

/-!
# Sizes of groups of one label

Where every label has a group of its own, no node is in two groups, but the sizes treat labels as if
they might meet on nodes: labels with more nodes come first, and each takes its share of what those
in front of it have left. So groups further behind are too small, and the sizes are in proportion to
the nodes only if a single label has any.
-/

namespace PatternCardinality.Estimate

open Labels

namespace Database

variable {db : Database ℚ} {l m : LabelId}

/-- The nodes of all labels. -/
def labelled (db : Database ℚ) : ℚ := (db.labels.toList.map db.nodes).sum

/-- Labels with more nodes are in front of others, and of those with equally many the one with the
smaller identifier. -/
def InFront (db : Database ℚ) (l m : LabelId) : Prop :=
  db.nodes m < db.nodes l ∨ db.nodes m = db.nodes l ∧ l < m

instance : Decidable (db.InFront l m) := inferInstanceAs (Decidable (_ ∨ _))

theorem InFront.nodes_le (h : db.InFront l m) : db.nodes m ≤ db.nodes l := by
  rcases h with hlt | ⟨heq, -⟩
  · exact hlt.le
  · exact heq.le

theorem InFront.asymm (h : db.InFront l m) : ¬db.InFront m l := by
  rintro (hlt | ⟨heq, hlt⟩)
  · exact absurd hlt (not_lt.mpr h.nodes_le)
  · rcases h with hless | ⟨-, hless⟩
    · exact absurd heq hless.ne'
    · exact absurd hless (Int32.lt_asymm hlt)

end Database

/-- Shares that are together positive leave less than all. -/
theorem prod_lt_one {xs : List ℚ} (h : 0 < xs.sum) : (xs.map fun x => max 0 (1 - x)).prod < 1 := by
  -- what a share leaves is no more than its negative exponential, and these multiply as sums add
  have hexp : ∀ xs : List ℚ, 0 ≤ (xs.map fun x => max 0 (1 - x)).prod ∧
      (((xs.map fun x => max 0 (1 - x)).prod : ℚ) : ℝ) ≤ Real.exp (-(xs.sum : ℚ)) := by
    intro xs
    induction xs with
    | nil => simp
    | cons x xs ih =>
      obtain ⟨hnonneg, hle⟩ := ih
      have hone : ((max 0 (1 - x) : ℚ) : ℝ) ≤ Real.exp (-x) := by
        push_cast
        exact max_le (Real.exp_pos _).le (Real.one_sub_le_exp_neg x)
      rw [List.map_cons, List.prod_cons, List.sum_cons]
      refine ⟨mul_nonneg (le_max_left _ _) hnonneg, ?_⟩
      rw [Rat.cast_mul, Rat.cast_add, neg_add, Real.exp_add]
      exact mul_le_mul hone hle (Rat.cast_nonneg.mpr hnonneg) (Real.exp_pos _).le
  have hlt : Real.exp (-(xs.sum : ℚ)) < 1 :=
    Real.exp_lt_one_iff.mpr (neg_neg_of_pos (Rat.cast_pos.mpr h))
  exact_mod_cast (hexp xs).2.trans_lt hlt

namespace Partition

/-- What is left of all nodes without those of a label. -/
def without (db : Database ℚ) (l : LabelId) : ℚ := max 0 (1 - nodeShare db l)

/-- What a label takes: its share of the nodes that the labels in front of it leave. -/
def part (db : Database ℚ) (l : LabelId) : ℚ :=
  nodeShare db l * ((db.labels.toList.filter (db.InFront · l)).map (without db)).prod

variable {db : Database ℚ} {l : LabelId} {more : List LabelId} {sizes : List ℚ} {group : ℕ} {r : ℚ}

theorem without_nonneg (db : Database ℚ) (l : LabelId) : 0 ≤ without db l := le_max_left _ _

theorem nodeShare_of_pos (h : 0 < db.total) (l : LabelId) :
    nodeShare db l = db.nodes l / db.total := if_pos h

theorem nodeShare_of_nonpos (h : db.total ≤ 0) (l : LabelId) : nodeShare db l = 0 :=
  if_neg (not_lt.mpr h)

section Fill

theorem getD_addAt {i : ℕ} (hi : i < sizes.length) (x : ℚ) (j : ℕ) :
    (addAt sizes i x).getD j 0 = sizes.getD j 0 + if j = i then x else 0 := by
  rw [addAt, getD_set hi]
  split
  · next h => rw [h]
  · rw [add_zero]

/-- Where nothing remains labels take nothing. -/
theorem fill_zero (db : Database ℚ) (labels : List LabelId) (processed : OrderedSet LabelId)
    (sizes : List ℚ) : fill db labels processed sizes 0 = sizes := by
  induction labels generalizing processed with
  | nil => rfl
  | cons l more ih =>
    rw [fill]
    split
    · exact ih _
    · dsimp only
      split
      · exact ih _
      · simp only [mul_zero, sub_zero, addAt_zero, le_refl, if_true]

variable (hbelow : ∀ l, db.distribution.below l = ∅)

include hbelow

/-- A label takes its share of what remains, and leaves the rest if there is any. -/
theorem fill_cons (hgroup : db.distribution.groupOf? l = some group) (hr : 0 ≤ r) :
    fill db (l :: more) ∅ sizes r =
      fill db more ∅ (addAt sizes group (nodeShare db l * r)) (r * without db l) := by
  have hrest : r * without db l = max 0 (r - nodeShare db l * r) := by
    rw [without, mul_max_of_nonneg _ _ hr, mul_zero, mul_sub, mul_one, mul_comm r (nodeShare db l)]
  have hnone : (∅ : OrderedSet LabelId).union ∅ = ∅ := rfl
  rw [fill, if_neg (OrderedSet.not_mem_empty l), hbelow, hnone]
  simp only [hgroup]
  split
  · next h => rw [hrest, max_eq_left h, fill_zero]
  · next h => rw [hrest, max_eq_right (not_le.mp h).le]

variable (hsizes : sizes.length = db.distribution.groups.length)

include hsizes

/-- Labels change the sizes of no other groups than theirs. -/
theorem getD_fill_of_ne {labels : List LabelId} (hr : 0 ≤ r)
    (h : ∀ m ∈ labels, ∃ g, db.distribution.groupOf? m = some g ∧ g ≠ group) :
    (fill db labels ∅ sizes r).getD group 0 = sizes.getD group 0 := by
  induction labels generalizing sizes r with
  | nil => rfl
  | cons m more ih =>
    obtain ⟨⟨g, hgroup, hne⟩, hmore⟩ := List.forall_mem_cons.mp h
    rw [fill_cons hbelow hgroup hr, ih ((length_addAt ..).trans hsizes)
      (mul_nonneg hr (without_nonneg db m)) hmore,
      getD_addAt (hsizes ▸ groupOf?_lt hgroup), if_neg hne.symm, add_zero]

/-- A label that is alone in its group takes its share of what those in front of it leave. -/
theorem getD_fill {before after : List LabelId} (hr : 0 ≤ r)
    (hgroup : db.distribution.groupOf? l = some group)
    (h : ∀ m ∈ before ++ after, ∃ g, db.distribution.groupOf? m = some g ∧ g ≠ group) :
    (fill db (before ++ l :: after) ∅ sizes r).getD group 0 =
      sizes.getD group 0 + nodeShare db l * (r * (before.map (without db)).prod) := by
  induction before generalizing sizes r with
  | nil =>
    rw [List.nil_append] at h ⊢
    rw [fill_cons hbelow hgroup hr,
      getD_fill_of_ne hbelow ((length_addAt ..).trans hsizes)
        (mul_nonneg hr (without_nonneg db l)) h,
      getD_addAt (hsizes ▸ groupOf?_lt hgroup), if_pos rfl, List.map_nil, List.prod_nil, mul_one]
  | cons m before ih =>
    obtain ⟨⟨g, hg, hne⟩, hmore⟩ := List.forall_mem_cons.mp h
    rw [List.cons_append, fill_cons hbelow hg hr, ih ((length_addAt ..).trans hsizes)
      (mul_nonneg hr (without_nonneg db m)) hmore, getD_addAt (hsizes ▸ groupOf?_lt hg),
      if_neg hne.symm, add_zero, List.map_cons, List.prod_cons, mul_assoc]

/-- Labels take all but what they leave one after the other, or more. -/
theorem le_sum_fill {labels : List LabelId} (hr : 0 ≤ r)
    (h : ∀ m ∈ labels, ∃ g, db.distribution.groupOf? m = some g) :
    sizes.sum + r - r * (labels.map (without db)).prod ≤ (fill db labels ∅ sizes r).sum := by
  induction labels generalizing sizes r with
  | nil => simp [fill]
  | cons m more ih =>
    obtain ⟨⟨g, hg⟩, hmore⟩ := List.forall_mem_cons.mp h
    have hrest := ih ((length_addAt sizes g (nodeShare db m * r)).trans hsizes)
      (mul_nonneg hr (without_nonneg db m)) hmore
    have hleft : r * (1 - nodeShare db m) ≤ r * without db m :=
      mul_le_mul_of_nonneg_left (le_max_right _ _) hr
    rw [sum_addAt (hsizes ▸ groupOf?_lt hg)] at hrest
    rw [fill_cons hbelow hg hr, List.map_cons, List.prod_cons, ← mul_assoc]
    linarith

end Fill

section Order

/-- The labels in the order in which they take their shares. -/
def order (db : Database ℚ) : List LabelId :=
  sortByEvidence db (nodeShare db) db.labels.toList

theorem order_perm : (order db).Perm db.labels.toList := sortByEvidence_perm

/-- Shares are as dense as nodes, for labels that have any. -/
theorem evidence_eq_lt_iff (h : 0 < db.total) {l m : LabelId} :
    (db.evidence (nodeShare db) l).order (db.evidence (nodeShare db) m) = .lt ↔
      db.InFront l m := by
  have hdensity : ∀ l,
      db.density (nodeShare db l) l = if 0 < db.nodes l then 1 / db.total else 0 := by
    intro l
    rw [Database.density, nodeShare_of_pos h]
    split
    · next hpos => field_simp
    · rfl
  have hone : 0 < 1 / db.total := one_div_pos.mpr h
  have hlt : ∀ l m, nodeShare db l < nodeShare db m ↔ db.nodes l < db.nodes m := by
    intro l m
    rw [nodeShare_of_pos h, nodeShare_of_pos h, div_lt_div_iff_of_pos_right h]
  have heq : ∀ l m, nodeShare db l = nodeShare db m ↔ db.nodes l = db.nodes m := by
    intro l m
    rw [nodeShare_of_pos h, nodeShare_of_pos h, div_left_inj' h.ne']
  simp only [Evidence.order, Database.evidence, Ordering.then_eq_lt, Scalar.compareDescending_rat,
    compare_lt_iff_lt, compare_eq_iff_eq, hdensity, hlt, heq, Std.compare_eq_lt, Database.InFront]
  by_cases hl : 0 < db.nodes l <;> by_cases hm : 0 < db.nodes m <;>
    simp only [hl, hm, if_true, if_false, lt_irrefl, false_or, true_and, hone, hone.ne, hone.asymm]
  · have hless : db.nodes m < db.nodes l := (not_lt.mp hm).trans_lt hl
    simp [hless]
  · have hless : db.nodes l < db.nodes m := (not_lt.mp hl).trans_lt hm
    simp [hless.asymm, hless.ne']

theorem pairwise_order (h : 0 < db.total) : (order db).Pairwise db.InFront :=
  (decreasing_sortByEvidence (OrderedSet.nodup_toList _)).imp (evidence_eq_lt_iff h).mp

/-- The labels in front of one are those before it. -/
theorem filter_inFront {before after : List LabelId}
    (h : (before ++ l :: after).Pairwise db.InFront) :
    (before ++ l :: after).filter (db.InFront · l) = before := by
  obtain ⟨-, hrest, hbefore⟩ := List.pairwise_append.mp h
  have hafter := (List.pairwise_cons.mp hrest).1
  have hself : ¬db.InFront l l := fun hl => hl.asymm hl
  rw [List.filter_append, List.filter_cons, if_neg (by simpa using hself),
    List.filter_eq_self.mpr (fun m hm => decide_eq_true (hbefore m hm l List.mem_cons_self)),
    List.filter_eq_nil_iff.mpr (fun m hm => by simpa using (hafter m hm).asymm), List.append_nil]

theorem part_eq (h : 0 < db.total) {before after : List LabelId}
    (horder : order db = before ++ l :: after) :
    part db l = nodeShare db l * (before.map (without db)).prod := by
  have hperm : (db.labels.toList.filter (db.InFront · l)).Perm
      ((order db).filter (db.InFront · l)) := order_perm.symm.filter _
  rw [horder, filter_inFront (horder ▸ pairwise_order h)] at hperm
  rw [part, (hperm.map (without db)).prod_eq]

end Order

section Disjoint

variable {labels : List LabelId} (hd : db.distribution = .disjoint labels)

include hd

theorem below_eq (l : LabelId) : db.distribution.below l = ∅ := by
  rw [hd]
  rfl

theorem groups_eq : db.distribution.groups = db.labels.toList.map OrderedSet.singleton := by
  rw [Database.labels, hd]
  exact Distribution.groups_disjoint labels

theorem length_groups : db.distribution.groups.length = db.labels.toList.length := by
  rw [groups_eq hd, List.length_map]

/-- The group of a label stands where the label does. -/
theorem groupOf?_getElem {i : ℕ} (hi : i < db.labels.toList.length) :
    db.distribution.groupOf? db.labels.toList[i] = some i := by
  have hapart : db.distribution.Apart := hd ▸ Distribution.apart_disjoint labels
  refine hapart.groupOf?_eq (length_groups hd ▸ hi) ?_
  simp only [groups_eq hd, List.getElem_map]
  exact OrderedSet.mem_singleton.mpr rfl

/-- Group by group, labels take their shares of what those in front of them leave. -/
theorem fill_order : fill db (order db) ∅ (List.replicate db.distribution.groups.length 0) 1 =
    db.labels.toList.map (part db) := by
  refine List.ext_getElem (by simp [length_fill, length_groups hd]) fun i hi hmap => ?_
  have hlabel : i < db.labels.toList.length := List.length_map (part db) ▸ hmap
  rw [List.getElem_map, ← List.getD_eq_getElem _ 0 hi]
  obtain ⟨before, after, horder⟩ := List.append_of_mem
    (order_perm.mem_iff.mpr (List.getElem_mem hlabel))
  have hnodup : (before ++ db.labels.toList[i] :: after).Nodup :=
    horder ▸ order_perm.nodup_iff.mpr (OrderedSet.nodup_toList _)
  have hothers : ∀ m ∈ before ++ after, ∃ g, db.distribution.groupOf? m = some g ∧ g ≠ i := by
    intro m hm
    have hne : db.labels.toList[i] ≠ m := by
      rintro rfl
      exact (List.nodup_middle.mp hnodup).notMem hm
    have hmem : m ∈ order db := horder ▸ List.perm_middle.mem_iff.mpr (List.mem_cons_of_mem _ hm)
    obtain ⟨j, hj, rfl⟩ := List.getElem_of_mem (order_perm.mem_iff.mp hmem)
    refine ⟨j, groupOf?_getElem hd hj, ?_⟩
    rintro rfl
    exact hne rfl
  rw [horder, getD_fill (below_eq hd) List.length_replicate zero_le_one (groupOf?_getElem hd hlabel)
    hothers, one_mul, List.getD_replicate _ (length_groups hd ▸ hlabel), zero_add]
  rcases lt_or_ge 0 db.total with htotal | htotal
  · rw [part_eq htotal horder]
  · rw [part, nodeShare_of_nonpos htotal, zero_mul, zero_mul]

/-- Where labels have nodes, they take something together. -/
theorem sum_part_pos (htotal : 0 < db.total) (hlabelled : 0 < db.labelled) :
    0 < (db.labels.toList.map (part db)).sum := by
  have hshares : 0 < ((order db).map (nodeShare db)).sum := by
    have hsum : (db.labels.toList.map (nodeShare db)).sum = db.labelled * db.total⁻¹ := by
      rw [Database.labelled, ← List.sum_map_mul_right, funext (nodeShare_of_pos htotal)]
      simp only [div_eq_mul_inv]
    rw [(order_perm.map (nodeShare db)).sum_eq, hsum]
    exact mul_pos hlabelled (inv_pos.mpr htotal)
  have hleft : ((order db).map (without db)).prod < 1 := by
    have hprod := prod_lt_one hshares
    rwa [List.map_map] at hprod
  have hgroups : ∀ m ∈ order db, ∃ g, db.distribution.groupOf? m = some g := by
    intro m hm
    obtain ⟨j, hj, rfl⟩ := List.getElem_of_mem (order_perm.mem_iff.mp hm)
    exact ⟨j, groupOf?_getElem hd hj⟩
  have hlength : (List.replicate db.distribution.groups.length (0 : ℚ)).length =
      db.distribution.groups.length := List.length_replicate
  have hle := le_sum_fill (below_eq hd) hlength zero_le_one hgroups
  rw [fill_order hd, List.sum_replicate, smul_zero] at hle
  linarith

/-- The sizes are what labels take, in proportion to all they take together. -/
theorem sizes_eq (htwo : 2 ≤ db.labels.toList.length) (hlabelled : 0 < db.labelled) :
    Partition.sizes db = db.labels.toList.map fun l =>
      part db l / (db.labels.toList.map (part db)).sum := by
  have hmany : ¬db.distribution.groups.length < 2 := by
    rw [length_groups hd]
    exact not_lt.mpr htwo
  have hfill := fill_order hd
  rw [order] at hfill
  rw [Partition.sizes]
  simp only [if_neg hmany, hfill, Scalar.sum_rat]
  split
  · rw [List.map_map]
    rfl
  · next hnone =>
    have htotal : db.total ≤ 0 := not_lt.mp fun htotal => hnone (sum_part_pos hd htotal hlabelled)
    refine List.map_congr_left fun l _ => ?_
    rw [part, nodeShare_of_nonpos htotal, zero_mul, zero_div]

theorem getElem?_sizes (htwo : 2 ≤ db.labels.toList.length) (hlabelled : 0 < db.labelled)
    (hl : l ∈ db.labels) : ∃ group, db.distribution.groupOf? l = some group ∧
      (Partition.sizes db)[group]? =
        some (part db l / (db.labels.toList.map (part db)).sum) := by
  obtain ⟨i, hi, rfl⟩ := List.getElem_of_mem (OrderedSet.mem_toList.mpr hl)
  refine ⟨i, groupOf?_getElem hd hi, ?_⟩
  rw [sizes_eq hd htwo hlabelled, List.getElem?_map, List.getElem?_eq_getElem hi, Option.map_some]

end Disjoint

section Proportional

/-- If every label takes as much as if nothing were missing, and something is missing, no label has
nodes. -/
theorem nodeShare_eq_zero {xs : List LabelId} (hr : r ≠ 1) (h : ∀ before l after,
    xs = before ++ l :: after →
      nodeShare db l * (r * (before.map (without db)).prod) = nodeShare db l) :
    ∀ l ∈ xs, nodeShare db l = 0 := by
  induction xs with
  | nil => simp
  | cons m xs ih =>
    have hm : nodeShare db m = 0 := by
      have hfirst := h [] m xs rfl
      rw [List.map_nil, List.prod_nil, mul_one] at hfirst
      by_contra hne
      exact hr (mul_left_cancel₀ hne (hfirst.trans (mul_one _).symm))
    have hwithout : without db m = 1 := by simp [without, hm]
    refine List.forall_mem_cons.mpr ⟨hm, ih fun before l after hxs => ?_⟩
    have hlater := h (m :: before) l after (congrArg (m :: ·) hxs)
    rwa [List.map_cons, List.prod_cons, hwithout, one_mul] at hlater

theorem exists_counted (hlabelled : 0 < db.labelled) :
    ∃ l ∈ db.labels.toList, 0 < db.nodes l := by
  refine List.exists_lt_of_sum_lt (fun _ => (0 : ℚ)) db.nodes ?_
  rwa [List.map_const', List.sum_replicate, smul_zero]

/-- If labels have any nodes together, the first one has some. -/
theorem exists_first (hlabelled : 0 < db.labelled) (htotal : 0 < db.total) :
    ∃ first rest, order db = first :: rest ∧ 0 < db.nodes first := by
  obtain ⟨l, hl, hpos⟩ := exists_counted hlabelled
  have hmem : l ∈ order db := order_perm.mem_iff.mpr hl
  have hpairwise := pairwise_order htotal
  cases horder : order db with
  | nil =>
    rw [horder] at hmem
    cases hmem
  | cons first rest =>
    rw [horder] at hmem hpairwise
    refine ⟨first, rest, rfl, ?_⟩
    rcases List.mem_cons.mp hmem with rfl | hrest
    · exact hpos
    · exact hpos.trans_le ((List.pairwise_cons.mp hpairwise).1 l hrest).nodes_le

/-- If what labels take is in proportion to their nodes, only one of them has nodes. -/
theorem single_of_proportional (hlabelled : 0 < db.labelled) (htotal : 0 < db.total)
    (hpos : 0 < (db.labels.toList.map (part db)).sum) (h : ∀ l ∈ db.labels,
      part db l / (db.labels.toList.map (part db)).sum = db.nodes l / db.labelled) :
    ∃ l ∈ db.labels, ∀ m ∈ db.labels, m ≠ l → db.nodes m = 0 := by
  have hmem : ∀ {l}, l ∈ order db ↔ l ∈ db.labels := by
    intro l
    rw [order_perm.mem_iff, OrderedSet.mem_toList]
  obtain ⟨first, rest, horder, hfirst⟩ := exists_first hlabelled htotal
  have hlargest : first ∈ db.labels := hmem.mp (horder ▸ List.mem_cons_self)
  have hshare : 0 < nodeShare db first := by
    rw [nodeShare_of_pos htotal]
    exact div_pos hfirst htotal
  -- nothing is in front of the first label, so it takes its share, and with it all of them do
  have hpart : part db first = nodeShare db first := by
    have htaken : part db first = nodeShare db first * (List.map (without db) []).prod :=
      part_eq htotal horder
    rwa [List.map_nil, List.prod_nil, mul_one] at htaken
  have hscale : (db.labels.toList.map (part db)).sum = db.labelled / db.total := by
    have hequal := h first hlargest
    rw [hpart, nodeShare_of_pos htotal] at hequal
    field_simp at hequal ⊢
    linarith
  have hwhole : ∀ l ∈ db.labels, part db l = nodeShare db l := by
    intro l hl
    have hequal := h l hl
    rw [hscale] at hequal
    rw [nodeShare_of_pos htotal]
    field_simp at hequal ⊢
    linarith
  have hrest : ∀ l ∈ rest, nodeShare db l = 0 := by
    have hless : without db first ≠ 1 := (max_lt one_pos (sub_lt_self 1 hshare)).ne
    refine nodeShare_eq_zero hless fun before l after hsplit => ?_
    have hlater : order db = (first :: before) ++ l :: after := by
      rw [horder, hsplit, List.cons_append]
    have hl : l ∈ db.labels := hmem.mp (hlater ▸ by simp)
    have htaken := part_eq htotal hlater
    rw [hwhole l hl, List.map_cons, List.prod_cons] at htaken
    exact htaken.symm
  refine ⟨first, hlargest, fun m hm hne => ?_⟩
  have hlater : m ∈ rest := (List.mem_cons.mp (horder ▸ hmem.mpr hm)).resolve_left hne
  have hzero := hrest m hlater
  rw [nodeShare_of_pos htotal] at hzero
  exact (div_eq_zero_iff.mp hzero).resolve_right htotal.ne'

/-- What is zero for all labels but one adds up to what it is for this one. -/
theorem sum_eq_single (hl : l ∈ db.labels) {f : LabelId → ℚ}
    (hf : ∀ m ∈ db.labels, m ≠ l → f m = 0) : (db.labels.toList.map f).sum = f l := by
  rw [List.sum_map_eq_nsmul_single l f fun m hne hm => hf m (OrderedSet.mem_toList.mp hm) hne,
    List.count_eq_one_of_mem (OrderedSet.nodup_toList _) (OrderedSet.mem_toList.mpr hl), one_smul]

/-- If only one label has nodes, it takes all that is taken. -/
theorem proportional_of_single (hlabelled : 0 < db.labelled) (htotal : 0 < db.total)
    (hpos : 0 < (db.labels.toList.map (part db)).sum) (hl : l ∈ db.labels)
    (hothers : ∀ m ∈ db.labels, m ≠ l → db.nodes m = 0) : ∀ m ∈ db.labels,
      part db m / (db.labels.toList.map (part db)).sum = db.nodes m / db.labelled := by
  have hnothing : ∀ m ∈ db.labels, m ≠ l → part db m = 0 := by
    intro m hm hne
    rw [part, nodeShare_of_pos htotal, hothers m hm hne, zero_div, zero_mul]
  have hall : db.labelled = db.nodes l := sum_eq_single hl hothers
  have htaken : (db.labels.toList.map (part db)).sum = part db l := sum_eq_single hl hnothing
  intro m hm
  by_cases hml : m = l
  · rw [hml, htaken, hall, div_self (htaken ▸ hpos).ne', div_self (hall ▸ hlabelled).ne']
  · rw [hnothing m hm hml, hothers m hm hml, zero_div, zero_div]

end Proportional

/-- With a group for each label, the size of a group is what its label takes of what those in front
of it leave, in proportion to what all labels take, and nothing if there are no nodes. So the sizes
are in proportion to the nodes of the labels if there are nodes and only one label has any, and not
otherwise. -/
theorem sizes_disjoint {db : Database ℚ} {labels : List LabelId}
    (hd : db.distribution = .disjoint labels) (htwo : 2 ≤ db.labels.toList.length)
    (hlabelled : 0 < db.labelled) :
    (0 < db.total → 0 < (db.labels.toList.map (part db)).sum) ∧
    (∀ l ∈ db.labels, ∃ group, db.distribution.groupOf? l = some group ∧
      (Partition.sizes db)[group]? = some (if 0 < db.total then
        part db l / (db.labels.toList.map (part db)).sum else 0)) ∧
    ((∀ l ∈ db.labels, ∃ group, db.distribution.groupOf? l = some group ∧
        (Partition.sizes db)[group]? = some (db.nodes l / db.labelled)) ↔
      0 < db.total ∧ ∃ l ∈ db.labels, ∀ m ∈ db.labels, m ≠ l → db.nodes m = 0) := by
  have hsize : ∀ l ∈ db.labels, ∃ group, db.distribution.groupOf? l = some group ∧
      (Partition.sizes db)[group]? =
        some (part db l / (db.labels.toList.map (part db)).sum) :=
    fun l => getElem?_sizes hd htwo hlabelled
  have hnone : db.total ≤ 0 → ∀ l, part db l = 0 := by
    intro htotal l
    rw [part, nodeShare_of_nonpos htotal, zero_mul]
  refine ⟨fun htotal => sum_part_pos hd htotal hlabelled, fun l hl => ?_, ?_⟩
  · obtain ⟨group, hgroup, hvalue⟩ := hsize l hl
    refine ⟨group, hgroup, ?_⟩
    split
    · exact hvalue
    · next htotal => rw [hvalue, hnone (not_lt.mp htotal), zero_div]
  · have hequal : (∀ l ∈ db.labels, ∃ group, db.distribution.groupOf? l = some group ∧
        (Partition.sizes db)[group]? = some (db.nodes l / db.labelled)) ↔
        ∀ l ∈ db.labels, part db l / (db.labels.toList.map (part db)).sum =
          db.nodes l / db.labelled := by
      refine forall₂_congr fun l hl => ?_
      obtain ⟨group, hgroup, hvalue⟩ := hsize l hl
      simp [hgroup, hvalue]
    rw [hequal]
    rcases lt_or_ge 0 db.total with htotal | htotal
    · have hpos := sum_part_pos hd htotal hlabelled
      exact ⟨fun h => ⟨htotal, single_of_proportional hlabelled htotal hpos h⟩,
        fun ⟨_, l, hl, hothers⟩ => proportional_of_single hlabelled htotal hpos hl hothers⟩
    · refine iff_of_false (fun h => ?_) fun h => absurd h.1 (not_lt.mpr htotal)
      obtain ⟨l, hl, hpos⟩ := exists_counted hlabelled
      have hzero := h l (OrderedSet.mem_toList.mp hl)
      rw [hnone htotal, zero_div] at hzero
      exact (div_pos hpos hlabelled).ne hzero

/-- Ten nodes with one of three labels each. -/
def threefold : Database ℚ :=
  ⟨⟨{ Statistics.Store.empty 10 with
    labelCounts := OrderedMap.ofList [(0, 2), (1, 5), (2, 3)] }, true⟩, .disjoint [0, 1, 2]⟩

/-- The last of three labels takes a fifth of what the others leave, instead of a fifth. -/
theorem sizes_disjoint_threefold : threefold.distribution = .disjoint [0, 1, 2] ∧
    2 ≤ threefold.labels.toList.length ∧ 0 < threefold.labelled ∧ 0 < threefold.total ∧
    ∃ group, threefold.distribution.groupOf? 0 = some group ∧
      (Partition.sizes threefold)[group]? = some (7 / 72) := by
  have htwo : 2 ≤ threefold.labels.toList.length := by decide +kernel
  have hlabelled : 0 < threefold.labelled := by decide +kernel
  have htotal : 0 < threefold.total := by decide +kernel
  have hd : threefold.distribution = .disjoint [0, 1, 2] := rfl
  obtain ⟨-, hsizes, -⟩ := sizes_disjoint hd htwo hlabelled
  obtain ⟨group, hgroup, hvalue⟩ := hsizes 0 (by decide +kernel)
  have hpart : part threefold 0 / (threefold.labels.toList.map (part threefold)).sum = 7 / 72 := by
    decide +kernel
  rw [if_pos htotal, hpart] at hvalue
  exact ⟨hd, htwo, hlabelled, htotal, group, hgroup, hvalue⟩

/-- Four nodes, a half of them with each of two labels. -/
def halved : Database ℚ :=
  ⟨⟨{ Statistics.Store.empty 4 with labelCounts := OrderedMap.ofList [(0, 2), (3, 2)] }, true⟩,
    .disjoint [0, 3]⟩

/-- The same, but that the nodes with the first label carry one of two labels below it. -/
def branched : Database ℚ :=
  ⟨⟨{ Statistics.Store.empty 4 with
      labelCounts := OrderedMap.ofList [(0, 2), (1, 1), (2, 1), (3, 2)] }, true⟩,
    ⟨[OrderedSet.ofList [0, 1, 2], OrderedSet.ofList [3]],
      OrderedMap.singleton 0 (OrderedSet.ofList [1, 2])⟩⟩

/-- Of two labels with equally many nodes the first one has a group twice as large, with labels below
it too, and then a join has three quarters of the size that it had with equal groups. -/
theorem sizes_disjoint_uneven :
    (halved.distribution = .disjoint [0, 3] ∧ halved.labels.toList.length = 2 ∧
      halved.labelled = 4 ∧ Partition.sizes halved = [2 / 3, 1 / 3] ∧
      halved.labels.toList.map (fun l => halved.nodes l / halved.labelled) = [1 / 2, 1 / 2]) ∧
    Partition.sizes branched = [2 / 3, 1 / 3] ∧
    (selfJoin branched "a" "b" ⟨OrderedMap.ofList [("a", OrderedMap.singleton 1 1),
      ("b", OrderedMap.singleton 2 1)], ∅, 8, false⟩).toOption.map Profile.size = some 3 := by
  decide +kernel

end Partition

end PatternCardinality.Estimate
