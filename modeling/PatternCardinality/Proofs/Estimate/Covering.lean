import Mathlib.Algebra.BigOperators.Ring.List
import Mathlib.Data.List.Perm.Subperm
import PatternCardinality.Proofs.Estimate.Indexed
import PatternCardinality.Proofs.Estimate.Merged
import PatternCardinality.Proofs.Estimate.Sound

/-!
# How much of each group is covered

To identify two variables by groups, labels of the staying variable are taken one after the other.
What a label covers of its group is its share of what labels before it have left, so a group is
covered as far as independent labels with these shares would cover it. The factor grows with the
coverage of all groups, and what they cover is taken from the mass that remains.
-/

namespace PatternCardinality

open Estimate Labels

namespace Estimate.LabelShares

variable {s : LabelShares ℚ} {xs ys : List LabelId}

/-- The share of the nodes with none of some labels, if labels are independent. -/
def missing (s : LabelShares ℚ) (labels : List LabelId) : ℚ :=
  (labels.map (fun l => 1 - s.of l)).prod

theorem missing_cons (l : LabelId) (labels : List LabelId) :
    s.missing (l :: labels) = (1 - s.of l) * s.missing labels := by
  rw [missing, List.map_cons, List.prod_cons, missing]

theorem AllShares.isShare_missing (h : s.AllShares) (labels : List LabelId) :
    IsShare (s.missing labels) := by
  induction labels with
  | nil => exact isShare_one
  | cons l labels ih =>
    have hl := h.of l
    rw [missing_cons]
    exact ⟨mul_nonneg (sub_nonneg.mpr hl.2) ih.1,
      mul_le_one₀ (by linarith [hl.1]) ih.1 ih.2⟩

/-- Of more labels no more nodes have none. -/
theorem AllShares.missing_le (h : s.AllShares) (hsub : xs.Subperm ys) :
    s.missing ys ≤ s.missing xs := by
  obtain ⟨zs, hperm, hzs⟩ := hsub
  have hsame : s.missing zs = s.missing xs := (hperm.map _).prod_eq
  rw [← hsame]
  clear hperm hsame
  induction hzs with
  | slnil => exact le_rfl
  | @cons xs ys l _ ih =>
    rw [missing_cons]
    refine (mul_le_of_le_one_left (h.isShare_missing ys).1 ?_).trans ih
    linarith [(h.of l).1]
  | cons_cons l _ ih =>
    rw [missing_cons, missing_cons]
    exact mul_le_mul_of_nonneg_left ih (sub_nonneg.mpr (h.of l).2)

end Estimate.LabelShares

/-- The labels of a group that lie below no other of it. -/
def Labels.Distribution.tops (d : Distribution) (group : OrderedSet LabelId) : List LabelId :=
  group.toList.filter (fun l => group.toList.all (fun m => !d.isBelow l m))

namespace Estimate.Partition

variable {db : Database ℚ} {sizes : List ℚ} {staying leaving : LabelShares ℚ} {group : ℕ}
  {l : LabelId} {s : Progress ℚ}

/-- The labels of the group with some index. -/
def members (db : Database ℚ) (group : ℕ) : OrderedSet LabelId :=
  db.distribution.groups.getD group ∅

theorem mem_labels_of_members (h : l ∈ members db group) : l ∈ db.labels := by
  rw [members, List.getD_eq_getElem?_getD] at h
  cases hget : db.distribution.groups[group]? with
  | none =>
    rw [hget] at h
    exact absurd h List.not_mem_nil
  | some g =>
    rw [hget] at h
    exact Distribution.mem_labels.mpr ⟨g, List.mem_of_getElem? hget, h⟩

theorem mem_members (h : db.distribution.groupOf? l = some group) : l ∈ members db group := by
  obtain ⟨hlt, hmem, -⟩ := List.findIdx?_eq_some_iff_getElem.mp h
  rw [members, List.getD_eq_getElem _ _ hlt]
  exact of_decide_eq_true hmem

/-- The group of a label is the one that holds it. -/
theorem groupOf?_of_members (hapart : db.distribution.Apart) (h : l ∈ members db group) :
    db.distribution.groupOf? l = some group := by
  rw [members] at h
  by_cases hlt : group < db.distribution.groups.length
  · rw [List.getD_eq_getElem _ _ hlt] at h
    exact hapart.groupOf?_eq hlt h
  · rw [List.getD_eq_default _ _ (not_lt.mp hlt)] at h
    exact absurd h List.not_mem_nil

theorem exists_groupOf? (hapart : db.distribution.Apart) (h : l ∈ db.labels) :
    ∃ group, db.distribution.groupOf? l = some group := by
  obtain ⟨g, hg, hl⟩ := Distribution.mem_labels.mp h
  obtain ⟨i, hi, rfl⟩ := List.getElem_of_mem hg
  exact ⟨i, hapart.groupOf?_eq hi hl⟩

/-- What a node with the label `l` adds for some labels of its group that the leaving variable may
carry: the chance that it carries each of them too, spread over the nodes that do. -/
def pairing (db : Database ℚ) (leaving : LabelShares ℚ) (size : ℚ) (l : LabelId)
    (labels : List LabelId) : ℚ :=
  (labels.map (fun m =>
    if leaving.of m ≤ 0 then 0 else spread (db.nodes m) (conditional db size l m))).sum

theorem pairing_nonneg_and_le (db : Database ℚ) (leaving : LabelShares ℚ) (size : ℚ) (l : LabelId)
    {xs ys : List LabelId} (h : xs.Sublist ys) :
    0 ≤ pairing db leaving size l xs ∧
      pairing db leaving size l xs ≤ pairing db leaving size l ys := by
  have hterm : ∀ labels : List LabelId, ∀ x ∈ labels.map (fun m =>
      if leaving.of m ≤ 0 then 0 else spread (db.nodes m) (conditional db size l m)), 0 ≤ x := by
    intro labels x hx
    obtain ⟨m, -, rfl⟩ := List.mem_map.mp hx
    split
    · exact le_rfl
    · rw [spread]
      split
      · exact le_rfl
      · next hnodes =>
        have hpos : 0 ≤ db.nodes m := (not_le.mp hnodes).le
        exact div_nonneg (conditional_nonneg size l hpos) hpos
  exact ⟨List.sum_nonneg (hterm xs), (h.map _).sum_le_sum (hterm ys)⟩

theorem getD_set {β : Type} {xs : List β} {i : ℕ} (hi : i < xs.length) (x d : β) (j : ℕ) :
    (xs.set i x).getD j d = if j = i then x else xs.getD j d := by
  rw [List.getD_eq_getElem?_getD, List.getD_eq_getElem?_getD, List.getElem?_set]
  by_cases hij : i = j
  · subst hij
    simp [hi]
  · rw [if_neg hij, if_neg (Ne.symm hij)]

theorem sum_addAt {xs : List ℚ} {i : ℕ} (hi : i < xs.length) (x : ℚ) :
    (addAt xs i x).sum = xs.sum + x := by
  rw [addAt, List.sum_set', dif_pos hi, List.getD_eq_getElem _ _ hi]
  ring

theorem addAt_zero (xs : List ℚ) (i : ℕ) : addAt xs i 0 = xs := by
  rw [addAt, add_zero]
  by_cases hi : i < xs.length
  · rw [List.getD_eq_getElem _ _ hi, List.set_getElem_self]
  · exact List.set_eq_of_length_le (not_lt.mp hi)

/-- The labels that are uncovered once `l` is visited. -/
def left (db : Database ℚ) (l : LabelId) (free : OrderedSet LabelId) : OrderedSet LabelId :=
  (free.erase l).filter (fun m => !decide (m ∈ db.distribution.below l))

theorem mem_left {m : LabelId} {free : OrderedSet LabelId} :
    m ∈ left db l free ↔ m ∈ free ∧ m ≠ l ∧ m ∉ db.distribution.below l := by
  rw [left, OrderedSet.mem_filter, OrderedSet.mem_erase, Bool.not_eq_true', decide_eq_false_iff_not,
    and_assoc]

theorem left_sublist {free : OrderedSet LabelId} : (left db l free).toList.Sublist free.toList :=
  List.filter_sublist.trans List.filter_sublist

/-- What was taken of a group. The labels `taken` cover it, each of them once, and those on top that
are still to come are uncovered, unless there is nothing left to cover. -/
structure Taken (db : Database ℚ) (staying : LabelShares ℚ) (rest : List LabelId) (group : ℕ)
    (taken : List LabelId) (coverage : ℚ) (free : OrderedSet LabelId) : Prop where
  covered : 1 - coverage = staying.missing taken
  nodup : taken.Nodup
  sublist : free.toList.Sublist (members db group).toList
  apart : ∀ m ∈ taken, m ∈ members db group ∧ m ∉ free
  tops : ∀ m ∈ db.distribution.tops (members db group),
    (m ∈ rest ∧ m ∈ free) ∨ m ∈ taken ∨ coverage = 1

namespace Taken

variable {rest taken : List LabelId} {coverage : ℚ} {free : OrderedSet LabelId}

theorem coverage_bounds (h : Taken db staying rest group taken coverage free)
    (hshares : staying.AllShares) : 0 ≤ coverage ∧ coverage ≤ 1 := by
  have hcovered := h.covered
  obtain ⟨hnonneg, hle⟩ := hshares.isShare_missing taken
  constructor <;> linarith

/-- A visit of a label outside the group changes nothing. -/
theorem other (h : Taken db staying (l :: rest) group taken coverage free)
    (hl : l ∉ members db group) : Taken db staying rest group taken coverage free := by
  refine { h with tops := fun m hm => (h.tops m hm).imp_left (fun hcome => ⟨?_, hcome.2⟩) }
  have hne : m ≠ l := fun heq => hl (heq ▸ (List.mem_filter.mp hm).1)
  exact List.mem_of_ne_of_mem hne hcome.1

/-- Nothing is taken of a group that is covered. -/
theorem full (h : Taken db staying (l :: rest) group taken coverage free) (hfull : coverage = 1) :
    Taken db staying rest group taken coverage free :=
  { h with tops := fun _ _ => Or.inr (Or.inr hfull) }

variable (hl : l ∈ members db group) (h : Taken db staying (l :: rest) group taken coverage free)

include hl h

/-- Labels on top that are still to come stay uncovered when another label is visited. -/
theorem tops_left {m : LabelId} (hm : m ∈ db.distribution.tops (members db group)) :
    m = l ∧ l ∈ free ∨ (m ∈ rest ∧ m ∈ left db l free) ∨ m ∈ taken ∨ coverage = 1 := by
  rcases h.tops m hm with ⟨hcome, hfree⟩ | hlater
  · by_cases hml : m = l
    · exact Or.inl ⟨hml, hml ▸ hfree⟩
    · have hbelow : db.distribution.isBelow m l = false := by
        simpa using List.all_eq_true.mp (List.mem_filter.mp hm).2 l hl
      rw [Distribution.isBelow, decide_eq_false_iff_not] at hbelow
      exact Or.inr (Or.inl ⟨List.mem_of_ne_of_mem hml hcome, mem_left.mpr ⟨hfree, hml, hbelow⟩⟩)
  · exact Or.inr (Or.inr hlater)

/-- A label that is uncovered is taken. -/
theorem take (hfree : l ∈ free) : Taken db staying rest group (l :: taken)
    (coverage + (1 - coverage) * staying.of l) (left db l free) := by
  refine ⟨?_, ?_, left_sublist.trans h.sublist, fun m hm => ?_, fun m hm => ?_⟩
  · rw [LabelShares.missing_cons, ← h.covered]
    ring
  · exact List.nodup_cons.mpr ⟨fun hmem => (h.apart l hmem).2 hfree, h.nodup⟩
  · rcases List.mem_cons.mp hm with rfl | hm
    · exact ⟨hl, fun hleft => (mem_left.mp hleft).2.1 rfl⟩
    · obtain ⟨hmem, hnot⟩ := h.apart m hm
      exact ⟨hmem, fun hleft => hnot (mem_left.mp hleft).1⟩
  · rcases h.tops_left hl hm with ⟨rfl, -⟩ | hcome | htaken | hone
    · exact Or.inr (Or.inl List.mem_cons_self)
    · exact Or.inl hcome
    · exact Or.inr (Or.inl (List.mem_cons_of_mem _ htaken))
    · rw [hone, sub_self, zero_mul, add_zero]
      exact Or.inr (Or.inr rfl)

/-- A label that is covered covers only labels below it. -/
theorem skip (hfree : l ∉ free) :
    Taken db staying rest group taken coverage (left db l free) := by
  refine ⟨h.covered, h.nodup, left_sublist.trans h.sublist, fun m hm => ?_, fun m hm => ?_⟩
  · obtain ⟨hmem, hnot⟩ := h.apart m hm
    exact ⟨hmem, fun hleft => hnot (mem_left.mp hleft).1⟩
  · rcases h.tops_left hl hm with ⟨-, hmem⟩ | hlater
    · exact absurd hmem hfree
    · exact hlater

end Taken

namespace Progress

theorem paired_eq (share : ℚ) : s.paired db sizes leaving group l share =
    s.factor + (1 - s.coverage group) * share *
      pairing db leaving (sizes.getD group 0) l (s.free group).toList := by
  rw [paired, pairing]
  generalize (s.free group).toList = labels
  generalize s.factor = factor
  induction labels generalizing factor with
  | nil => simp
  | cons m labels ih =>
    rw [List.foldl_cons, ih, List.map_cons, List.sum_cons]
    dsimp only
    by_cases hm : leaving.of m ≤ 0
    · simp [hm]
    · by_cases hnodes : db.nodes m ≤ 0
      · simp [hnodes, spread]
      · simp only [hm, hnodes, decide_false, Bool.or_self, Bool.false_eq_true, if_false, spread]
        ring

/-- A label that is uncovered adds to the factor and to the coverage of its group. -/
theorem cover_of_mem (hl : l ∈ s.free group) (hshare : 0 ≤ staying.of l) :
    s.cover db sizes staying leaving group l =
      ⟨s.factor + (1 - s.coverage group) * staying.of l *
          pairing db leaving (sizes.getD group 0) l (s.free group).toList,
        s.remaining, addAt s.covered group ((1 - s.coverage group) * staying.of l),
        s.uncovered.set group (left db l (s.free group))⟩ := by
  simp only [cover, if_pos hl, paired_eq]
  rcases hshare.eq_or_lt with hzero | hpos
  · rw [← hzero, if_neg (lt_irrefl _), mul_zero, zero_mul, add_zero]
    rfl
  · rw [if_pos hpos]
    rfl

theorem cover_of_not_mem (hl : l ∉ s.free group) :
    s.cover db sizes staying leaving group l =
      { s with uncovered := s.uncovered.set group (left db l (s.free group)) } := by
  simp only [cover, if_neg hl]
  rfl

section Arrays

variable (h : s.Placed db.distribution) (hgroup : group < db.distribution.groups.length)

include h hgroup

theorem free_set (factor remaining : ℚ) (covered : List ℚ) (free : OrderedSet LabelId) (g : ℕ) :
    (⟨factor, remaining, covered, s.uncovered.set group free⟩ : Progress ℚ).free g =
      if g = group then free else s.free g :=
  getD_set (h.uncovered ▸ hgroup) free ∅ g

theorem coverage_addAt (factor remaining gain : ℚ) (uncovered : List (OrderedSet LabelId)) (g : ℕ) :
    (⟨factor, remaining, addAt s.covered group gain, uncovered⟩ : Progress ℚ).coverage g =
      if g = group then s.coverage group + gain else s.coverage g :=
  getD_set (h.covered ▸ hgroup) _ 0 g

end Arrays

/-- Groups are covered by what was taken of them. -/
structure Covering (db : Database ℚ) (staying : LabelShares ℚ) (rest : List LabelId)
    (s : Progress ℚ) : Prop where
  placed : s.Placed db.distribution
  groups : ∀ g, ∃ taken, Taken db staying rest g taken (s.coverage g) (s.free g)

/-- Before any label is visited. -/
def initial (db : Database ℚ) : Progress ℚ :=
  ⟨0, 1, List.replicate db.distribution.groups.length 0, db.distribution.groups⟩

@[simp] theorem coverage_initial (g : ℕ) : (initial db).coverage g = 0 := by
  rw [coverage, initial, List.getD_eq_getElem?_getD, List.getElem?_replicate]
  split <;> rfl

theorem covering_initial {order : List LabelId} (horder : ∀ l ∈ db.labels, l ∈ order) :
    Covering db staying order (initial db) := by
  refine ⟨⟨List.length_replicate, rfl⟩, fun g => ⟨[], ?_, .nil, .refl _,
    fun _ hm => absurd hm List.not_mem_nil, fun m hm => Or.inl ?_⟩⟩
  · rw [coverage_initial, sub_zero]
    rfl
  · have hmem := (List.mem_filter.mp hm).1
    exact ⟨horder m (mem_labels_of_members hmem), hmem⟩

namespace Covering

variable {rest : List LabelId}

section Visit

variable (hapart : db.distribution.Apart) (hgroup : db.distribution.groupOf? l = some group)
  (h : Covering db staying (l :: rest) s)

include hapart hgroup h

/-- A visit of a label concerns the group that holds it. -/
theorem update {s' : Progress ℚ} (hplaced : s'.Placed db.distribution)
    (hcoverage : ∀ g, g ≠ group → s'.coverage g = s.coverage g)
    (hfree : ∀ g, g ≠ group → s'.free g = s.free g)
    (hvisit : ∀ taken, Taken db staying (l :: rest) group taken (s.coverage group) (s.free group) →
      ∃ taken', Taken db staying rest group taken' (s'.coverage group) (s'.free group)) :
    Covering db staying rest s' := by
  refine ⟨hplaced, fun g => ?_⟩
  obtain ⟨taken, htaken⟩ := h.groups g
  by_cases hg : g = group
  · subst hg
    exact hvisit taken htaken
  · have hother : l ∉ members db g := by
      intro hl
      exact hg (Option.some_inj.mp ((groupOf?_of_members hapart hl).symm.trans hgroup))
    rw [hcoverage g hg, hfree g hg]
    exact ⟨taken, htaken.other hother⟩

theorem take (hl : l ∈ s.free group) (factor remaining : ℚ) :
    Covering db staying rest
      ⟨factor, remaining, addAt s.covered group ((1 - s.coverage group) * staying.of l),
        s.uncovered.set group (left db l (s.free group))⟩ := by
  have hlt := groupOf?_lt hgroup
  refine h.update hapart hgroup
    ⟨(length_addAt ..).trans h.placed.covered, List.length_set.trans h.placed.uncovered⟩
    (fun g hg => ?_) (fun g hg => ?_) (fun taken htaken => ⟨l :: taken, ?_⟩)
  · rw [coverage_addAt h.placed hlt, if_neg hg]
  · rw [free_set h.placed hlt, if_neg hg]
  · rw [coverage_addAt h.placed hlt, if_pos rfl, free_set h.placed hlt, if_pos rfl]
    exact htaken.take (mem_members hgroup) hl

theorem skip (hl : l ∉ s.free group) (factor remaining : ℚ) :
    Covering db staying rest ⟨factor, remaining, s.covered,
      s.uncovered.set group (left db l (s.free group))⟩ := by
  have hlt := groupOf?_lt hgroup
  refine h.update hapart hgroup ⟨h.placed.covered, List.length_set.trans h.placed.uncovered⟩
    (fun _ _ => rfl) (fun g hg => ?_) (fun taken htaken => ⟨taken, ?_⟩)
  · rw [free_set h.placed hlt, if_neg hg]
  · rw [free_set h.placed hlt, if_pos rfl]
    exact htaken.skip (mem_members hgroup) hl

theorem full (hfull : s.coverage group = 1) (remaining : ℚ) :
    Covering db staying rest { s with remaining } :=
  h.update hapart hgroup ⟨h.placed.covered, h.placed.uncovered⟩ (fun _ _ => rfl) (fun _ _ => rfl)
    (fun taken htaken => ⟨taken, htaken.full hfull⟩)

end Visit

end Covering

/-- What the coverage of all groups costs. As long as mass remains, the groups have not covered more
than is missing of it; and coverage adds to the factor at a rate of at most `rate`. -/
structure Spending (rate : ℚ) (s : Progress ℚ) : Prop where
  remaining : 0 ≤ s.remaining
  le_two : s.covered.sum ≤ 2
  spent : 0 < s.remaining → s.covered.sum + s.remaining ≤ 1
  nonneg : 0 ≤ s.factor
  le_rate : s.factor ≤ rate * s.covered.sum

/-- Some coverage is added to that of a group, and is taken from what remains. -/
theorem Spending.add {rate gain factor : ℚ} {covered : List ℚ} (h : Spending rate s)
    (hpos : 0 < s.remaining) (hcovered : covered.sum = s.covered.sum + gain)
    {coverage : ℚ} (hle : gain ≤ coverage) (hone : coverage ≤ 1)
    (hfactor : s.factor ≤ factor) (hrate : factor ≤ s.factor + rate * gain)
    (uncovered : List (OrderedSet LabelId)) :
    Spending rate
      ⟨factor, s.remaining - Scalar.least s.remaining coverage, covered, uncovered⟩ := by
  have hspent := h.spent hpos
  rw [Scalar.least_rat]
  refine ⟨sub_nonneg.mpr (min_le_left _ _), ?_, fun hleft => ?_, h.nonneg.trans hfactor, ?_⟩
  · dsimp only
    linarith
  · dsimp only at hleft ⊢
    rcases min_choice s.remaining coverage with heq | heq
    · rw [heq] at hleft
      linarith
    · rw [heq]
      linarith
  · dsimp only
    have hle := h.le_rate
    rw [hcovered, mul_add]
    linarith

/-- Visits a label of a group. -/
def visit (db : Database ℚ) (sizes : List ℚ) (staying leaving : LabelShares ℚ) (group : ℕ)
    (l : LabelId) (s : Progress ℚ) : Progress ℚ :=
  let s := if s.coverage group < 1 then s.cover db sizes staying leaving group l else s
  { s with remaining := s.remaining - Scalar.least s.remaining (s.coverage group) }

section Run

variable {rate : ℚ} {rest : List LabelId} (hapart : db.distribution.Apart)
  (hshares : staying.AllShares)

include hapart hshares

theorem visit_invariant (hgroup : db.distribution.groupOf? l = some group)
    (hrate : 0 < staying.of l →
      pairing db leaving (sizes.getD group 0) l (members db group).toList ≤ rate)
    (h : Covering db staying (l :: rest) s) (hspending : Spending rate s)
    (hpos : 0 < s.remaining) :
    Covering db staying rest (s.visit db sizes staying leaving group l) ∧
      Spending rate (s.visit db sizes staying leaving group l) := by
  have hlt := groupOf?_lt hgroup
  obtain ⟨taken, htaken⟩ := h.groups group
  obtain ⟨hnonneg, hone⟩ := htaken.coverage_bounds hshares
  have hshare := hshares.of l
  rw [visit]
  by_cases hopen : s.coverage group < 1
  · by_cases hl : l ∈ s.free group
    · simp only [if_pos hopen, cover_of_mem hl hshare.1, coverage_addAt h.placed hlt]
      refine ⟨h.take hapart hgroup hl _ _, ?_⟩
      have hgain : 0 ≤ (1 - s.coverage group) * staying.of l :=
        mul_nonneg (sub_nonneg.mpr hone) hshare.1
      have hleft : 0 ≤ (1 - s.coverage group) * (1 - staying.of l) :=
        mul_nonneg (sub_nonneg.mpr hone) (sub_nonneg.mpr hshare.2)
      obtain ⟨hpairing, hle⟩ := pairing_nonneg_and_le db leaving (sizes.getD group 0) l
        htaken.sublist
      refine hspending.add hpos (sum_addAt (h.placed.covered ▸ hlt) _)
        (le_add_of_nonneg_left hnonneg) (by linarith)
        (le_add_of_nonneg_right (mul_nonneg hgain hpairing)) (add_le_add_right ?_ _) _
      rcases hshare.1.eq_or_lt with hzero | hcarried
      · rw [← hzero, mul_zero, zero_mul, mul_zero]
      · rw [mul_comm rate]
        exact mul_le_mul_of_nonneg_left (hle.trans (hrate hcarried)) hgain
    · simp only [if_pos hopen, cover_of_not_mem hl]
      exact ⟨h.skip hapart hgroup hl _ _, hspending.add hpos (add_zero _).symm hnonneg hone
        le_rfl (by rw [mul_zero, add_zero]) _⟩
  · simp only [if_neg hopen]
    have hfull : s.coverage group = 1 := le_antisymm hone (not_lt.mp hopen)
    exact ⟨h.full hapart hgroup hfull _, hspending.add hpos (add_zero _).symm hnonneg hone
      le_rfl (by rw [mul_zero, add_zero]) _⟩

/-- However far the labels are visited, the groups are covered by what was taken of them; and they
are all visited unless no mass remains. -/
theorem through_invariant
    (hrate : ∀ l group, db.distribution.groupOf? l = some group → 0 < staying.of l →
      pairing db leaving (sizes.getD group 0) l (members db group).toList ≤ rate)
    {order : List LabelId} (horder : ∀ l ∈ order, l ∈ db.labels)
    (h : Covering db staying order s) (hspending : Spending rate s) :
    ∃ rest, Covering db staying rest (through db sizes staying leaving order s) ∧
      Spending rate (through db sizes staying leaving order s) ∧
      ((through db sizes staying leaving order s).remaining ≤ 0 ∨ rest = []) := by
  induction order generalizing s with
  | nil => exact ⟨[], h, hspending, Or.inr rfl⟩
  | cons l order ih =>
    obtain ⟨hl, horder⟩ := List.forall_mem_cons.mp horder
    rw [through]
    split
    · next hnone => exact ⟨l :: order, h, hspending, Or.inl hnone⟩
    · next hsome =>
      obtain ⟨group, hgroup⟩ := exists_groupOf? hapart hl
      obtain ⟨hnext, hspent⟩ := visit_invariant hapart hshares hgroup (hrate l group hgroup) h
        hspending (not_le.mp hsome)
      rw [hgroup]
      exact ih horder hnext hspent

end Run

end Progress

section Sums

variable {rest : List LabelId}

/-- The share of the matches with a label at a variable, if labels of one group are independent. -/
def reach (db : Database ℚ) (shares : LabelShares ℚ) : ℚ :=
  (db.distribution.groups.map (fun g => 1 - shares.missing g.toList)).sum

/-- The share of the matches with a label on top of its group at a variable, if these are
independent. -/
def topReach (db : Database ℚ) (shares : LabelShares ℚ) : ℚ :=
  (db.distribution.groups.map (fun g => 1 - shares.missing (db.distribution.tops g))).sum

theorem sum_le_sum_of_getD {xs ys : List ℚ} (hlength : xs.length = ys.length)
    (h : ∀ i < xs.length, xs.getD i 0 ≤ ys.getD i 0) : xs.sum ≤ ys.sum := by
  refine (List.forall₂_iff_get.mpr ⟨hlength, fun i hi hi' => ?_⟩).sum_le_sum
  have hi := h i hi
  rwa [List.getD_eq_getElem _ _ ‹_›, List.getD_eq_getElem _ _ hi'] at hi

theorem getD_map_groups (f : OrderedSet LabelId → ℚ) {i : ℕ}
    (hi : i < db.distribution.groups.length) :
    (db.distribution.groups.map f).getD i 0 = f (members db i) := by
  rw [members, List.getD_eq_getElem _ _ hi, List.getD_eq_getElem _ _ (by rwa [List.length_map]),
    List.getElem_map]

namespace Progress.Covering

variable (hshares : staying.AllShares)

include hshares

/-- The labels of a group cover no more than they reach. -/
theorem sum_le_reach (h : Covering db staying rest s) : s.covered.sum ≤ reach db staying := by
  refine sum_le_sum_of_getD (by rw [List.length_map, h.placed.covered]) (fun g hg => ?_)
  rw [getD_map_groups _ (h.placed.covered ▸ hg)]
  obtain ⟨taken, htaken⟩ := h.groups g
  have hle := hshares.missing_le
    (List.subperm_of_subset htaken.nodup (fun m hm => (htaken.apart m hm).1))
  have hcovered := htaken.covered
  rw [coverage] at hcovered
  linarith

/-- Once all labels are visited, those on top of each group have covered what they reach. -/
theorem topReach_le_sum (h : Covering db staying [] s) : topReach db staying ≤ s.covered.sum := by
  refine sum_le_sum_of_getD (by rw [List.length_map, h.placed.covered]) (fun g hg => ?_)
  rw [List.length_map] at hg
  rw [getD_map_groups _ hg]
  obtain ⟨taken, htaken⟩ := h.groups g
  have hnonneg := (hshares.isShare_missing (db.distribution.tops (members db g))).1
  by_cases hfull : s.coverage g = 1
  · rw [coverage] at hfull
    linarith
  · have hsub : (db.distribution.tops (members db g)).Subperm taken := by
      refine List.subperm_of_subset ((OrderedSet.nodup_toList _).filter _) (fun m hm => ?_)
      rcases htaken.tops m hm with hcome | hm | hone
      · exact absurd hcome.1 List.not_mem_nil
      · exact hm
      · exact absurd hone hfull
    have hle := hshares.missing_le hsub
    have hcovered := htaken.covered
    rw [coverage] at hcovered
    linarith

end Progress.Covering

end Sums

end Estimate.Partition

end PatternCardinality
