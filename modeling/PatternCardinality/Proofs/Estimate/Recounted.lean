import PatternCardinality.Proofs.Estimate.Identified
import PatternCardinality.Proofs.Estimate.Rejoined

/-!
# A label joined with itself by groups

Select a label at two variables, join the two and identify the variables by groups. The label pairs
with every label of its group that the other variable may carry, above it and below it as well, so a
node counts again for each of them: once for a label below, and for a label above as often as one of
its nodes has the label. The nodes are counted once if and only if no other label of the group has
any.
-/

namespace PatternCardinality.Estimate

open Labels

namespace Partition

variable {db : Database ℚ} {staying leaving : LabelShares ℚ} {sizes : List ℚ} {group : ℕ}
  {l m : LabelId} {s : Progress ℚ}

namespace Progress

theorem through_of_spent (hspent : s.remaining ≤ 0) (order : List LabelId) :
    through db sizes staying leaving order s = s := by
  cases order with
  | nil => rfl
  | cons l order => rw [through, if_pos hspent]

theorem through_cons (hsome : 0 < s.remaining) (hgroup : db.distribution.groupOf? l = some group)
    (order : List LabelId) : through db sizes staying leaving (l :: order) s =
      through db sizes staying leaving order (s.visit db sizes staying leaving group l) := by
  rw [through, if_neg (not_le.mpr hsome), hgroup]
  rfl

theorem placed_initial (db : Database ℚ) : (initial db).Placed db.distribution :=
  ⟨List.length_replicate, rfl⟩

/-- A certain label covers its group when it comes first, and no mass remains. -/
theorem visit_of_certain (sizes : List ℚ) (leaving : LabelShares ℚ)
    (hgroup : db.distribution.groupOf? l = some group) (hcertain : staying.of l = 1) :
    ((initial db).visit db sizes staying leaving group l).remaining = 0 ∧
      ((initial db).visit db sizes staying leaving group l).factor =
        pairing db leaving (sizes.getD group 0) l (members db group).toList := by
  have hfree : l ∈ (initial db).free group := mem_members hgroup
  have hopen : (initial db).coverage group < 1 := by
    rw [coverage_initial]
    exact zero_lt_one
  rw [visit, if_pos hopen, cover_of_mem hfree (hcertain ▸ zero_le_one), hcertain]
  simp only [coverage_addAt (placed_initial db) (groupOf?_lt hgroup), if_pos, coverage_initial,
    sub_zero, mul_one, zero_add, one_mul]
  exact ⟨sub_self _, zero_add _⟩

end Progress

/-- Only the label that comes first is paired, if it is certain. -/
theorem factor_of_certain (hgroup : db.distribution.groupOf? l = some group)
    (hcertain : staying.of l = 1)
    (hfirst : ∃ more, sortByEvidence db (fun m => Scalar.greatest (staying.of m) (leaving.of m))
      db.labels.toList = l :: more) :
    factor db staying leaving =
      pairing db leaving ((Partition.sizes db).getD group 0) l (members db group).toList := by
  obtain ⟨more, horder⟩ := hfirst
  obtain ⟨hnone, hfactor⟩ :=
    Progress.visit_of_certain (Partition.sizes db) leaving hgroup hcertain
  rw [factor_eq, Progress.finished, horder, Progress.through_cons zero_lt_one hgroup,
    Progress.through_of_spent hnone.le, hnone, hfactor, zero_mul, add_zero]

end Partition

variable {db : Database ℚ} {l m : LabelId} {a b : String}

/-- The other labels of the group of a label. -/
def companions (db : Database ℚ) (l : LabelId) : List LabelId :=
  db.labels.toList.filter
    (fun m => decide (m ≠ l ∧ db.distribution.groupOf? m = db.distribution.groupOf? l))

theorem mem_companions : m ∈ companions db l ↔
    m ∈ db.labels ∧ m ≠ l ∧ db.distribution.groupOf? m = db.distribution.groupOf? l := by
  rw [companions, List.mem_filter, decide_eq_true_iff]
  rfl

/-- The share of a label in its group. It is that of all nodes if its group has no size. -/
def groupShare (db : Database ℚ) (m : LabelId) : ℚ :=
  let size := ((db.distribution.groupOf? m).map (fun g => (Partition.sizes db).getD g 0)).getD 0
  if size ≤ 0 then db.nodes m / db.total else min (db.nodes m / db.total / size) 1

/-- How often a node with the label `l` counts again at another label of its group. -/
def recount (db : Database ℚ) (l m : LabelId) : ℚ :=
  if db.nodes m ≤ 0 then 0
  else if db.distribution.isBelow m l then 1
  else if db.distribution.isBelow l m then db.nodes l / db.nodes m
  else db.nodes l * groupShare db m / db.nodes m

theorem recount_of_none (h : db.nodes m ≤ 0) : recount db l m = 0 := if_pos h

theorem groupShare_pos (htotal : 0 < db.total) (hm : 0 < db.nodes m) : 0 < groupShare db m := by
  have hshare : 0 < db.nodes m / db.total := div_pos hm htotal
  simp only [groupShare]
  split
  · exact hshare
  · next hsize => exact lt_min (div_pos hshare (not_le.mp hsize)) zero_lt_one

/-- Every other label that has nodes counts again. -/
theorem recount_pos (htotal : 0 < db.total) (hl : 0 < db.nodes l) (hm : 0 < db.nodes m) :
    0 < recount db l m := by
  rw [recount, if_neg (not_le.mpr hm)]
  split
  · exact zero_lt_one
  · split
    · exact div_pos hl hm
    · exact div_pos (mul_pos hl (groupShare_pos htotal hm)) hm

theorem recount_nonneg (htotal : 0 < db.total) (hl : 0 < db.nodes l) (m : LabelId) :
    0 ≤ recount db l m := by
  by_cases hm : db.nodes m ≤ 0
  · exact (recount_of_none hm).ge
  · exact (recount_pos htotal hl (not_le.mp hm)).le

theorem members_perm (hapart : db.distribution.Apart) {group : ℕ}
    (hgroup : db.distribution.groupOf? l = some group) :
    (Partition.members db group).toList.Perm (l :: companions db l) := by
  have hmem : l ∉ companions db l := fun hl => (mem_companions.mp hl).2.1 rfl
  have hnodup : (companions db l).Nodup := (OrderedSet.nodup_toList _).filter _
  refine (List.perm_ext_iff_of_nodup (OrderedSet.nodup_toList _)
    (List.nodup_cons.mpr ⟨hmem, hnodup⟩)).mpr (fun m => ?_)
  rw [List.mem_cons, mem_companions, hgroup]
  constructor
  · intro hm
    by_cases hml : m = l
    · exact Or.inl hml
    · exact Or.inr ⟨Partition.mem_labels_of_members hm, hml,
        Partition.groupOf?_of_members hapart hm⟩
  · rintro (rfl | ⟨-, -, hm⟩)
    · exact Partition.mem_members hgroup
    · exact Partition.mem_members hm

theorem conditional_self (hl : 0 < db.nodes l) (size : ℚ) :
    Partition.conditional db size l l = 1 := by
  simp [Partition.conditional, not_le.mpr hl, div_self hl.ne', Scalar.least_rat]

theorem LabelShares.greatest_self (shares : LabelShares ℚ) :
    (fun m => Scalar.greatest (shares.of m) (shares.of m)) = shares.of := by
  funext m
  rw [Scalar.greatest_rat, max_self]

section Plausible

variable (h : db.Plausible) (hl : db.Distinct l)

include h hl

/-- Nothing comes before the selected label. -/
theorem sortByEvidence_narrowed : ∃ more, sortByEvidence db
    (LabelShares.of (narrowed db (scanned db) l)) db.labels.toList = l :: more := by
  refine sortByEvidence_eq_cons hl.known (fun m hm hne => ?_)
  rw [narrowed_self hl]
  by_cases hgroup : db.distribution.groupOf? m = db.distribution.groupOf? l
  · exact narrowed_density_lt h.bounded h.nested hl hm hne hgroup
  · have hnone : ∀ x : LabelId, db.density 0 x = 0 := fun x => by simp [Database.density]
    have hcertain : db.density 1 l = 1 / db.nodes l := if_pos hl.positive
    rw [narrowed_of_ne_group h.nested hl hm hgroup, hnone, hcertain]
    exact Or.inl (one_div_pos.mpr hl.positive)

/-- Labels of the group that have nodes may be carried by a node with the label. -/
theorem narrowed_pos (hm : m ∈ companions db l) (hnodes : 0 < db.nodes m) :
    0 < LabelShares.of (narrowed db (scanned db) l) m := by
  obtain ⟨hknown, -, hgroup⟩ := mem_companions.mp hm
  have htotal := total_pos h.bounded hl
  have hshare : ∀ x, x ∈ db.labels → 0 < db.nodes x → 0 < LabelShares.of (scanned db) x := by
    intro x hx hpos
    rw [scanned_of h.bounded hl hx]
    exact div_pos hpos htotal
  rw [narrowed, LabelShares.of_tabulate hknown, narrowedShare]
  split
  · exact zero_lt_one
  · split
    · rw [Scalar.least_rat]
      exact lt_min (div_pos (hshare m hknown hnodes) (hshare l hl.known hl.positive)) zero_lt_one
    · exact hshare m hknown hnodes

/-- What pairing a node with another label of the group adds, for all nodes. -/
theorem spread_conditional (hm : m ∈ companions db l) {group : ℕ}
    (hgroup : db.distribution.groupOf? l = some group) :
    db.nodes l * (if LabelShares.of (narrowed db (scanned db) l) m ≤ 0 then 0 else
      spread (db.nodes m)
        (Partition.conditional db ((Partition.sizes db).getD group 0) l m)) = recount db l m := by
  by_cases hnodes : db.nodes m ≤ 0
  · rw [recount_of_none hnodes, spread, if_pos hnodes, ite_self, mul_zero]
  · have hpos : 0 < db.nodes m := not_le.mp hnodes
    obtain ⟨-, hne, hsame⟩ := mem_companions.mp hm
    rw [if_neg (not_le.mpr (narrowed_pos h hl hm hpos)), spread, if_neg hnodes, recount,
      if_neg hnodes, ← mul_div_assoc]
    by_cases hbelow : db.distribution.isBelow m l = true
    · have hle : db.nodes m / db.nodes l ≤ 1 :=
        (div_le_one hl.positive).mpr (h.le_super m l hbelow)
      rw [Partition.conditional, if_pos hbelow, if_neg (not_le.mpr hl.positive), Scalar.least_rat,
        min_eq_left hle, if_pos hbelow, mul_div_cancel₀ _ hl.positive.ne', div_self hpos.ne']
    · by_cases habove : db.distribution.isBelow l m = true
      · simp [Partition.conditional, hbelow, habove]
      · have htotal := total_pos h.bounded hl
        simp only [Partition.conditional, hbelow, habove, hne, not_le.mpr htotal, groupShare,
          hsame, hgroup, Scalar.least_rat, Option.map_some, Option.getD_some, decide_false,
          Bool.or_self, Bool.false_eq_true, if_false]

/-- A node counts once at the label, and again at the others of its group. -/
theorem factor_narrowed : db.nodes l *
    Partition.factor db (narrowed db (scanned db) l) (narrowed db (scanned db) l) =
      1 + ((companions db l).map (recount db l)).sum := by
  obtain ⟨group, hgroup⟩ := Partition.exists_groupOf? h.nested.apart hl.known
  have hself : (if LabelShares.of (narrowed db (scanned db) l) l ≤ 0 then 0 else
      spread (db.nodes l) (Partition.conditional db ((Partition.sizes db).getD group 0) l l)) =
        1 / db.nodes l := by
    rw [narrowed_self hl, if_neg (not_le.mpr zero_lt_one), conditional_self hl.positive, spread,
      if_neg (not_le.mpr hl.positive)]
  have hfirst := sortByEvidence_narrowed h hl
  rw [← LabelShares.greatest_self] at hfirst
  rw [Partition.factor_of_certain hgroup (narrowed_self hl) hfirst, Partition.pairing,
    ((members_perm h.nested.apart hgroup).map _).sum_eq, List.map_cons, List.sum_cons, mul_add,
    hself, mul_one_div_cancel hl.positive.ne', ← List.sum_map_mul_left]
  exact congrArg (1 + List.sum ·)
    (List.map_congr_left (fun m hm => spread_conditional h hl hm hgroup))

end Plausible

/-- Two selections of one label, joined and identified by groups, have the matches of one selection
as often as a node counts at the labels of its group. They are as many as in one selection if and
only if no other label of the group has nodes. -/
theorem selfJoin_selectedPair (h : db.Plausible) (hl : db.Distinct l) (hab : a ≠ b) :
    ∃ both p, selectedPair db a b l = .ok both ∧ selfJoin db a b both = .ok p ∧
      p.size = db.nodes l * (1 + ((companions db l).map (recount db l)).sum) ∧
      db.nodes l ≤ p.size ∧
      (p.size = db.nodes l ↔ ∀ m ∈ companions db l, db.nodes m = 0) := by
  obtain ⟨both, hboth, hsize, ha, hb, hapart⟩ := exists_selectedPair h.bounded hl hab
  have htotal := total_pos h.bounded hl
  have hnonneg : ∀ x ∈ (companions db l).map (recount db l), 0 ≤ x :=
    List.forall_mem_map.mpr (fun m _ => recount_nonneg htotal hl.positive m)
  have hmany := List.sum_nonneg hnonneg
  have hresult : db.nodes l * db.nodes l * Partition.factor db (narrowed db (scanned db) l)
      (narrowed db (scanned db) l) =
        db.nodes l * (1 + ((companions db l).map (recount db l)).sum) := by
    rw [mul_assoc, factor_narrowed h hl]
  refine ⟨both, _, hboth, selfJoin_eq hab hapart ha hb, ?_, ?_, ?_⟩ <;> rw [hsize, hresult]
  · exact le_mul_of_one_le_right hl.positive.le (le_add_of_nonneg_right hmany)
  · rw [mul_eq_left₀ hl.positive.ne', add_eq_left]
    constructor
    · intro hnone m hm
      have hzero := List.all_zero_of_le_zero_le_of_sum_eq_zero hnonneg hnone
        (List.mem_map_of_mem hm)
      have hnodes := h.nonneg m (mem_companions.mp hm).1
      by_contra hne
      exact (recount_pos htotal hl.positive (lt_of_le_of_ne hnodes (Ne.symm hne))).ne' hzero
    · intro hnone
      exact List.sum_eq_zero
        (List.forall_mem_map.mpr (fun m hm => recount_of_none (hnone m hm).le))

/-- A label between two others: each of the three is on half of the nodes of the next one. -/
def ladder : Database ℚ :=
  counted ⟨[OrderedSet.ofList [0, 1, 2]],
    (OrderedMap.singleton 0 (OrderedSet.ofList [1, 2])).insert 1 (OrderedSet.singleton 2)⟩ 8
    (fun l => if l = 0 then 4 else if l = 1 then 2 else 1)

theorem ladder_made : (Distribution.ofGroups [OrderedSet.ofList [0, 1, 2]]
    ((OrderedMap.singleton 0 (OrderedSet.singleton 1)).insert 1 (OrderedSet.singleton 2)) :
      Except (Failure ℚ) _) = .ok ladder.distribution :=
  Outcome.toOption_eq_some.mp (by decide +kernel)

theorem plausible_ladder : ladder.Plausible := by
  have hnodes : ∀ l ∈ ladder.labels.toList, 0 ≤ ladder.nodes l ∧ ladder.nodes l ≤ ladder.total :=
    List.all_iff_forall_prop.mp (by decide +kernel)
  have hbelow : ∀ sub l, ladder.distribution.isBelow sub l = true →
      sub ∈ ladder.labels ∧ l ∈ ladder.labels ∧ ladder.nodes sub ≤ ladder.nodes l :=
    fun sub l h => of_decide_eq_true (Distribution.forall_isBelow (P := fun sub l => decide
      (sub ∈ ladder.labels ∧ l ∈ ladder.labels ∧ ladder.nodes sub ≤ ladder.nodes l))
        (by decide +kernel) h)
  refine ⟨⟨_, _, ladder_made⟩, fun sub l h => ?_, fun l hl => (hnodes l hl).1,
    fun l hl => (hnodes l hl).2, fun sub l h => (hbelow sub l h).2.2⟩
  obtain ⟨hsub, hl, -⟩ := hbelow sub l h
  exact ⟨_, List.mem_cons_self, hsub, hl⟩

theorem distinct_ladder : ladder.Distinct 1 := by
  have hunlike : ∀ m ∈ ladder.labels.toList, ladder.nodes m = ladder.nodes 1 → m = 1 :=
    List.all_iff_forall_prop.mp (by decide +kernel)
  exact ⟨by decide +kernel, by decide +kernel, fun m hm _ => hunlike m hm⟩

/-- A node counts again at the label below, and half at the label above. -/
theorem selfJoin_selectedPair_ladder : ∃ both p, selectedPair ladder "a" "b" 1 = .ok both ∧
    selfJoin ladder "a" "b" both = .ok p ∧ p.size = 5 := by
  obtain ⟨both, p, hboth, hp, hsize, -⟩ :=
    selfJoin_selectedPair plausible_ladder distinct_ladder (by decide : "a" ≠ "b")
  exact ⟨both, p, hboth, hp, hsize.trans (by decide +kernel)⟩

/-- Two nodes with a label between others become five. -/
theorem selfJoin_recounts : ladder.Plausible ∧ ladder.Distinct 1 ∧ ladder.nodes 1 = 2 ∧
    (selectedPair ladder "a" "b" 1 >>= selfJoin ladder "a" "b").toOption.map Profile.size =
      some 5 :=
  ⟨plausible_ladder, distinct_ladder, by decide +kernel, by decide +kernel⟩

end PatternCardinality.Estimate
