import PatternCardinality.Proofs.Estimate.Covering

/-!
# Identifying variables by groups

The factor of a join of a result with itself adds, over what labels cover, how densely each of them
meets the labels of the other variable, and counts every node for what no label covers. So the join
adds matches only where labels have few nodes or where matches have no label, and without any label
it multiplies them by all nodes.
-/

namespace PatternCardinality

open Estimate Labels

namespace Estimate

/-- Counts that a graph can have: of each label no nodes or at least one, and no more than there
are. Groups are apart. -/
structure Database.Countable (db : Database ℚ) : Prop extends db.Counted where
  le_total : ∀ l ∈ db.labels, db.nodes l ≤ db.total
  apart : db.distribution.Apart

theorem countable_marked : marked.Countable := by
  have hnodes : ∀ l ∈ marked.labels.toList, marked.nodes l ≤ marked.total :=
    List.all_iff_forall_prop.mp (by decide +kernel)
  exact ⟨counted_marked, hnodes, Distribution.apart_single _⟩

namespace Partition

variable {db : Database ℚ} {sizes : List ℚ} {staying leaving : LabelShares ℚ} {group : ℕ}
  {l : LabelId} {s : Progress ℚ}

/-- What a node with a label adds if all labels of its group are uncovered. -/
def meeting (db : Database ℚ) (leaving : LabelShares ℚ) (l : LabelId) : ℚ :=
  match db.distribution.groupOf? l with
  | none => 0
  | some group =>
    pairing db leaving ((Partition.sizes db).getD group 0) l (members db group).toList

/-- The most that a node adds, over the labels that the staying variable may carry. -/
def densest (db : Database ℚ) (staying leaving : LabelShares ℚ) : ℚ :=
  ((db.labels.toList.filter (fun l => decide (0 < staying.of l))).map (meeting db leaving)).foldr
    max 0

/-- How much groups can cover together. More than two is never covered, since no mass remains once
they have covered everything. -/
def overlap (db : Database ℚ) (staying : LabelShares ℚ) : ℚ := max 1 (min 2 (reach db staying))

/-- The share of the matches that may have no label at a variable. -/
def unlabelled (db : Database ℚ) (staying : LabelShares ℚ) : ℚ := max 0 (1 - topReach db staying)

theorem densest_nonneg : 0 ≤ densest db staying leaving := by
  rw [densest]
  generalize List.map (meeting db leaving) _ = xs
  induction xs with
  | nil => exact le_rfl
  | cons x xs ih => exact le_max_of_le_right ih

theorem isShare_unlabelled (db : Database ℚ) (hstaying : staying.AllShares) :
    IsShare (unlabelled db staying) := by
  have htop : 0 ≤ topReach db staying := by
    refine List.sum_nonneg (fun x hx => ?_)
    obtain ⟨g, -, rfl⟩ := List.mem_map.mp hx
    exact sub_nonneg.mpr (hstaying.isShare_missing _).2
  exact ⟨le_max_left _ _, max_le zero_le_one (by linarith)⟩

theorem pairing_le_densest (hl : db.distribution.groupOf? l = some group)
    (hcarried : 0 < staying.of l) :
    pairing db leaving ((Partition.sizes db).getD group 0) l (members db group).toList ≤
      densest db staying leaving := by
  have hmeeting : meeting db leaving l =
      pairing db leaving ((Partition.sizes db).getD group 0) l (members db group).toList := by
    rw [meeting, hl]
  refine List.le_max_of_le' 0 (List.mem_map.mpr ⟨l, List.mem_filter.mpr ⟨?_, ?_⟩, hmeeting⟩) le_rfl
  · exact mem_labels_of_members (mem_members hl)
  · exact decide_eq_true hcarried

namespace Progress

/-- All labels are visited, those with the most evidence first. -/
def finished (db : Database ℚ) (staying leaving : LabelShares ℚ) : Progress ℚ :=
  through db (Partition.sizes db) staying leaving
    (sortByEvidence db (fun l => Scalar.greatest (staying.of l) (leaving.of l)) db.labels.toList)
    (initial db)

theorem spending_initial (rate : ℚ) : Spending rate (initial db) := by
  have hsum : (initial db).covered.sum = 0 := by simp [initial]
  refine ⟨zero_le_one, ?_, fun _ => ?_, le_rfl, ?_⟩
  · rw [hsum]
    exact zero_le_two
  · rw [hsum, zero_add]
    exact le_rfl
  · rw [hsum, mul_zero]
    exact le_rfl

/-- Groups are covered at the rate of the densest label, as far as they can be, and what remains if
they do not cover everything has no label on top of its group. -/
theorem finished_bounds (hapart : db.distribution.Apart) (hstaying : staying.AllShares)
    (leaving : LabelShares ℚ) :
    Spending (densest db staying leaving) (finished db staying leaving) ∧
      (finished db staying leaving).covered.sum ≤ overlap db staying ∧
      (0 < (finished db staying leaving).remaining →
        (finished db staying leaving).remaining ≤ unlabelled db staying) := by
  obtain ⟨rest, hcovering, hspending, hend⟩ := through_invariant (s := initial db) hapart
    hstaying (fun l group hl hcarried => pairing_le_densest hl hcarried)
    (fun l hl => mem_sortByEvidence.mp hl)
    (covering_initial (fun l hl => mem_sortByEvidence.mpr hl))
    (spending_initial (densest db staying leaving))
  rw [← finished] at hcovering hspending hend
  refine ⟨hspending, ?_, fun hleft => ?_⟩
  · exact le_max_of_le_right (le_min hspending.le_two (hcovering.sum_le_reach hstaying))
  · rcases hend with hnone | rfl
    · exact absurd hleft (not_lt.mpr hnone)
    · have htop := hcovering.topReach_le_sum hstaying
      have hspent := hspending.spent hleft
      exact le_max_of_le_right (by linarith)

end Progress

theorem factor_eq (db : Database ℚ) (staying leaving : LabelShares ℚ) :
    factor db staying leaving = (Progress.finished db staying leaving).factor +
      (Progress.finished db staying leaving).remaining * db.total := rfl

/-- What a node adds counts for what is covered, and the nodes for what is not. -/
theorem factor_bounds (hapart : db.distribution.Apart) (htotal : 0 ≤ db.total)
    (hstaying : staying.AllShares) (leaving : LabelShares ℚ) :
    0 ≤ factor db staying leaving ∧
      factor db staying leaving ≤ max (densest db staying leaving * overlap db staying)
        (densest db staying leaving * (1 - unlabelled db staying) +
          unlabelled db staying * db.total) := by
  obtain ⟨hspending, hcovered, hleft⟩ := Progress.finished_bounds hapart hstaying leaving
  rw [factor_eq]
  generalize Progress.finished db staying leaving = s at *
  set rate := densest db staying leaving
  have hrate : 0 ≤ rate := densest_nonneg
  have hfactor := hspending.le_rate
  refine ⟨add_nonneg hspending.nonneg (mul_nonneg hspending.remaining htotal), ?_⟩
  rcases hspending.remaining.eq_or_lt with hnone | hsome
  · rw [← hnone, zero_mul, add_zero]
    exact le_max_of_le_left (hfactor.trans (mul_le_mul_of_nonneg_left hcovered hrate))
  · have hspent : s.factor ≤ rate * (1 - s.remaining) :=
      hfactor.trans (mul_le_mul_of_nonneg_left (by linarith [hspending.spent hsome]) hrate)
    -- The more remains, the more the total counts in place of the rate.
    rcases le_total db.total rate with hle | hle
    · have hone : rate ≤ rate * overlap db staying :=
        le_mul_of_one_le_right hrate (le_max_left _ _)
      have hremaining : s.remaining * db.total ≤ s.remaining * rate :=
        mul_le_mul_of_nonneg_left hle hsome.le
      exact le_max_of_le_left (by linarith)
    · have hmore := mul_le_mul_of_nonneg_right (hleft hsome) (sub_nonneg.mpr hle)
      exact le_max_of_le_right (by linarith)

namespace Progress

/-- A label that no match has at the staying variable only uncovers labels. -/
theorem visit_of_zero (db : Database ℚ) (sizes : List ℚ) (leaving : LabelShares ℚ)
    (hzero : staying.of l = 0) (hcoverage : s.coverage group = 0) (hremaining : 0 ≤ s.remaining) :
    ∃ uncovered, s.visit db sizes staying leaving group l = { s with uncovered } := by
  have hcover : s.cover db sizes staying leaving group l =
      { s with uncovered := s.uncovered.set group (left db l (s.free group)) } := by
    by_cases hl : l ∈ s.free group
    · rw [cover_of_mem hl hzero.ge, hzero, mul_zero, zero_mul, add_zero, addAt_zero]
    · exact cover_of_not_mem hl
  refine ⟨s.uncovered.set group (left db l (s.free group)), ?_⟩
  rw [visit, if_pos (hcoverage.trans_lt zero_lt_one), hcover]
  have hsame : (⟨s.factor, s.remaining, s.covered, s.uncovered.set group (left db l (s.free group))⟩ :
      Progress ℚ).coverage group = 0 := hcoverage
  simp only [hsame, Scalar.least_rat, min_eq_right hremaining, sub_zero]

theorem through_of_zero (db : Database ℚ) (sizes : List ℚ) (leaving : LabelShares ℚ)
    {order : List LabelId} (hzero : ∀ l ∈ order, staying.of l = 0)
    (hcoverage : ∀ g, s.coverage g = 0) (hremaining : 0 ≤ s.remaining) :
    ∃ uncovered, through db sizes staying leaving order s = { s with uncovered } := by
  induction order generalizing s with
  | nil => exact ⟨s.uncovered, rfl⟩
  | cons l order ih =>
    obtain ⟨hl, horder⟩ := List.forall_mem_cons.mp hzero
    rw [through]
    split
    · exact ⟨s.uncovered, rfl⟩
    · split
      · exact ih horder hcoverage hremaining
      · next group _ =>
        obtain ⟨uncovered, hvisit⟩ := visit_of_zero db sizes leaving hl (hcoverage group) hremaining
        rw [visit] at hvisit
        simp only [hvisit]
        exact ih (s := { s with uncovered }) horder hcoverage hremaining

end Progress

/-- Without labels each match counts for all nodes. -/
theorem factor_of_zero (hzero : ∀ l ∈ db.labels, staying.of l = 0) :
    factor db staying leaving = db.total := by
  obtain ⟨uncovered, hs⟩ := Progress.through_of_zero db (Partition.sizes db) leaving
    (s := Progress.initial db) (fun l hl => hzero l (mem_sortByEvidence.mp hl))
    Progress.coverage_initial zero_le_one
  rw [factor_eq, Progress.finished, hs]
  exact (zero_add _).trans (one_mul _)

end Partition

/-- To identify two node variables by groups keeps the matches within what is covered at the rate of
the densest label and what is not by all nodes. So it adds none if each match has a label and nodes
are not too few, and without labels it pairs each match with every node. -/
theorem selfJoin_size_le {db : Database ℚ} (h : db.Countable) {staying leaving : String}
    (hne : staying ≠ leaving) {p : Profile ℚ} (hsize : 0 ≤ p.size) {s l : LabelShares ℚ}
    (hstaying : p.nodes.get? staying = some s) (hleaving : p.nodes.get? leaving = some l)
    (hshares : s.AllShares) (hapart : ∀ v, p.isNode v = true → p.isRelationship v = false) :
    ∃ p', selfJoin db staying leaving p = .ok p' ∧ 0 ≤ p'.size ∧
      p'.size ≤ p.size * max (Partition.densest db s l * Partition.overlap db s)
        (Partition.densest db s l * (1 - Partition.unlabelled db s) +
          Partition.unlabelled db s * db.total) ∧
      (Partition.densest db s l * Partition.overlap db s ≤ 1 →
        Partition.unlabelled db s = 0 ∨ db.total ≤ 1 → p'.size ≤ p.size) ∧
      ((∀ m ∈ db.labels, s.of m = 0) → p'.size = p.size * db.total) := by
  have htotal : 0 ≤ db.total := h.total.elim (fun hzero => hzero.ge) zero_le_one.trans
  obtain ⟨hnonneg, hle⟩ := Partition.factor_bounds h.apart htotal hshares l
  refine ⟨_, selfJoin_eq hne hapart hstaying hleaving, mul_nonneg hsize hnonneg,
    mul_le_mul_of_nonneg_left hle hsize, fun hdense hlabels =>
      mul_le_of_le_one_right hsize (hle.trans (max_le hdense ?_)),
    fun hzero => by rw [Partition.factor_of_zero hzero]⟩
  have hrate : Partition.densest db s l ≤ 1 :=
    (le_mul_of_one_le_right Partition.densest_nonneg (le_max_left _ _)).trans hdense
  obtain ⟨hmissing, hone⟩ := Partition.isShare_unlabelled db hshares
  rcases hlabels with hnone | hfew
  · rw [hnone]
    linarith
  · have hcovered := mul_le_of_le_one_left (sub_nonneg.mpr hone) hrate
    have huncovered := mul_le_of_le_one_right hmissing hfew
    linarith

/-- The label is certain at one variable and on half of the matches at the other. -/
theorem selfJoin_size_le_of_marked : ∃ p',
    selfJoin marked "a" "b" ⟨OrderedMap.ofList [("a", OrderedMap.singleton 1 1),
      ("b", OrderedMap.singleton 1 (1 / 2))], ∅, 7, false⟩ = .ok p' ∧
      0 ≤ p'.size ∧ p'.size ≤ 7 := by
  obtain ⟨p', hp', hnonneg, -, hle, -⟩ := selfJoin_size_le countable_marked
    (by decide : "a" ≠ "b")
    (p := ⟨OrderedMap.ofList [("a", OrderedMap.singleton 1 1),
      ("b", OrderedMap.singleton 1 (1 / 2))], ∅, 7, false⟩) (by norm_num)
    (s := OrderedMap.singleton 1 1) (l := OrderedMap.singleton 1 (1 / 2)) rfl rfl
    (LabelShares.allShares_singleton isShare_one) (fun _ _ => rfl)
  exact ⟨p', hp', hnonneg, hle (by decide +kernel) (Or.inl (by decide +kernel))⟩

/-- The only node carries both labels. -/
def twins : Database ℚ :=
  ⟨⟨{ Statistics.Store.empty 1 with
    labelCounts := (OrderedMap.singleton 1 1).insert 2 1 }, true⟩, .single [1, 2]⟩

/-- Two matches without labels become as many as there are pairs with a node, and two of the only
node become four. -/
theorem selfJoin_size_gt :
    (marked.Countable ∧ (selfJoin marked "a" "b" ⟨OrderedMap.ofList [("a", ∅), ("b", ∅)], ∅, 2,
      false⟩).toOption.map Profile.size = some 20) ∧
    (twins.Countable ∧ (selfJoin twins "a" "b"
      ⟨OrderedMap.ofList [("a", (OrderedMap.singleton 1 1).insert 2 1),
        ("b", (OrderedMap.singleton 1 1).insert 2 1)], ∅, 2, false⟩).toOption.map Profile.size =
          some 4) := by
  have htwins : twins.Countable := by
    have hnodes : ∀ l ∈ twins.labels.toList, 1 ≤ twins.nodes l ∧ twins.nodes l ≤ twins.total :=
      List.all_iff_forall_prop.mp (by decide +kernel)
    exact ⟨⟨fun l hl => Or.inr (hnodes l hl).1, Or.inr (by decide +kernel)⟩,
      fun l hl => (hnodes l hl).2, Distribution.apart_single _⟩
  exact ⟨⟨countable_marked, by decide +kernel⟩, htwins, by decide +kernel⟩

end Estimate

end PatternCardinality
