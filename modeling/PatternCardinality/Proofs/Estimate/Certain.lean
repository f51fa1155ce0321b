import Mathlib.Tactic.FieldSimp
import PatternCardinality.Proofs.Estimate.Hierarchy
import PatternCardinality.Proofs.Estimate.Operator
import PatternCardinality.Proofs.Labels.Distribution

/-!
# A label that was selected

Among all nodes, select those with a label. The label is certain then, and no other label of its
group is as dense, unless one with as many nodes could take its place. So steps from such a result
have the exact degree of the label.
-/

namespace PatternCardinality.Estimate

open Labels Statistics

theorem LabelShares.of_tabulate {f : LabelId → ℚ} {labels : OrderedSet LabelId} {l : LabelId}
    (hl : l ∈ labels) : LabelShares.of (OrderedMap.tabulate f labels) l = f l := by
  simp [LabelShares.of, OrderedMap.getD, OrderedMap.get?_tabulate, hl]

/-- Groups are apart, and sub-labels stay in the group of their label and have no more nodes. -/
structure Database.Nested (db : Database ℚ) : Prop where
  apart : db.distribution.Apart
  inside : ∀ sub l, db.distribution.isBelow sub l = true →
    db.distribution.groupOf? sub = db.distribution.groupOf? l
  nodes_le : ∀ sub l, db.distribution.isBelow sub l = true → db.nodes sub ≤ db.nodes l

/-- Labels have nodes among those that there are. -/
structure Database.Bounded (db : Database ℚ) : Prop where
  nonneg : ∀ l ∈ db.labels, 0 ≤ db.nodes l
  le_total : ∀ l ∈ db.labels, db.nodes l ≤ db.total

theorem Database.bounded_of_dominated {db : Database ℚ} (h : db.view.store.Dominated) :
    db.Bounded :=
  ⟨fun l _ => h.nodes_nonneg l, fun l _ => h.nodes_le l⟩

/-- A known label with nodes, unlike all others of its group in their number. -/
structure Database.Distinct (db : Database ℚ) (l : LabelId) : Prop where
  known : l ∈ db.labels
  positive : 0 < db.nodes l
  unlike : ∀ m ∈ db.labels, db.distribution.groupOf? m = db.distribution.groupOf? l →
    db.nodes m = db.nodes l → m = l

variable {db : Database ℚ} {l m : LabelId}

/-- A share that is no denser than a certain label, with another number of nodes, comes after it. -/
theorem density_lt_certain {share : ℚ} (hl : 0 < db.nodes l) (hshare : share ≤ 1)
    (hle : share * db.nodes l ≤ db.nodes m) (hne : db.nodes m ≠ db.nodes l) :
    db.density share m < db.density 1 l ∨
      (db.density share m = db.density 1 l ∧ share < 1) := by
  have hcertain : db.density 1 l = 1 / db.nodes l := if_pos hl
  rw [hcertain]
  by_cases hm : 0 < db.nodes m
  · have hdensity : db.density share m = share / db.nodes m := if_pos hm
    rw [hdensity]
    rcases lt_or_eq_of_le hle with hlt | heq
    · exact Or.inl ((div_lt_div_iff₀ hm hl).mpr (by linarith))
    · have hsame : share / db.nodes m = 1 / db.nodes l :=
        (div_eq_div_iff hm.ne' hl.ne').mpr (by linarith)
      refine Or.inr ⟨hsame, lt_of_le_of_ne hshare ?_⟩
      rintro rfl
      exact hne (by linarith)
  · have hdensity : db.density share m = 0 := if_neg hm
    rw [hdensity]
    exact Or.inl (by positivity)

theorem total_pos (hcounts : db.Bounded) (hl : db.Distinct l) : 0 < db.total :=
  lt_of_lt_of_le hl.positive (hcounts.le_total l hl.known)

theorem scanned_of (hcounts : db.Bounded) (hl : db.Distinct l) (hm : m ∈ db.labels) :
    LabelShares.of (scanned db) m = db.nodes m / db.total := by
  rw [scanned, LabelShares.of_tabulate hm, if_pos (total_pos hcounts hl)]

theorem narrowed_self (hl : db.Distinct l) :
    LabelShares.of (narrowed db (scanned db) l) l = 1 := by
  rw [narrowed, LabelShares.of_tabulate hl.known]
  simp [narrowedShare]

/-- A label of another group has no share. -/
theorem narrowed_of_ne_group (hnested : db.Nested) (hl : db.Distinct l) (hm : m ∈ db.labels)
    (hgroup : db.distribution.groupOf? m ≠ db.distribution.groupOf? l) :
    LabelShares.of (narrowed db (scanned db) l) m = 0 := by
  have hne : m ≠ l := by
    rintro rfl
    exact hgroup rfl
  have habove : db.distribution.isBelow l m = false := by
    rw [← Bool.not_eq_true]
    intro h
    exact hgroup (hnested.inside l m h).symm
  have hbelow : db.distribution.isBelow m l = false := by
    rw [← Bool.not_eq_true]
    intro h
    exact hgroup (hnested.inside m l h)
  rw [narrowed, LabelShares.of_tabulate hm]
  simp [narrowedShare, hne, habove, hbelow, hgroup]

section Narrowed

variable (hcounts : db.Bounded) (hnested : db.Nested) (hl : db.Distinct l)

include hcounts hnested hl

/-- The selected label comes before all others of its group. -/
theorem narrowed_density_lt (hm : m ∈ db.labels) (hne : m ≠ l)
    (hgroup : db.distribution.groupOf? m = db.distribution.groupOf? l) :
    db.density (LabelShares.of (narrowed db (scanned db) l) m) m < db.density 1 l ∨
      (db.density (LabelShares.of (narrowed db (scanned db) l) m) m = db.density 1 l ∧
        LabelShares.of (narrowed db (scanned db) l) m < 1) := by
  have htotal := total_pos hcounts hl
  have hcount : db.nodes m ≠ db.nodes l := fun heq => hne (hl.unlike m hm hgroup heq)
  have hmle : db.nodes m ≤ db.total := hcounts.le_total m hm
  have hlle : db.nodes l ≤ db.total := hcounts.le_total l hl.known
  have hm0 : 0 ≤ db.nodes m := hcounts.nonneg m hm
  have hl0 : 0 < db.nodes l := hl.positive
  rw [narrowed, LabelShares.of_tabulate hm, narrowedShare]
  simp only [hne, decide_false, Bool.false_or]
  split
  · next habove =>
    refine density_lt_certain hl.positive le_rfl ?_ hcount
    rw [one_mul]
    exact hnested.nodes_le l m habove
  · split
    · have hratio : LabelShares.of (scanned db) m / LabelShares.of (scanned db) l =
          db.nodes m / db.nodes l := by
        rw [scanned_of hcounts hl hm, scanned_of hcounts hl hl.known]
        exact div_div_div_cancel_right₀ htotal.ne' _ _
      rw [Scalar.least_rat, hratio]
      refine density_lt_certain hl.positive (min_le_right _ _) ?_ hcount
      calc min (db.nodes m / db.nodes l) 1 * db.nodes l
          ≤ db.nodes m / db.nodes l * db.nodes l :=
            mul_le_mul_of_nonneg_right (min_le_left _ _) hl0.le
        _ = db.nodes m := div_mul_cancel₀ _ hl0.ne'
    · rw [scanned_of hcounts hl hm]
      refine density_lt_certain hl.positive ((div_le_one htotal).mpr hmle) ?_ hcount
      rw [div_mul_eq_mul_div, div_le_iff₀ htotal]
      exact mul_le_mul_of_nonneg_left hlle hm0

theorem narrowed_first {g : OrderedSet LabelId} (hg : g ∈ db.distribution.groups) (hlg : l ∈ g) :
    ∃ more, sortByEvidence db (LabelShares.of (narrowed db (scanned db) l)) g.toList =
      l :: more := by
  refine sortByEvidence_eq_cons hlg (fun m hm hne => ?_)
  rw [narrowed_self hl]
  have hknown : m ∈ db.labels := Distribution.mem_labels.mpr ⟨g, hg, hm⟩
  exact narrowed_density_lt hcounts hnested hl hknown hne
    ((hnested.apart.mem_iff hg hlg).mp hm).symm

omit hcounts in
theorem narrowed_of_not_mem {g : OrderedSet LabelId} (hg : g ∈ db.distribution.groups)
    (hlg : l ∉ g) (hm : m ∈ g) : LabelShares.of (narrowed db (scanned db) l) m = 0 := by
  refine narrowed_of_ne_group hnested hl (Distribution.mem_labels.mpr ⟨g, hg, hm⟩)
    (fun hgroup => hlg ?_)
  exact (hnested.apart.mem_iff hg hm).mpr hgroup

/-- All mass falls on the selected label, in as many vectors as there are. -/
theorem complete_narrowed {n : ℕ} [NeZero n] :
    ∃ before k, Walk.complete db.distribution (fun group =>
          sortByEvidence db (LabelShares.of (narrowed db (scanned db) l)) group.toList)
        (fun _ : Fin n => LabelShares.of (narrowed db (scanned db) l)) =
          ⟨before ++ [⟨k, l, Vector.replicate n 1⟩], Vector.replicate n 0⟩ ∧
      ∀ v ∈ before, v.mass = Vector.replicate n 0 := by
  have hmem : ∃ g ∈ db.distribution.groups, l ∈ g := Distribution.mem_labels.mp hl.known
  refine Walk.throughGroups_of_certain _ (fun _ => narrowed_self hl) hmem
    (fun g hg hlg => narrowed_first hcounts hnested hl hg hlg) (fun g hg hlg m hm _ => ?_)
  exact narrowed_of_not_mem hnested hl hg hlg (mem_sortByEvidence.mp hm)

/-- The degree of the selected label is that of the result. -/
theorem degreeTo_narrowed (types : TypeSet) (direction : Direction) (target : LabelId) :
    (⟨db, types, direction⟩ : Traversal ℚ).degreeTo (narrowed db (scanned db) l) target =
      db.averageDegree l types target direction := by
  obtain ⟨before, k, hwalk, hbefore⟩ := complete_narrowed (n := 1) hcounts hnested hl
  rw [Traversal.degreeTo_eq, Traversal.massOf, hwalk, Walk.weight_of_certain 0 _ k l hbefore]
  exact (congrArg _ (zero_mul _)).trans (add_zero _)

end Narrowed

/-- A step is exact: the result has as many matches as there are relationships, and the share of
each label at the target is that of the relationships that lead to it. -/
structure Exact (db : Database ℚ) (types : TypeSet) (direction : Direction) (l : LabelId)
    (r : Traversal.Reached ℚ) : Prop where
  size : r.size = db.relationships l types anyLabel direction
  target : ∀ m ∈ db.labels, r.size * r.target.of m = db.relationships l types m direction

theorem nothing_of (t : Traversal ℚ) (l : LabelId) : t.nothing.of l = 0 := by
  rw [Traversal.nothing, LabelShares.of, OrderedMap.getD, OrderedMap.get?_tabulate]
  split <;> rfl

section Steps

variable (hstore : db.view.store.Dominated) (types : TypeSet) (direction : Direction)

include hstore

/-- Where there are no relationships, there are none towards a label. -/
theorem relationships_eq_zero (h : db.relationships l types anyLabel direction ≤ 0) :
    db.relationships l types m direction = 0 :=
  le_antisymm ((Database.relationships_le_any_target hstore l types m direction).trans h)
    (Database.relationships_nonneg hstore l types m direction)

/-- Steps from all nodes are exact. -/
theorem fromAllNodes_exact (shares : LabelShares ℚ) :
    Exact db types direction anyLabel
      ((⟨db, types, direction⟩ : Traversal ℚ).fromAllNodes shares) := by
  simp only [Traversal.fromAllNodes]
  split
  · next hnone =>
    refine ⟨rfl, fun m hm => ?_⟩
    rw [nothing_of, mul_zero, relationships_eq_zero hstore types direction hnone]
  · next hsome =>
    refine ⟨rfl, fun m hm => ?_⟩
    rw [LabelShares.of_tabulate hm]
    exact mul_div_cancel₀ _ (not_le.mp hsome).ne'

/-- Steps from the nodes with a label are exact. -/
theorem fromResult_exact (hnested : db.Nested) (hl : db.Distinct l) :
    Exact db types direction l ((⟨db, types, direction⟩ : Traversal ℚ).fromResult (db.nodes l)
      (narrowed db (scanned db) l) none) := by
  have hdegree : ∀ m, db.nodes l * db.averageDegree l types m direction =
      db.relationships l types m direction := by
    intro m
    rw [Database.averageDegree, if_neg (not_le.mpr hl.positive)]
    exact mul_div_cancel₀ _ hl.positive.ne'
  rw [Traversal.fromResult]
  simp only [degreeTo_narrowed (Database.bounded_of_dominated hstore) hnested hl]
  split
  · next hnone =>
    refine ⟨hdegree anyLabel, fun m hm => ?_⟩
    have hzero : db.relationships l types anyLabel direction ≤ 0 := by
      rw [← hdegree]
      exact mul_nonpos_of_nonneg_of_nonpos hl.positive.le hnone
    rw [nothing_of, mul_zero, relationships_eq_zero hstore types direction hzero]
  · next hsome =>
    refine ⟨hdegree anyLabel, fun m hm => ?_⟩
    rw [LabelShares.of_tabulate hm, mul_assoc, mul_div_cancel₀ _ (not_le.mp hsome).ne']
    exact hdegree m

end Steps

end PatternCardinality.Estimate
