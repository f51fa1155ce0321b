import PatternCardinality.Estimator
import PatternCardinality.Proofs.Estimate.Binding
import PatternCardinality.Proofs.Estimate.Operator
import PatternCardinality.Proofs.Labels.Canonical
import PatternCardinality.Proofs.Labels.Table
import PatternCardinality.Proofs.Number.Exact

/-!
# Distributions loaded from tables

A distribution that is loaded has a group for each label that is named: for all labels where no
table of groups is read, and for those that have a row in it otherwise. Labels without a group are
not tracked by estimates.
-/

namespace PatternCardinality.Labels

open Text

variable {α : Type} {store : Statistics.Store α} {files : Files} {directory path : String}
  {variant : Variant} {d : Distribution} {l : LabelId}

/-- The labels of statistics are those that have a name. -/
theorem mem_labelSet : l ∈ store.labelSet ↔ ∃ name, store.labelId? name = some l := by
  rw [Statistics.Store.labelSet, OrderedMap.mem_keySet, Statistics.Store.labels,
    Statistics.Store.namesById,
    OrderedMap.contains_foldl_insert store.labelIds.entries Prod.snd (fun _ e => e.1)]
  simp only [List.mem_map, Prod.exists, OrderedMap.mem_entries_iff, exists_eq_right]
  exact or_iff_left (by simp [OrderedMap.contains])

/-- What is loaded is made of the groups and the direct sub-labels that the variant asks for. -/
theorem load_eq_ok_iff :
    load files directory variant store = .ok d ↔
      ∃ direct groups,
        (if variant.usesSubLabels then
          readSubLabels files (pathIn directory subLabelFile) store = .ok direct
          else direct = ∅) ∧
        (if variant.usesPartition then
          readPartition files (pathIn directory partitionFile) store = .ok groups
          else groups = [store.labelSet]) ∧
        (Distribution.ofGroups groups direct : Except (Failure α) _) = .ok d := by
  rw [load]
  cases variant.usesSubLabels <;> cases variant.usesPartition <;> simp [Outcome.bind_eq_ok]

section Coverage

/-- A row of the table of groups names the label. -/
def Listed (files : Files) (path : String) (store : Statistics.Store α) (l : LabelId) : Prop :=
  ∃ rows row group name, tableBody (α := α) files path "groupId" "label" = .ok rows ∧
    row ∈ rows ∧ row.fields = [group, name] ∧ store.labelId? name = some l

theorem listed_of_said {members : List (Int × LabelId)}
    (h : Says α files path "groupId" "label" (memberOf? store) members) :
    Listed files path store l ↔ ∃ g, (g, l) ∈ members := by
  obtain ⟨rows, hrows, hmem⟩ := mem_of_said h
  constructor
  · rintro ⟨rows', row, group, name, hrows', hrow, hfields, hname⟩
    obtain ⟨rows'', hrows'', hall⟩ := exists_said_iff.mp ⟨members, h⟩
    cases hrows.symm.trans hrows'
    cases hrows.symm.trans hrows''
    obtain ⟨e, he⟩ := Option.isSome_iff_exists.mp (hall row hrow)
    have hmember : (groupNumber? group).map (fun g => (g, l)) = some e := by
      simpa [memberOf?, hfields, hname, Option.map_eq_bind, Function.comp_def] using he
    obtain ⟨g, -, rfl⟩ := Option.map_eq_some_iff.mp hmember
    exact ⟨g, (hmem _).mpr ⟨row, hrow, he⟩⟩
  · rintro ⟨g, hg⟩
    obtain ⟨row, hrow, he⟩ := (hmem _).mp hg
    rw [memberOf?] at he
    split at he
    · next group name hfields =>
      obtain ⟨g', -, he⟩ := Option.bind_eq_some_iff.mp he
      obtain ⟨l', hl', he⟩ := Option.map_eq_some_iff.mp he
      cases he
      exact ⟨rows, row, group, name, hrows, hrow, hfields, hl'⟩
    · cases he

/-- The labels of a distribution that is loaded. -/
theorem mem_labels_of_load (h : load files directory variant store = .ok d) :
    l ∈ d.labels ↔ l ∈ store.labelSet ∧ (variant.usesPartition = true →
      Listed files (pathIn directory partitionFile) store l) := by
  obtain ⟨direct, groups, -, hgroups, hd⟩ := load_eq_ok_iff.mp h
  rw [Distribution.mem_labels_of_ofGroups hd]
  split at hgroups
  · next hvariant =>
    obtain ⟨members, hsaid, rfl⟩ := readPartition_eq_ok_iff.mp hgroups
    rw [and_iff_right_of_imp, imp_iff_right hvariant, listed_of_said hsaid]
    · constructor
      · rintro ⟨g, hg, hl⟩
        obtain ⟨k, -, hk⟩ := mem_values_collected.mp hg
        exact ⟨k, (hk l).mp hl⟩
      · rintro ⟨k, hk⟩
        obtain ⟨g, hg⟩ := OrderedMap.contains_iff.mp (contains_collected.mpr ⟨l, hk⟩)
        have hmem := (get?_collected.mp hg).2
        exact ⟨g, mem_values_collected.mpr ⟨k, ⟨l, hk⟩, hmem⟩, (hmem l).mpr hk⟩
    · intro hlisted
      obtain ⟨_, _, _, name, -, -, -, hname⟩ := hlisted hvariant
      exact mem_labelSet.mpr ⟨name, hname⟩
  · next hvariant =>
    subst hgroups
    simp [hvariant]

/-- A label of a distribution that is loaded has one group. -/
theorem exists_unique_group_of_load (h : load files directory variant store = .ok d)
    (hl : l ∈ d.labels) : ∃! i : Nat, ∃ g, d.groups[i]? = some g ∧ l ∈ g := by
  obtain ⟨direct, groups, -, -, hd⟩ := load_eq_ok_iff.mp h
  have hgroup : ∀ i g, d.groups[i]? = some g → l ∈ g → d.groupOf? l = some i := by
    intro i g hi hg
    obtain ⟨hlength, rfl⟩ := List.getElem?_eq_some_iff.mp hi
    exact (Distribution.apart_ofGroups hd).groupOf?_eq hlength hg
  obtain ⟨g, hg, hlg⟩ := Distribution.mem_labels.mp hl
  obtain ⟨i, hi⟩ := List.getElem?_of_mem hg
  refine ⟨i, ⟨g, hi, hlg⟩, ?_⟩
  rintro j ⟨g', hj, hlg'⟩
  exact Option.some.inj ((hgroup j g' hj hlg').symm.trans (hgroup i g hi hlg))

variable [Scalar α]

/-- What a distribution covers that is loaded: each of its labels is one of the statistics and has
one group, it has all of theirs exactly if no table of groups is read or each of them has a row in
it, and a scan knows the shares of its labels, but of no others. -/
theorem load_covers (h : load files directory variant store = .ok d) (oneSided : Bool)
    (v : String) :
    (∀ l ∈ d.labels, l ∈ store.labelSet ∧ ∃! i : Nat, ∃ g, d.groups[i]? = some g ∧ l ∈ g) ∧
      (d.labels = store.labelSet ↔ (variant.usesPartition = true → ∀ l ∈ store.labelSet,
        Listed files (pathIn directory partitionFile) store l)) ∧
      ∃ shares, Estimate.scan ⟨⟨store, oneSided⟩, d⟩ v =
          .ok ⟨OrderedMap.singleton v shares, ∅, store.nodes anyLabel, true⟩ ∧
        ∀ l, shares.get? l = if l ∈ d.labels then
          some (if 0 < store.nodes anyLabel then store.nodes l / store.nodes anyLabel else 0)
          else none := by
  refine ⟨fun l hl => ⟨((mem_labels_of_load h).mp hl).1, exists_unique_group_of_load h hl⟩, ?_, ?_⟩
  · constructor
    · intro hall hvariant l hl
      exact ((mem_labels_of_load h).mp (hall ▸ hl)).2 hvariant
    · intro hlisted
      refine OrderedSet.ext (fun l => ?_)
      rw [mem_labels_of_load h]
      exact and_iff_left_of_imp (fun hl hvariant => hlisted hvariant l hl)
  · obtain ⟨p, hp, -⟩ := Estimate.scan_binds (⟨⟨store, oneSided⟩, d⟩ : Estimate.Database α) v
    refine ⟨_, hp.trans (congrArg Except.ok (Estimate.scan_eq_ok hp)), fun l => ?_⟩
    rw [Estimate.scanned, OrderedMap.get?_tabulate]
    rfl

/-- A table of groups in which only one label has a row. -/
def halfListed : Files := fun path =>
  if path = partitionFile then .ok "groupId,label\n0,A\n" else .error .missing

/-- Some nodes with a label and some with another. -/
def twoLabels : Statistics.Store ℚ := Statistics.Store.build 8 [.label "A" 0 4, .label "B" 1 2]

theorem load_halfListed :
    load halfListed "" .onlyPartition twoLabels = .ok ⟨[OrderedSet.singleton 0], ∅⟩ :=
  Outcome.toOption_eq_some.mp (by decide +kernel)

/-- A table of groups in which both labels have a row. -/
def allListed : Files := fun path =>
  if path = partitionFile then .ok "groupId,label\n1,B\n0,A\n" else .error .missing

theorem load_allListed :
    load allListed "" .onlyPartition twoLabels =
      .ok ⟨[OrderedSet.singleton 0, OrderedSet.singleton 1], ∅⟩ :=
  Outcome.toOption_eq_some.mp (by decide +kernel)

/-- Of two tables one has a row for every label, and what is loaded from it has all labels. -/
theorem load_covers_listed :
    (load halfListed "" .onlyPartition twoLabels = .ok ⟨[OrderedSet.singleton 0], ∅⟩ ∧
      (∀ l ∈ Distribution.labels ⟨[OrderedSet.singleton 0], ∅⟩, l ∈ twoLabels.labelSet) ∧
      Distribution.labels ⟨[OrderedSet.singleton 0], ∅⟩ ≠ twoLabels.labelSet ∧
      ¬∀ l ∈ twoLabels.labelSet, Listed halfListed (pathIn "" partitionFile) twoLabels l) ∧
    load allListed "" .onlyPartition twoLabels =
        .ok ⟨[OrderedSet.singleton 0, OrderedSet.singleton 1], ∅⟩ ∧
      Distribution.labels ⟨[OrderedSet.singleton 0, OrderedSet.singleton 1], ∅⟩ =
        twoLabels.labelSet ∧
      ∀ l ∈ twoLabels.labelSet, Listed allListed (pathIn "" partitionFile) twoLabels l := by
  obtain ⟨hmem, hall, -⟩ := load_covers load_halfListed false "a"
  obtain ⟨-, hall', -⟩ := load_covers load_allListed false "a"
  have hmissing : Distribution.labels ⟨[OrderedSet.singleton 0], ∅⟩ ≠ twoLabels.labelSet := by
    decide +kernel
  have hcovered : Distribution.labels ⟨[OrderedSet.singleton 0, OrderedSet.singleton 1], ∅⟩ =
      twoLabels.labelSet := by
    decide +kernel
  refine ⟨⟨load_halfListed, fun l hl => (hmem l hl).1, hmissing, fun hlisted => ?_⟩,
    load_allListed, hcovered, hall'.mp hcovered rfl⟩
  exact hmissing (hall.mpr (fun _ => hlisted))

/-- A label without a row is in no group, and no node is expected to carry it. -/
theorem load_misses_unlisted :
    ∃ (d : Distribution) (_ : Statistics.NumberHash ℚ),
      load halfListed "" .onlyPartition twoLabels = .ok d ∧
      twoLabels.labelId? "B" = some 1 ∧ 1 ∈ twoLabels.labelSet ∧ 1 ∉ d.labels ∧
      twoLabels.nodes 1 = 2 ∧
      (Estimator.estimate ⟨.standard, ⟨twoLabels, false⟩, d⟩
        (Query.ofPattern (Pattern.empty.addNode "b" ["B"]))).toOption = some 0 := by
  let hash : Statistics.NumberHash ℚ := ⟨fun _ => 0⟩
  exact ⟨⟨[OrderedSet.singleton 0], ∅⟩, hash, load_halfListed, by decide +kernel, by decide +kernel,
    by decide +kernel, by decide +kernel, by decide +kernel⟩

end Coverage

end PatternCardinality.Labels
