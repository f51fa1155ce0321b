import PatternCardinality.Proofs.Labels.Branching
import PatternCardinality.Proofs.Labels.Canonical
import PatternCardinality.Proofs.Outcome

/-!
# One form for groups of labels

Whatever way a distribution is made, its groups are apart and stand in the order of their least
labels, and the group of a label is the one that holds it. So groups can be given in any order, and
to put labels into one group, or each into its own, is to give these groups. A table of the groups
by label that is filled on the way says the same as the groups, and so does the set of its labels.
-/

namespace PatternCardinality.Labels.Distribution

variable {α : Type} {groups : List (OrderedSet LabelId)} {direct : SubLabels} {d : Distribution}
  {l : LabelId}

section Order

/-- The least label of the first group is less than all labels of the second. -/
def Before (g h : OrderedSet LabelId) : Prop := ∃ a ∈ g, (∀ b ∈ g, a ≤ b) ∧ ∀ b ∈ h, a < b

theorem le_of_least? {s : OrderedSet LabelId} {a b : LabelId} (ha : s.least? = some a)
    (hb : b ∈ s) : a ≤ b := by
  obtain ⟨rest, hlist⟩ := List.head?_eq_some_iff.mp ha
  have hincreasing := s.increasing
  rw [OrderedSet.mem_toList, hlist] at hb
  rw [hlist] at hincreasing
  rcases List.mem_cons.mp hb with rfl | hb
  · exact Std.le_refl b
  · exact Std.le_of_lt (Std.compare_eq_lt.mp ((List.pairwise_cons.mp hincreasing).1 b hb))

/-- Groups apart from each other are put into the order of their least labels. -/
theorem before_canonical (h : groups.Pairwise (fun g h => ∀ l ∈ g, l ∉ h)) :
    (canonical groups).Pairwise Before := by
  refine ((sorted_canonical groups).and (pairwise_canonical.mpr h)).imp_of_mem ?_
  rintro g h hg hh ⟨hle, hapart⟩
  obtain ⟨-, l, hl⟩ := mem_canonical.mp hg
  obtain ⟨-, m, hm⟩ := mem_canonical.mp hh
  obtain ⟨a, ha⟩ := exists_least? hl
  obtain ⟨b, hb⟩ := exists_least? hm
  have hlt : a < b := by
    rw [ha, hb] at hle
    refine Std.compare_eq_lt.mp ?_
    cases hcompare : compare a b with
    | lt => rfl
    | eq =>
      -- the least label would be in both groups
      have hab : a = b := Std.LawfulEqOrd.eq_of_compare hcompare
      exact absurd (least?_mem hb) (hab ▸ hapart a (least?_mem ha))
    | gt =>
      have hgt : compare (some a) (some b) = .gt := hcompare
      simp [hgt] at hle
  exact ⟨a, least?_mem ha, fun _ hc => le_of_least? ha hc,
    fun _ hc => Std.lt_of_lt_of_le hlt (le_of_least? hb hc)⟩

/-- Groups with labels that are in order already stay as they are. -/
theorem canonical_eq_self (h : groups.Pairwise (fun g h => compare g.least? h.least? = .lt))
    (hfilled : ∀ g ∈ groups, ∃ l, l ∈ g) : canonical groups = groups := by
  have hfilter : groups.filter (fun g => !g.isEmpty) = groups := by
    refine List.filter_eq_self.mpr (fun g hg => ?_)
    obtain ⟨l, hl⟩ := hfilled g hg
    rw [Bool.not_eq_true', ← Bool.not_eq_true, OrderedSet.isEmpty_iff]
    exact fun hempty => hempty l hl
  rw [canonical, hfilter]
  exact sortBy_eq_self (h.imp (fun hlt => by rw [hlt]; rfl))

end Order

/-- The group of a label is the one that holds it, and there is none for other labels. -/
theorem Apart.groupOf?_eq_some_iff (h : d.Apart) {i : Nat} :
    d.groupOf? l = some i ↔ ∃ g, d.groups[i]? = some g ∧ l ∈ g := by
  constructor
  · intro hi
    obtain ⟨hlt, hmem, -⟩ := List.findIdx?_eq_some_iff_getElem.mp hi
    exact ⟨_, List.getElem?_eq_getElem hlt, of_decide_eq_true hmem⟩
  · rintro ⟨g, hg, hl⟩
    obtain ⟨hlt, rfl⟩ := List.getElem?_eq_some_iff.mp hg
    exact h.groupOf?_eq hlt hl

section Alone

/-- Labels in one group are the group that is given. -/
theorem ofGroups_single (labels : List LabelId) :
    (ofGroups [OrderedSet.ofList labels] ∅ : Except (Failure α) _) = .ok (single labels) := by
  refine ofGroups_eq_ok_iff.mpr ⟨List.pairwise_singleton _ _, ?_⟩
  have hclosure : SubLabels.closure ∅ = ∅ := rfl
  rw [hclosure, single, canonical]
  cases hempty : (OrderedSet.ofList labels).isEmpty <;> simp [hempty, sortBy, placeBy]

/-- Labels in groups of their own are the groups that are given, in any order, if no group is given
twice. -/
theorem ofGroups_singletons_iff {labels members : List LabelId}
    (h : ∀ l, l ∈ members ↔ l ∈ labels) :
    (ofGroups (members.map OrderedSet.singleton) ∅ : Except (Failure α) _) =
      .ok (disjoint labels) ↔ members.Nodup := by
  have hapart : (members.map OrderedSet.singleton).Pairwise (fun g h => ∀ l ∈ g, l ∉ h) ↔
      members.Nodup := by
    rw [List.pairwise_map, List.nodup_iff_pairwise_ne]
    simp [OrderedSet.mem_singleton]
  rw [ofGroups_eq_ok_iff, hapart]
  refine and_iff_left_of_imp (fun hnodup => ?_)
  have hperm : (members.map OrderedSet.singleton).Perm
      ((OrderedSet.ofList labels).toList.map OrderedSet.singleton) := by
    refine List.Perm.map _ ((List.perm_ext_iff_of_nodup hnodup (OrderedSet.nodup_toList _)).mpr ?_)
    intro l
    rw [h l]
    exact OrderedSet.mem_ofList.symm
  have hsorted : canonical ((OrderedSet.ofList labels).toList.map OrderedSet.singleton) =
      (OrderedSet.ofList labels).toList.map OrderedSet.singleton := by
    refine canonical_eq_self (List.pairwise_map.mpr (OrderedSet.ofList labels).increasing) ?_
    exact List.forall_mem_map.mpr (fun l _ => ⟨l, OrderedSet.mem_singleton.mpr rfl⟩)
  rw [canonical_eq_of_perm hperm (hapart.mpr hnodup), hsorted]
  rfl

/-- Every distribution can be made of groups. -/
theorem Made.exists_ofGroups (h : d.Made) :
    ∃ groups direct, (Distribution.ofGroups groups direct : Except (Failure α) _) = .ok d := by
  cases h with
  | ofGroups made => exact ⟨_, _, ofGroups_eq_ok_iff.mpr (ofGroups_eq_ok_iff.mp made)⟩
  | single labels => exact ⟨_, _, ofGroups_single labels⟩
  | disjoint labels =>
    refine ⟨_, _, (ofGroups_singletons_iff (fun l => ?_)).mpr
      (OrderedSet.nodup_toList (OrderedSet.ofList labels))⟩
    exact OrderedSet.mem_ofList

theorem Made.apart (h : d.Made) : d.Apart := by
  obtain ⟨groups, direct, hd⟩ := h.exists_ofGroups (α := Empty)
  exact apart_ofGroups hd

theorem Made.before (h : d.Made) : d.groups.Pairwise Before := by
  obtain ⟨groups, direct, hd⟩ := h.exists_ofGroups (α := Empty)
  obtain ⟨hgroups, rfl⟩ := ofGroups_eq_ok_iff.mp hd
  exact before_canonical hgroups

end Alone

section Enrolled

/-- Puts the labels of a group into a table of groups by label. One that stands there already is
shared with the group of its entry. -/
def enroll (i : Nat) : List LabelId → OrderedMap LabelId Nat →
    Except (Failure α) (OrderedMap LabelId Nat)
  | [], table => .ok table
  | l :: more, table =>
    match table.get? l with
    | some other => .error (.sharedLabel l other i)
    | none => enroll i more (table.insert l i)

def enrollGroups : Nat → List (OrderedSet LabelId) → OrderedMap LabelId Nat →
    Except (Failure α) (OrderedMap LabelId Nat)
  | _, [], table => .ok table
  | i, g :: more, table => enroll i g.toList table >>= enrollGroups (i + 1) more

variable {i : Nat} {before : List (OrderedSet LabelId)} {table : OrderedMap LabelId Nat}

/-- Labels are enrolled up to the first one that an earlier group holds. -/
theorem enroll_outcome {labels : List LabelId} (hlabels : labels.Nodup)
    (htable : ∀ l ∈ labels, table.get? l = before.findIdx? (fun h => decide (l ∈ h))) :
    match labels.findSome? (fun l => (before.findIdx? (fun h => decide (l ∈ h))).map
      (fun other => (l, other, i))) with
    | some (l, first, second) =>
      (enroll i labels table : Except (Failure α) _) = .error (.sharedLabel l first second)
    | none => ∃ table', (enroll i labels table : Except (Failure α) _) = .ok table' ∧
        ∀ l, table'.get? l = if l ∈ labels then some i else table.get? l := by
  induction labels generalizing table with
  | nil => exact ⟨table, rfl, by simp⟩
  | cons l labels ih =>
    obtain ⟨hl, hlabels⟩ := List.nodup_cons.mp hlabels
    obtain ⟨hhead, hmore⟩ := List.forall_mem_cons.mp htable
    rw [List.findSome?_cons, enroll, hhead]
    cases before.findIdx? (fun h => decide (l ∈ h)) with
    | some other => rfl
    | none =>
      have hlater : ∀ m ∈ labels,
          (table.insert l i).get? m = before.findIdx? (fun h => decide (m ∈ h)) := by
        intro m hm
        have hne : m ≠ l := fun heq => hl (heq ▸ hm)
        rw [OrderedMap.get?_insert, if_neg hne, hmore m hm]
      have hrest := ih hlabels hlater
      dsimp only [Option.map_none]
      generalize labels.findSome? _ = found at hrest ⊢
      cases found with
      | some => exact hrest
      | none =>
        obtain ⟨table', henroll, hget⟩ := hrest
        refine ⟨table', henroll, fun m => ?_⟩
        rw [hget, OrderedMap.get?_insert]
        by_cases hm : m = l <;> simp [hm]

/-- A table is filled exactly if no label is shared, and then has the group of each label. -/
theorem enrollGroups_outcome (hlength : before.length = i)
    (htable : ∀ l, table.get? l = before.findIdx? (fun h => decide (l ∈ h))) :
    match shared? i before groups with
    | some (l, first, second) => (enrollGroups i groups table : Except (Failure α) _) =
        .error (.sharedLabel l first second)
    | none => ∃ table', (enrollGroups i groups table : Except (Failure α) _) = .ok table' ∧
        ∀ l, table'.get? l = (before ++ groups).findIdx? (fun h => decide (l ∈ h)) := by
  induction groups generalizing i before table with
  | nil => exact ⟨table, rfl, by simpa using htable⟩
  | cons g groups ih =>
    have hfirst := enroll_outcome (α := α) (i := i) (OrderedSet.nodup_toList g)
      (fun l _ => htable l)
    simp only [shared?, enrollGroups]
    split at hfirst
    · next hshared =>
      rw [hshared, hfirst]
      rfl
    · next hshared =>
      obtain ⟨first, hfirst, hget⟩ := hfirst
      have hnext : ∀ l, first.get? l = (before ++ [g]).findIdx? (fun h => decide (l ∈ h)) := by
        intro l
        rw [hget, htable, List.findIdx?_append]
        by_cases hl : l ∈ g.toList
        · have hnone := List.findSome?_eq_none_iff.mp hshared l hl
          have hmem : l ∈ g := hl
          rw [Option.map_eq_none_iff.mp hnone, if_pos hl]
          simp [hmem, hlength]
        · have hmem : l ∉ g := hl
          rw [if_neg hl]
          simp [hmem]
      have hrest := ih (i := i + 1) (by simp [hlength]) hnext
      rw [hshared, hfirst]
      rw [List.append_assoc] at hrest
      exact hrest

/-- The group of each label, in a table. -/
def index (d : Distribution) : OrderedMap LabelId Nat :=
  .tabulate (fun l => (d.groupOf? l).getD 0) d.labels

theorem isSome_groupOf?_iff : (d.groupOf? l).isSome = true ↔ l ∈ d.labels := by
  rw [groupOf?, List.findIdx?_isSome, mem_labels]
  simp

theorem get?_index (d : Distribution) (l : LabelId) : d.index.get? l = d.groupOf? l := by
  rw [index, OrderedMap.get?_tabulate]
  split
  · next hl =>
    obtain ⟨i, hi⟩ := Option.isSome_iff_exists.mp (isSome_groupOf?_iff.mpr hl)
    rw [hi, Option.getD_some]
  · next hl => exact (Option.not_isSome_iff_eq_none.mp (mt isSome_groupOf?_iff.mp hl)).symm

theorem eq_index (hget : ∀ l, table.get? l = d.groupOf? l) : table = d.index :=
  OrderedMap.ext (fun l => (hget l).trans (get?_index d l).symm)

/-- Groups make a distribution exactly if they fill a table, and fail alike. -/
theorem enrollGroups_canonical (groups : List (OrderedSet LabelId)) (direct : SubLabels) :
    (enrollGroups 0 (canonical groups) ∅ : Except (Failure α) _) =
      (ofGroups groups direct).map index := by
  have houtcome := @enrollGroups_outcome α (canonical groups) 0 [] ∅ rfl (fun _ => rfl)
  simp only [ofGroups]
  generalize shared? 0 [] (canonical groups) = found at houtcome ⊢
  cases found with
  | some found => exact houtcome
  | none =>
    obtain ⟨table, htable, hget⟩ := houtcome
    rw [htable]
    exact congrArg Except.ok (eq_index hget)

theorem index_single (labels : List LabelId) :
    (single labels).index = .tabulate (fun _ => 0) (OrderedSet.ofList labels) := by
  refine (eq_index (fun l => ?_)).symm
  rw [OrderedMap.get?_tabulate, groupOf?, single]
  by_cases hl : l ∈ OrderedSet.ofList labels
  · have hfilled : (OrderedSet.ofList labels).isEmpty = false := by
      rw [← Bool.not_eq_true, OrderedSet.isEmpty_iff]
      exact fun hempty => hempty l hl
    simp [hfilled, hl]
  · cases (OrderedSet.ofList labels).isEmpty <;> simp [hl]

theorem index_disjoint (labels : List LabelId) :
    (disjoint labels).index = .ofList (OrderedSet.ofList labels).toList.zipIdx := by
  have hincreasing : (OrderedSet.ofList labels).toList.zipIdx.Pairwise
      (fun a b => compare a.1 b.1 = .lt) := by
    refine (List.pairwise_map (f := Prod.fst) (R := fun a b => compare a b = .lt)).mp ?_
    rw [List.zipIdx_map_fst]
    exact (OrderedSet.ofList labels).increasing
  refine (eq_index (fun l => Option.ext (fun i => ?_))).symm
  have hentries : (OrderedMap.ofList (OrderedSet.ofList labels).toList.zipIdx).entries =
      (OrderedSet.ofList labels).toList.zipIdx :=
    OrderedMap.entries_foldl_insert (m := ∅) hincreasing
  rw [(apart_disjoint labels).groupOf?_eq_some_iff, ← OrderedMap.mem_entries_iff, hentries,
    List.mem_zipIdx_iff_getElem?, disjoint]
  simp [OrderedSet.mem_singleton, eq_comm]

end Enrolled

theorem labels_single (labels : List LabelId) :
    (single labels).labels = OrderedSet.ofList labels := by
  refine OrderedSet.ext (fun l => ?_)
  have h := ofGroups_single (α := Unit) labels
  rw [mem_labels_of_ofGroups h]
  simp

/-- Groups make a distribution exactly if no label is in two of them. Its groups are those with
labels, by their least ones, whatever the order in which they are given, and the group of a label is
the one that holds it. Labels in one group make what this group makes, and labels in groups of their
own what these groups make in any order. Tables of the groups by label that are filled on the way
agree with the groups, and with each other, and so do sets of all labels. -/
theorem ofGroups_canonical_form (groups : List (OrderedSet LabelId)) (direct : SubLabels) :
    ((∃ d, (ofGroups groups direct : Except (Failure α) _) = .ok d) ↔
      groups.Pairwise (fun g h => ∀ l ∈ g, l ∉ h)) ∧
    (∀ d, (ofGroups groups direct : Except (Failure α) _) = .ok d →
      d.groups.Perm (groups.filter (fun g => !g.isEmpty)) ∧ d.groups.Pairwise Before ∧
      (∀ l i, d.groupOf? l = some i ↔ ∃ g, d.groups[i]? = some g ∧ l ∈ g) ∧
      (∀ l, l ∈ d.labels ↔ ∃ g ∈ d.groups, l ∈ g) ∧
      ∀ reordered : List (OrderedSet LabelId), reordered.Perm groups →
        (ofGroups reordered direct : Except (Failure α) _) = .ok d) ∧
    (∀ labels : List LabelId,
      (ofGroups [OrderedSet.ofList labels] ∅ : Except (Failure α) _) = .ok (single labels) ∧
      ∀ members : List LabelId, (∀ l, l ∈ members ↔ l ∈ labels) →
        ((ofGroups (members.map OrderedSet.singleton) ∅ : Except (Failure α) _) =
          .ok (disjoint labels) ↔ members.Nodup)) ∧
    (enrollGroups 0 (canonical groups) ∅ : Except (Failure α) _) =
      (ofGroups groups direct).map index ∧
    ∀ labels : List LabelId,
      (single labels).labels = OrderedSet.ofList labels ∧
      (disjoint labels).labels = OrderedSet.ofList labels ∧
      (single labels).index = .tabulate (fun _ => 0) (OrderedSet.ofList labels) ∧
      (disjoint labels).index = .ofList (OrderedSet.ofList labels).toList.zipIdx := by
  refine ⟨?_, fun d hd => ?_, fun labels => ?_, enrollGroups_canonical groups direct,
    fun labels => ⟨labels_single labels, labels_disjoint labels, index_single labels,
      index_disjoint labels⟩⟩
  · simp only [ofGroups_eq_ok_iff, exists_and_left, exists_eq, and_true]
  · obtain ⟨hgroups, rfl⟩ := ofGroups_eq_ok_iff.mp hd
    exact ⟨canonical_perm groups, before_canonical hgroups,
      fun l i => (apart_ofGroups hd).groupOf?_eq_some_iff, fun l => mem_labels,
      fun reordered h => (ofGroups_eq_ok_iff_of_perm h).mpr hd⟩
  · exact ⟨ofGroups_single labels, fun members h => ofGroups_singletons_iff h⟩

/-- Groups in disorder, one of them without labels, and labels that are listed twice. -/
theorem ofGroups_canonical_form_disordered :
    let groups := [OrderedSet.ofList [4, 3], OrderedSet.ofList [0, 2], ∅, OrderedSet.ofList [1]]
    (∃ d, (ofGroups groups ∅ : Except (Failure Float) _) = .ok d ∧ d.groups.Pairwise Before ∧
      (ofGroups groups.reverse ∅ : Except (Failure Float) _) = .ok d ∧ d.groupOf? 4 = some 2 ∧
      d.groupOf? 7 = none) ∧
    (ofGroups ([1, 5].map OrderedSet.singleton) ∅ : Except (Failure Float) _) =
      .ok (disjoint [5, 1, 5]) := by
  intro groups
  have hd : (ofGroups groups ∅ : Except (Failure Float) _) =
      .ok ⟨[OrderedSet.ofList [0, 2], OrderedSet.ofList [1], OrderedSet.ofList [4, 3]], ∅⟩ :=
    Outcome.toOption_eq_some.mp (by decide +kernel)
  obtain ⟨-, hform, halone, -⟩ := ofGroups_canonical_form (α := Float) groups ∅
  obtain ⟨-, hbefore, -, -, hreordered⟩ := hform _ hd
  refine ⟨⟨_, hd, hbefore, hreordered _ groups.reverse_perm, by decide +kernel⟩, ?_⟩
  exact ((halone [5, 1, 5]).2 [1, 5] (by simp [or_comm])).mpr (by decide)

/-- Which of the shared labels a failure names can depend on the order of the groups. -/
example : shared? 0 [] (canonical ([[0, 2], [1, 2], [1]].map OrderedSet.ofList)) = some (2, 0, 1) ∧
    shared? 0 [] (canonical ([[0, 2], [1], [1, 2]].map OrderedSet.ofList)) = some (1, 1, 2) := by
  decide +kernel

end PatternCardinality.Labels.Distribution
