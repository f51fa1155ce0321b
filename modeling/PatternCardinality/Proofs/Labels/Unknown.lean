import PatternCardinality.Proofs.Labels.Retold
import PatternCardinality.Proofs.Ordered.Sorting

/-!
# Names that statistics do not know

A table of sub-labels is read to its end, and then all its names that statistics do not know are
reported: in order, once each, wherever they stand. A table of groups is read to the first row with
such a name, and this name is reported alone.
-/

namespace PatternCardinality.Labels

open Text

variable {α : Type} {store : Statistics.Store α} {files : Files} {directory path : String}
  {variant : Variant} {names : List String}

/-- The fields of a row that has two. -/
def pair? (row : Row) : Option (String × String) :=
  match row.fields with
  | [a, b] => some (a, b)
  | _ => none

/-- The number of a group and the name of a label, as a row has them. -/
def numbered? (row : Row) : Option (Int × String) :=
  match row.fields with
  | [group, label] => (groupNumber? group).map (fun g => (g, label))
  | _ => none

theorem pair?_eq_some_iff {row : Row} {e : String × String} :
    pair? row = some e ↔ row.fields = [e.1, e.2] := by
  obtain ⟨a, b⟩ := e
  rw [pair?]
  split
  · next c d h => simp [h]
  · next h =>
    refine iff_of_false (by simp) (fun hab => ?_)
    exact h a b hab

theorem numbered?_eq_some_iff {row : Row} {e : Int × String} :
    numbered? row = some e ↔
      ∃ group, row.fields = [group, e.2] ∧ groupNumber? group = some e.1 := by
  obtain ⟨g, name⟩ := e
  rw [numbered?]
  split
  · next group label h => simp [h, Prod.ext_iff, and_comm]
  · next h =>
    refine iff_of_false (by simp) ?_
    rintro ⟨group, hfields, -⟩
    exact h group name hfields

section Failures

/-- A table that cannot be read has no names to report. -/
theorem tableBody_ne_unknown {first second : String} :
    tableBody (α := α) files path first second ≠ .error (.unknownLabels names) := by
  rw [tableBody]
  cases files path with
  | error fault => simp
  | ok s =>
    cases htable : tableRows s with
    | nil => simp [htable]
    | cons header rows => by_cases h : header.fields = [first, second] <;> simp [htable, h]

theorem pair_ne_unknown {row : Row} :
    (pair row : Except (Failure α) _) ≠ .error (.unknownLabels names) := by
  rw [pair]
  split <;> simp

theorem addToGroup_eq_unknown_iff {groups : OrderedMap Int (OrderedSet LabelId)}
    {group label : String} :
    addToGroup store groups group label = .error (.unknownLabels names) ↔
      (groupNumber? group).isSome = true ∧ store.labelId? label = none ∧ names = [label] := by
  rw [addToGroup, groupNumber?]
  cases signed? 10 (Nat.pow 2 63) group.toList with
  | none => simp
  | some g => cases store.labelId? label <;> simp [eq_comm]

theorem ofGroups_ne_unknown {groups : List (OrderedSet LabelId)} {direct : SubLabels} :
    (Distribution.ofGroups groups direct : Except (Failure α) _) ≠
      .error (.unknownLabels names) := by
  rw [Distribution.ofGroups]
  split <;> simp

end Failures

section SubLabelTable

/-- The names in a table of sub-labels that statistics do not know. -/
def unknownIn (store : Statistics.Store α) (pairs : List (String × String)) : OrderedSet String :=
  (pairs.foldl (fun r e => SubLabelRows.add store r e.1 e.2) ⟨∅, ∅⟩).unknown

/-- A row adds those of its two names that are not known. -/
theorem mem_unknown_add {r : SubLabelRows} {label sub n : String} :
    n ∈ (SubLabelRows.add store r label sub).unknown ↔
      n ∈ r.unknown ∨ (n = label ∨ n = sub) ∧ store.labelId? n = none := by
  cases hl : store.labelId? label <;> cases hs : store.labelId? sub <;>
    simp [SubLabelRows.add, hl, hs, OrderedSet.mem_insert] <;> grind

/-- What rows add to the names that are not known is added by one of them. -/
theorem mem_unknown_foldl {pairs : List (String × String)} {r : SubLabelRows} {n : String} :
    n ∈ (pairs.foldl (fun r e => SubLabelRows.add store r e.1 e.2) r).unknown ↔
      n ∈ r.unknown ∨ (∃ e ∈ pairs, n = e.1 ∨ n = e.2) ∧ store.labelId? n = none := by
  induction pairs generalizing r with
  | nil => simp
  | cons e pairs ih =>
    rw [List.foldl_cons, ih, mem_unknown_add, List.exists_mem_cons_iff, or_assoc, ← or_and_right]

theorem mem_unknownIn {pairs : List (String × String)} {n : String} :
    n ∈ unknownIn store pairs ↔
      (∃ e ∈ pairs, n = e.1 ∨ n = e.2) ∧ store.labelId? n = none := by
  rw [unknownIn, mem_unknown_foldl]
  exact or_iff_right (OrderedSet.not_mem_empty n)

/-- The order of rows has no effect on the names that are reported. -/
theorem unknownIn_perm {pairs pairs' : List (String × String)} (h : pairs'.Perm pairs) :
    unknownIn store pairs' = unknownIn store pairs := by
  refine OrderedSet.ext (fun n => ?_)
  simp only [mem_unknownIn, h.mem_iff]

theorem increasing_unknownIn (pairs : List (String × String)) :
    (unknownIn store pairs).toList.Pairwise (· < ·) :=
  (unknownIn store pairs).increasing.imp compare_string_eq_lt.mp

/-- Names of a table of sub-labels are reported exactly if all its rows have two, and these are the
ones of them that are not known. -/
theorem readSubLabels_eq_unknown_iff :
    readSubLabels files path store = .error (.unknownLabels names) ↔
      ∃ pairs, Says α files path "label" "subLabel" pair? pairs ∧
        names = (unknownIn store pairs).toList ∧ names ≠ [] := by
  have hstep : ∀ (r : SubLabelRows) (row : Row) r',
      ((pair row : Except (Failure α) _) >>= fun e => .ok (SubLabelRows.add store r e.1 e.2)) =
          .ok r' ↔
        ∃ e, pair? row = some e ∧ r' = SubLabelRows.add store r e.1 e.2 := by
    intro r row r'
    rw [Outcome.bind_eq_ok]
    refine exists_congr (fun e => ?_)
    rw [pair_eq_ok_iff, pair?_eq_some_iff, Except.ok.injEq, eq_comm (b := r')]
  have hfold : ∀ rows : List Row, ∀ r, rows.foldlM (fun r row =>
      (pair row : Except (Failure α) _) >>= fun e => .ok (SubLabelRows.add store r e.1 e.2)) r ≠
        .error (.unknownLabels names) := by
    intro rows r h
    obtain ⟨r', row, -, h⟩ := Outcome.foldlM_eq_error h
    rcases Outcome.bind_eq_error.mp h with h | ⟨e, -, h⟩
    · exact pair_ne_unknown h
    · cases h
  -- only what stands behind the last row can report names
  rw [readSubLabels, Outcome.bind_eq_error, or_iff_right tableBody_ne_unknown]
  simp only [Says]
  constructor
  · rintro ⟨rows, hrows, h⟩
    rcases Outcome.bind_eq_error.mp h with h | ⟨r, hr, h⟩
    · exact absurd h (hfold rows _)
    · obtain ⟨pairs, hpairs, rfl⟩ := (Outcome.foldlM_eq_ok_iff_exists hstep).mp hr
      split at h
      · cases h
      · next hfilled =>
        cases h
        refine ⟨pairs, ⟨rows, hrows, hpairs⟩, rfl, ?_⟩
        simpa [OrderedSet.isEmpty] using hfilled
  · rintro ⟨pairs, ⟨rows, hrows, hpairs⟩, rfl, hfilled⟩
    refine ⟨rows, hrows, Outcome.bind_eq_error.mpr (Or.inr ⟨_,
      (Outcome.foldlM_eq_ok_iff_exists hstep).mpr ⟨pairs, hpairs, rfl⟩, ?_⟩)⟩
    rw [if_neg]
    · rfl
    · simpa [OrderedSet.isEmpty, unknownIn] using hfilled

end SubLabelTable

section GroupTable

/-- Rows are put into groups up to the first name that is not known. -/
theorem foldlM_addToGroup_eq_unknown {rows : List Row} {members : List (Int × String)}
    {groups : OrderedMap Int (OrderedSet LabelId)} {g : Int} {name : String}
    (hrows : rows.map numbered? = members.map some)
    (hfind : members.find? (fun e => (store.labelId? e.2).isNone) = some (g, name)) :
    rows.foldlM (fun groups row => (pair row : Except (Failure α) _) >>= fun e =>
      addToGroup store groups e.1 e.2) groups = .error (.unknownLabels [name]) := by
  induction rows generalizing members groups with
  | nil =>
    cases members with
    | nil => cases hfind
    | cons e members => cases hrows
  | cons row rows ih =>
    cases members with
    | nil => cases hrows
    | cons e members =>
      obtain ⟨hrow, hrows⟩ := List.cons.inj hrows
      obtain ⟨group, hfields, hgroup⟩ := numbered?_eq_some_iff.mp hrow
      have hpair : (pair row : Except (Failure α) _) = .ok (group, e.2) :=
        pair_eq_ok_iff.mpr hfields
      rw [List.foldlM_cons, Outcome.bind_eq_error, hpair]
      -- a name that is not known ends the fold here, with the rows behind it unread
      cases hlabel : store.labelId? e.2 with
      | none =>
        rw [List.find?_cons_of_pos (by simp [hlabel])] at hfind
        cases hfind
        exact Or.inl (addToGroup_eq_unknown_iff.mpr ⟨by rw [hgroup]; rfl, hlabel, rfl⟩)
      | some l =>
        rw [List.find?_cons_of_neg (by simp [hlabel])] at hfind
        exact Or.inr ⟨_, addToGroup_eq_ok_iff.mpr ⟨e.1, l, hgroup, hlabel, rfl⟩, ih hrows hfind⟩

/-- The first name of a table of groups that is not known is reported. -/
theorem readPartition_eq_unknown {members : List (Int × String)} {g : Int} {name : String}
    (hsaid : Says α files path "groupId" "label" numbered? members)
    (hfind : members.find? (fun e => (store.labelId? e.2).isNone) = some (g, name)) :
    readPartition files path store = .error (.unknownLabels [name]) := by
  obtain ⟨rows, hrows, hmembers⟩ := hsaid
  rw [readPartition]
  exact Outcome.bind_eq_error.mpr (Or.inr ⟨rows, hrows,
    Outcome.bind_eq_error.mpr (Or.inl (foldlM_addToGroup_eq_unknown hmembers hfind))⟩)

/-- A name that is reported stands in a row and is not known. -/
theorem exists_row_of_readPartition
    (h : readPartition files path store = .error (.unknownLabels names)) :
    ∃ rows row group name, tableBody (α := α) files path "groupId" "label" = .ok rows ∧
      row ∈ rows ∧ row.fields = [group, name] ∧ store.labelId? name = none ∧ names = [name] := by
  rw [readPartition] at h
  rcases Outcome.bind_eq_error.mp h with h | ⟨rows, hrows, h⟩
  · exact absurd h tableBody_ne_unknown
  rcases Outcome.bind_eq_error.mp h with h | ⟨groups, -, h⟩
  · obtain ⟨groups, row, hrow, h⟩ := Outcome.foldlM_eq_error h
    rcases Outcome.bind_eq_error.mp h with h | ⟨⟨group, name⟩, hpair, h⟩
    · exact absurd h pair_ne_unknown
    · obtain ⟨-, hname, rfl⟩ := addToGroup_eq_unknown_iff.mp h
      exact ⟨rows, row, group, name, hrows, hrow, pair_eq_ok_iff.mp hpair, hname, rfl⟩
  · cases h

end GroupTable

/-- Unknown names are those of the table of sub-labels, or else those of the table of groups. -/
theorem load_eq_unknown_iff :
    load files directory variant store = .error (.unknownLabels names) ↔
      (variant.usesSubLabels = true ∧ readSubLabels files (pathIn directory subLabelFile) store =
          .error (.unknownLabels names)) ∨
        (variant.usesSubLabels = true →
          ∃ direct, readSubLabels files (pathIn directory subLabelFile) store = .ok direct) ∧
        variant.usesPartition = true ∧
        readPartition files (pathIn directory partitionFile) store =
          .error (.unknownLabels names) := by
  rw [load]
  cases variant.usesSubLabels <;> cases variant.usesPartition <;>
    simp [Outcome.bind_eq_error, ofGroups_ne_unknown]

section Reports

variable {store : Statistics.Store Float}

/-- A failure that is reported with a text that lists these names. -/
def Reports (outcome : Except (Failure Float) Distribution) (names : List String) : Prop :=
  outcome = .error (.unknownLabels names) ∧
    outcome.mapError Failure.message = .error ("Unknown label: " ++ ", ".intercalate names)

theorem reports_iff {outcome : Except (Failure Float) Distribution} :
    Reports outcome names ↔ outcome = .error (.unknownLabels names) := by
  refine and_iff_left_of_imp (fun h => ?_)
  rw [h]
  rfl

/-- A table that the variant reads has the name of a label in one of its rows. -/
def Named (files : Files) (directory : String) (variant : Variant) (n : String) : Prop :=
  (variant.usesSubLabels = true ∧ ∃ rows row,
      tableBody (α := Float) files (pathIn directory subLabelFile) "label" "subLabel" = .ok rows ∧
      row ∈ rows ∧ n ∈ row.fields) ∨
    (variant.usesPartition = true ∧ ∃ rows row,
      tableBody (α := Float) files (pathIn directory partitionFile) "groupId" "label" = .ok rows ∧
      row ∈ rows ∧ n ∈ row.fields.tail)

/-- Names that are reported stand in tables and are not known. -/
theorem named_of_load (h : load files directory variant store = .error (.unknownLabels names)) :
    names ≠ [] ∧ ∀ n ∈ names, store.labelId? n = none ∧ Named files directory variant n := by
  rcases load_eq_unknown_iff.mp h with ⟨hvariant, h⟩ | ⟨-, hvariant, h⟩
  · obtain ⟨pairs, hsaid, rfl, hfilled⟩ := readSubLabels_eq_unknown_iff.mp h
    refine ⟨hfilled, fun n hn => ?_⟩
    obtain ⟨⟨e, he, hname⟩, hunknown⟩ := mem_unknownIn.mp hn
    obtain ⟨rows, hrows, hpairs⟩ := mem_of_said hsaid
    obtain ⟨row, hrow, hfields⟩ := (hpairs e).mp he
    refine ⟨hunknown, Or.inl ⟨hvariant, rows, row, hrows, hrow, ?_⟩⟩
    simpa [pair?_eq_some_iff.mp hfields] using hname
  · obtain ⟨rows, row, group, name, hrows, hrow, hfields, hunknown, rfl⟩ :=
      exists_row_of_readPartition h
    refine ⟨List.cons_ne_nil name [], fun n hn => ?_⟩
    cases List.mem_singleton.mp hn
    exact ⟨hunknown, Or.inr ⟨hvariant, rows, row, hrows, hrow, by simp [hfields]⟩⟩

/-- If the table of sub-labels has names that are not known, loading reports all of them in order
and once each, in whatever order its rows stand. If the table of groups has, loading reports the
first one alone. No other names are reported. -/
theorem load_reports_unknown (directory : String) (variant : Variant)
    (store : Statistics.Store Float) :
    (∀ pairs : List (String × String), variant.usesSubLabels = true →
      (∃ e ∈ pairs, store.labelId? e.1 = none ∨ store.labelId? e.2 = none) →
      ∃ names : List String, names.Pairwise (· < ·) ∧
        (∀ n, n ∈ names ↔ (∃ e ∈ pairs, n = e.1 ∨ n = e.2) ∧ store.labelId? n = none) ∧
        ∀ files pairs', pairs'.Perm pairs →
          Says Float files (pathIn directory subLabelFile) "label" "subLabel" pair? pairs' →
          Reports (load files directory variant store) names) ∧
    (∀ files members g name, variant.usesPartition = true →
      (variant.usesSubLabels = true →
        ∃ direct, readSubLabels files (pathIn directory subLabelFile) store = .ok direct) →
      Says Float files (pathIn directory partitionFile) "groupId" "label" numbered? members →
      members.find? (fun e => (store.labelId? e.2).isNone) = some (g, name) →
      Reports (load files directory variant store) [name]) ∧
    ∀ files names, load files directory variant store = .error (.unknownLabels names) →
      names ≠ [] ∧ ∀ n ∈ names, store.labelId? n = none ∧ Named files directory variant n := by
  refine ⟨?_, ?_, fun files names => named_of_load⟩
  · intro pairs hvariant hunknown
    refine ⟨(unknownIn store pairs).toList, increasing_unknownIn pairs, fun n => mem_unknownIn,
      fun files pairs' hperm hsaid => reports_iff.mpr ?_⟩
    refine load_eq_unknown_iff.mpr (Or.inl ⟨hvariant, readSubLabels_eq_unknown_iff.mpr
      ⟨pairs', hsaid, by rw [unknownIn_perm hperm], ?_⟩⟩)
    obtain ⟨e, he, hlabel | hsub⟩ := hunknown
    · exact List.ne_nil_of_mem (mem_unknownIn.mpr ⟨⟨e, he, Or.inl rfl⟩, hlabel⟩)
    · exact List.ne_nil_of_mem (mem_unknownIn.mpr ⟨⟨e, he, Or.inr rfl⟩, hsub⟩)
  · intro files members g name hvariant hsub hsaid hfind
    exact reports_iff.mpr (load_eq_unknown_iff.mpr
      (Or.inr ⟨hsub, hvariant, readPartition_eq_unknown hsaid hfind⟩))

/-- Tables with names in the second and the third row that statistics may not know. -/
def strange : Files := fun path =>
  if path = subLabelFile then .ok "label,subLabel\nA,A\nY,A\nX,Y\n"
  else if path = partitionFile then .ok "groupId,label\n0,A\n0,Y\n1,X\n"
  else .error .missing

/-- Some nodes with a label, and no other labels. -/
def oneLabel : Statistics.Store Float := Statistics.Store.build 8 [.label "A" 0 4]

theorem said_strange_groups :
    Says Float strange partitionFile "groupId" "label" numbered? [(0, "A"), (0, "Y"), (1, "X")] :=
  ⟨_, tableBody_eq_ok_iff.mpr ⟨_, rfl, by decide +kernel, rfl⟩, by decide +kernel⟩

theorem labelId?_oneLabel :
    oneLabel.labelId? "A" = some 0 ∧ oneLabel.labelId? "X" = none ∧
      oneLabel.labelId? "Y" = none := by
  decide +kernel

theorem find?_strange : [(0, "A"), (0, "Y"), (1, "X")].find?
    (fun e : Int × String => (oneLabel.labelId? e.2).isNone) = some (0, "Y") := by
  obtain ⟨hA, -, hY⟩ := labelId?_oneLabel
  simp [hA, hY]

theorem load_reports_unknown_strange :
    (∃ names, names.Pairwise (· < ·) ∧ (∀ n, n ∈ names ↔ n = "X" ∨ n = "Y") ∧
        Reports (load strange "" .all oneLabel) names) ∧
      Reports (load strange "" .onlyPartition oneLabel) ["Y"] := by
  have hsaid : Says Float strange subLabelFile "label" "subLabel" pair?
      [("A", "A"), ("Y", "A"), ("X", "Y")] :=
    ⟨_, tableBody_eq_ok_iff.mpr ⟨_, rfl, by decide +kernel, rfl⟩, by decide +kernel⟩
  obtain ⟨hA, hX, hY⟩ := labelId?_oneLabel
  obtain ⟨hsub, -, -⟩ := load_reports_unknown "" .all oneLabel
  obtain ⟨names, hincreasing, hmem, hreports⟩ :=
    hsub [("A", "A"), ("Y", "A"), ("X", "Y")] rfl ⟨("X", "Y"), by simp, Or.inl hX⟩
  refine ⟨⟨names, hincreasing, fun n => ?_, hreports strange _ (.refl _) hsaid⟩, ?_⟩
  · rw [hmem]
    constructor
    · rintro ⟨⟨e, he, hn⟩, hunknown⟩
      grind
    · rintro (rfl | rfl)
      · exact ⟨⟨("X", "Y"), by simp, Or.inl rfl⟩, hX⟩
      · exact ⟨⟨("X", "Y"), by simp, Or.inr rfl⟩, hY⟩
  · obtain ⟨-, hgroups, -⟩ := load_reports_unknown "" .onlyPartition oneLabel
    exact hgroups strange _ 0 "Y" rfl nofun said_strange_groups find?_strange

/-- Two names in a table of groups are not known, and one of them is reported. -/
theorem load_reports_one_of_two :
    Says Float strange partitionFile "groupId" "label" numbered? [(0, "A"), (0, "Y"), (1, "X")] ∧
      oneLabel.labelId? "X" = none ∧ oneLabel.labelId? "Y" = none ∧
      Reports (load strange "" .onlyPartition oneLabel) ["Y"] ∧
      ¬∃ names, "X" ∈ names ∧ Reports (load strange "" .onlyPartition oneLabel) names := by
  have hfirst : load strange "" .onlyPartition oneLabel = .error (.unknownLabels ["Y"]) :=
    load_eq_unknown_iff.mpr
      (Or.inr ⟨nofun, rfl, readPartition_eq_unknown said_strange_groups find?_strange⟩)
  obtain ⟨-, hX, hY⟩ := labelId?_oneLabel
  refine ⟨said_strange_groups, hX, hY, reports_iff.mpr hfirst, ?_⟩
  rintro ⟨names, hmem, hreports⟩
  cases hfirst.symm.trans hreports.1
  simp at hmem

end Reports

end PatternCardinality.Labels
