import PatternCardinality.Proofs.Labels.Loaded

/-!
# Tables written in another way

A distribution that is loaded depends on what the rows of the tables say alone: they may stand in
any order and more than once, and groups may have other numbers.
-/

namespace PatternCardinality.Labels

open Text

variable {α : Type} {store : Statistics.Store α} {files files' : Files} {directory path : String}
  {variant : Variant} {d : Distribution}

/-- Tables with the same header, and rows that correspond to rows of the other. -/
structure Retells (R : Row → Row → Prop) (rows rows' : List Row) : Prop where
  header : rows'.head?.map Row.fields = rows.head?.map Row.fields
  forth : ∀ row ∈ rows.tail, ∃ row' ∈ rows'.tail, R row row'
  back : ∀ row' ∈ rows'.tail, ∃ row ∈ rows.tail, R row row'

/-- Two files at one path hold such tables. -/
def Retold (R : Row → Row → Prop) (files files' : Files) (path : String) : Prop :=
  ∃ s s', files path = .ok s ∧ files' path = .ok s' ∧ Retells R (tableRows s) (tableRows s')

def SameFields (row row' : Row) : Prop := row'.fields = row.fields

instance : DecidableRel SameFields := fun row row' =>
  inferInstanceAs (Decidable (row'.fields = row.fields))

/-- The number of a group, written in front, is replaced. -/
def Renumbered (f : Int → Int) (row row' : Row) : Prop :=
  row'.fields.head?.bind groupNumber? = (row.fields.head?.bind groupNumber?).map f ∧
    row'.fields.tail = row.fields.tail

instance (f : Int → Int) : DecidableRel (Renumbered f) := fun row row' =>
  inferInstanceAs (Decidable (_ = _ ∧ row'.fields.tail = row.fields.tail))

/-- The numbers of groups in a table. -/
def groupNumbers (files : Files) (path : String) : Set Int :=
  {g | ∃ s row, files path = .ok s ∧ row ∈ (tableRows s).tail ∧
    row.fields.head?.bind groupNumber? = some g}

variable {R : Row → Row → Prop} {γ : Type} {item? : Row → Option γ}
  {φ : γ → γ} {entries entries' : List γ}

theorem tableBody_eq_ok_iff {first second : String} {rows : List Row} :
    tableBody (α := α) files path first second = .ok rows ↔
      ∃ s, files path = .ok s ∧ (tableRows s).head?.map Row.fields = some [first, second] ∧
        rows = (tableRows s).tail := by
  rw [tableBody]
  cases files path with
  | error fault => simp
  | ok s =>
    cases htable : tableRows s with
    | nil => simp [htable]
    | cons header rows' =>
      by_cases hheader : header.fields = [first, second] <;> simp [htable, hheader, eq_comm]

theorem Retold.tableBody (h : Retold R files files' path) (first second : String) :
    (∃ rows rows', tableBody (α := α) files path first second = .ok rows ∧
        tableBody (α := α) files' path first second = .ok rows' ∧
        (∀ row ∈ rows, ∃ row' ∈ rows', R row row') ∧ ∀ row' ∈ rows', ∃ row ∈ rows, R row row') ∨
      (∀ rows, Labels.tableBody (α := α) files path first second ≠ .ok rows) ∧
        ∀ rows, Labels.tableBody (α := α) files' path first second ≠ .ok rows := by
  obtain ⟨s, s', hs, hs', hretells⟩ := h
  by_cases hheader : (tableRows s).head?.map Row.fields = some [first, second]
  · exact Or.inl ⟨_, _, tableBody_eq_ok_iff.mpr ⟨s, hs, hheader, rfl⟩,
      tableBody_eq_ok_iff.mpr ⟨s', hs', hretells.header.trans hheader, rfl⟩, hretells.forth,
      hretells.back⟩
  · refine Or.inr ⟨fun rows hrows => ?_, fun rows hrows => ?_⟩
    · obtain ⟨t, ht, hfields, -⟩ := tableBody_eq_ok_iff.mp hrows
      cases hs.symm.trans ht
      exact hheader hfields
    · obtain ⟨t, ht, hfields, -⟩ := tableBody_eq_ok_iff.mp hrows
      cases hs'.symm.trans ht
      exact hheader (hretells.header.symm.trans hfields)

/-- If corresponding rows say corresponding things, so do the tables. -/
theorem Retold.said_iff (h : Retold R files files' path)
    (hR : ∀ row row', R row row' → item? row' = (item? row).map φ) (first second : String) :
    ((∃ entries, Says α files path first second item? entries) ↔
        ∃ entries, Says α files' path first second item? entries) ∧
      ∀ entries entries', Says α files path first second item? entries →
        Says α files' path first second item? entries' →
        ∀ e, e ∈ entries' ↔ ∃ e₀ ∈ entries, e = φ e₀ := by
  rcases h.tableBody (α := α) first second with
    ⟨rows, rows', hrows, hrows', hforth, hback⟩ | ⟨hnone, hnone'⟩
  · constructor
    · rw [exists_said_iff, exists_said_iff]
      simp only [hrows, hrows', Except.ok.injEq, exists_eq_left']
      constructor
      · intro hall row' hrow'
        obtain ⟨row, hrow, hrel⟩ := hback row' hrow'
        rw [hR row row' hrel, Option.isSome_map]
        exact hall row hrow
      · intro hall row hrow
        obtain ⟨row', hrow', hrel⟩ := hforth row hrow
        have hsome := hall row' hrow'
        rwa [hR row row' hrel, Option.isSome_map] at hsome
    · intro entries entries' hsaid hsaid' e
      obtain ⟨_, h₁, hmem⟩ := mem_of_said hsaid
      obtain ⟨_, h₂, hmem'⟩ := mem_of_said hsaid'
      cases hrows.symm.trans h₁
      cases hrows'.symm.trans h₂
      rw [hmem']
      constructor
      · rintro ⟨row', hrow', he⟩
        obtain ⟨row, hrow, hrel⟩ := hback row' hrow'
        rw [hR row row' hrel] at he
        obtain ⟨e₀, he₀, rfl⟩ := Option.map_eq_some_iff.mp he
        exact ⟨e₀, (hmem e₀).mpr ⟨row, hrow, he₀⟩, rfl⟩
      · rintro ⟨e₀, he₀, rfl⟩
        obtain ⟨row, hrow, hentry⟩ := (hmem e₀).mp he₀
        obtain ⟨row', hrow', hrel⟩ := hforth row hrow
        exact ⟨row', hrow', by rw [hR row row' hrel, hentry]; rfl⟩
  · have hsaid : ∀ entries, ¬Says α files path first second item? entries :=
      fun entries ⟨rows, hrows, _⟩ => hnone rows hrows
    have hsaid' : ∀ entries, ¬Says α files' path first second item? entries :=
      fun entries ⟨rows, hrows, _⟩ => hnone' rows hrows
    exact ⟨by simp [hsaid, hsaid'], fun entries _ h => absurd h (hsaid entries)⟩

theorem readSubLabels_retold (h : Retold SameFields files files' path) {m : SubLabels} :
    readSubLabels files path store = .ok m ↔ readSubLabels files' path store = .ok m := by
  have hsame : ∀ row row', SameFields row row' →
      subLabelOf? store row' = (subLabelOf? store row).map id := by
    intro row row' hfields
    rw [Option.map_id_fun, id, subLabelOf?, subLabelOf?, hfields]
  obtain ⟨hiff, hmem⟩ := h.said_iff hsame (α := α) "label" "subLabel"
  have hcollected : ∀ pairs pairs', Says α files path "label" "subLabel" (subLabelOf? store) pairs →
      Says α files' path "label" "subLabel" (subLabelOf? store) pairs' →
      collected pairs = collected pairs' := by
    intro pairs pairs' hpairs hpairs'
    refine collected_congr (fun e => ?_)
    rw [hmem pairs pairs' hpairs hpairs' e]
    simp
  rw [readSubLabels_eq_ok_iff, readSubLabels_eq_ok_iff]
  constructor
  · rintro ⟨pairs, hpairs, rfl⟩
    obtain ⟨pairs', hpairs'⟩ := hiff.mp ⟨pairs, hpairs⟩
    exact ⟨pairs', hpairs', hcollected pairs pairs' hpairs hpairs'⟩
  · rintro ⟨pairs', hpairs', rfl⟩
    obtain ⟨pairs, hpairs⟩ := hiff.mpr ⟨pairs', hpairs'⟩
    exact ⟨pairs, hpairs, (hcollected pairs pairs' hpairs hpairs').symm⟩

theorem memberOf?_renumbered {f : Int → Int} {row row' : Row} (h : Renumbered f row row') :
    memberOf? store row' = (memberOf? store row).map (fun e => (f e.1, e.2)) := by
  obtain ⟨hnumber, hrest⟩ := h
  rcases hfields : row.fields with - | ⟨group, rest⟩ <;>
    rcases hfields' : row'.fields with - | ⟨group', rest'⟩ <;>
    rw [hfields, hfields'] at hrest <;> simp only [List.tail_cons, List.tail_nil] at hrest
  · rw [memberOf?, memberOf?, hfields, hfields']
    rfl
  · rw [memberOf?, memberOf?, hfields, hfields', hrest]
    rfl
  · rw [memberOf?, memberOf?, hfields, hfields', ← hrest]
    rfl
  · rw [hfields, hfields'] at hnumber
    replace hnumber : groupNumber? group' = (groupNumber? group).map f := hnumber
    rw [memberOf?, memberOf?, hfields, hfields', hrest]
    rcases rest with - | ⟨label, - | ⟨more, rest⟩⟩
    · rfl
    · simp only [hnumber]
      cases groupNumber? group <;> simp [Function.comp_def]
    · rfl

theorem readPartition_retold {f : Int → Int} (hf : Set.InjOn f (groupNumbers files path))
    (h : Retold (Renumbered f) files files' path) :
    ((∃ groups, readPartition files path store = .ok groups) ↔
        ∃ groups, readPartition files' path store = .ok groups) ∧
      ∀ groups groups', readPartition files path store = .ok groups →
        readPartition files' path store = .ok groups' → groups'.Perm groups := by
  have hmember : ∀ row row', Renumbered f row row' →
      memberOf? store row' = (memberOf? store row).map (fun e => (f e.1, e.2)) :=
    fun _ _ => memberOf?_renumbered
  obtain ⟨hiff, hmem⟩ := h.said_iff hmember (α := α) "groupId" "label"
  simp only [readPartition_eq_ok_iff]
  constructor
  · constructor
    · rintro ⟨_, members, hmembers, rfl⟩
      obtain ⟨members', hmembers'⟩ := hiff.mp ⟨members, hmembers⟩
      exact ⟨_, members', hmembers', rfl⟩
    · rintro ⟨_, members', hmembers', rfl⟩
      obtain ⟨members, hmembers⟩ := hiff.mpr ⟨members', hmembers'⟩
      exact ⟨_, members, hmembers, rfl⟩
  · rintro groups groups' ⟨members, hmembers, rfl⟩ ⟨members', hmembers', rfl⟩
    refine values_collected_perm (hf.mono ?_) (hmem members members' hmembers hmembers')
    rintro g ⟨l, hl⟩
    obtain ⟨rows, hrows, hsaid⟩ := mem_of_said hmembers
    obtain ⟨s, hs, -, rfl⟩ := tableBody_eq_ok_iff.mp hrows
    obtain ⟨row, hrow, hentry⟩ := (hsaid _).mp hl
    refine ⟨s, row, hs, hrow, ?_⟩
    rw [memberOf?] at hentry
    split at hentry
    · next group label hfields =>
      obtain ⟨g', hg', hentry⟩ := Option.bind_eq_some_iff.mp hentry
      obtain ⟨l', -, hentry⟩ := Option.map_eq_some_iff.mp hentry
      cases hentry
      rw [hfields]
      exact hg'
    · cases hentry

/-- A distribution that is loaded depends on what the rows of the tables say alone: rows may stand
in any order and more than once, and groups may have other numbers. -/
theorem load_retold {f : Int → Int}
    (hsub : variant.usesSubLabels = true →
      Retold SameFields files files' (pathIn directory subLabelFile))
    (hf : Set.InjOn f (groupNumbers files (pathIn directory partitionFile)))
    (hpartition : variant.usesPartition = true →
      Retold (Renumbered f) files files' (pathIn directory partitionFile)) :
    load files directory variant store = .ok d ↔ load files' directory variant store = .ok d := by
  rw [load_eq_ok_iff, load_eq_ok_iff]
  refine exists_congr (fun direct => ?_)
  simp only [exists_and_left]
  refine and_congr ?_ ?_
  · split
    · next hvariant => exact readSubLabels_retold (hsub hvariant)
    · rfl
  · split
    · next hvariant =>
      obtain ⟨hiff, hperm⟩ := readPartition_retold hf (hpartition hvariant)
      constructor
      · rintro ⟨groups, hgroups, hd⟩
        obtain ⟨groups', hgroups'⟩ := hiff.mp ⟨groups, hgroups⟩
        exact ⟨groups', hgroups', (Distribution.ofGroups_eq_ok_iff_of_perm
          (hperm groups groups' hgroups hgroups')).mpr hd⟩
      · rintro ⟨groups', hgroups', hd⟩
        obtain ⟨groups, hgroups⟩ := hiff.mpr ⟨groups', hgroups'⟩
        exact ⟨groups, hgroups, (Distribution.ofGroups_eq_ok_iff_of_perm
          (hperm groups groups' hgroups hgroups')).mp hd⟩
    · rfl

/-- A chain of labels, and a label in another group. -/
def written : Files := fun path =>
  if path = subLabelFile then .ok "label,subLabel\nA,B\nB,C\n"
  else if path = partitionFile then .ok "groupId,label\n0,A\n0,B\n1,D\n0,C\n"
  else .error .missing

/-- The same with rows in another order and repeated, and with other numbers of groups. -/
def rewritten : Files := fun path =>
  if path = subLabelFile then .ok "label,subLabel\nB,C\nA,B\nB,C\n"
  else if path = partitionFile then .ok "groupId,label\n-3,D\n7,C\n7,B\n7 , A\n7,C\n"
  else .error .missing

def fourLabels : Statistics.Store ℚ :=
  Statistics.Store.build 8 [.label "A" 3 4, .label "B" 1 2, .label "C" 2 1, .label "D" 0 1]

theorem load_retold_rewritten :
    Retold SameFields written rewritten subLabelFile ∧
      Retold (Renumbered (fun g => 7 - 10 * g)) written rewritten partitionFile ∧
      ∃ d, load written "" .all fourLabels = .ok d ∧ load rewritten "" .all fourLabels = .ok d ∧
        d.groups.map OrderedSet.toList = [[0], [1, 2, 3]] ∧ (d.below 3).toList = [1, 2] := by
  have hsub : Retold SameFields written rewritten subLabelFile :=
    ⟨_, _, rfl, rfl, by decide +kernel, by decide +kernel, by decide +kernel⟩
  have hpartition : Retold (Renumbered (fun g => 7 - 10 * g)) written rewritten partitionFile :=
    ⟨_, _, rfl, rfl, by decide +kernel, by decide +kernel, by decide +kernel⟩
  have hinj : Set.InjOn (fun g => 7 - 10 * g) (groupNumbers written partitionFile) := by
    intro g _ g' _ heq
    simpa using heq
  have hload : load written "" .all fourLabels = .ok
      ⟨[OrderedSet.ofList [0], OrderedSet.ofList [1, 2, 3]],
        .ofList [(3, OrderedSet.ofList [1, 2]), (1, OrderedSet.ofList [2])]⟩ :=
    Outcome.toOption_eq_some.mp (by decide +kernel)
  exact ⟨hsub, hpartition, _, hload,
    (load_retold (fun _ => hsub) hinj (fun _ => hpartition)).mp hload, by decide, by decide⟩

end PatternCardinality.Labels
