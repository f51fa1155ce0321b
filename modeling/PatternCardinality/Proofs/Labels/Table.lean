import Mathlib.Data.Set.Function
import PatternCardinality.Labels.Files
import PatternCardinality.Proofs.Ordered.Map
import PatternCardinality.Proofs.Outcome

/-!
# What tables of labels say

Both tables are read row by row into labels collected by a key: by the label they are sub-labels of,
or by the number of their group. Reading succeeds exactly if every row can be read, and what is
collected depends on which rows there are alone.
-/

namespace PatternCardinality.Labels

open Text

section Collected

variable {κ : Type} [Ord κ] [Std.TransOrd κ]

/-- Puts a label to those with its key. -/
def collect (m : OrderedMap κ (OrderedSet LabelId)) (e : κ × LabelId) :
    OrderedMap κ (OrderedSet LabelId) :=
  m.insert e.1 ((m.getD e.1 ∅).insert e.2)

/-- Labels by their keys. -/
def collected (l : List (κ × LabelId)) : OrderedMap κ (OrderedSet LabelId) := l.foldl collect ∅

variable [Std.LawfulEqOrd κ] [DecidableEq κ] {l l' : List (κ × LabelId)} {k : κ} {a : LabelId}

theorem contains_foldl_collect {m : OrderedMap κ (OrderedSet LabelId)} :
    (l.foldl collect m).contains k = true ↔ (∃ a, (k, a) ∈ l) ∨ m.contains k = true := by
  refine (OrderedMap.contains_foldl_insert l Prod.fst
    (fun m e => (m.getD e.1 ∅).insert e.2) m k).trans (or_congr_left ?_)
  simp

theorem mem_foldl_collect {m : OrderedMap κ (OrderedSet LabelId)} :
    a ∈ (l.foldl collect m).getD k ∅ ↔ (k, a) ∈ l ∨ a ∈ m.getD k ∅ := by
  induction l generalizing m with
  | nil => simp
  | cons e l ih =>
    rw [List.foldl_cons, ih, List.mem_cons, collect, OrderedMap.getD, OrderedMap.get?_insert]
    by_cases hk : k = e.1
    · subst hk
      simp only [if_true, Option.getD_some, OrderedSet.mem_insert, Prod.ext_iff, true_and]
      tauto
    · simp only [Prod.ext_iff, hk, false_and, false_or]
      rfl

theorem contains_collected : (collected l).contains k = true ↔ ∃ a, (k, a) ∈ l := by
  rw [collected, contains_foldl_collect]
  exact or_iff_left (by simp [OrderedMap.contains])

theorem mem_collected : a ∈ (collected l).getD k ∅ ↔ (k, a) ∈ l := by
  rw [collected, mem_foldl_collect]
  exact or_iff_left List.not_mem_nil

theorem get?_collected {g : OrderedSet LabelId} :
    (collected l).get? k = some g ↔ (∃ a, (k, a) ∈ l) ∧ ∀ a, a ∈ g ↔ (k, a) ∈ l := by
  constructor
  · intro h
    refine ⟨contains_collected.mp (OrderedMap.contains_iff.mpr ⟨g, h⟩), fun a => ?_⟩
    rw [← mem_collected, OrderedMap.getD, h, Option.getD_some]
  · rintro ⟨hk, hg⟩
    obtain ⟨g', hg'⟩ := OrderedMap.contains_iff.mp (contains_collected.mpr hk)
    have hsame : g' = g := by
      refine OrderedSet.ext (fun a => ?_)
      rw [hg, ← mem_collected, OrderedMap.getD, hg', Option.getD_some]
    rw [hg', hsame]

/-- What is collected depends on the members alone, not on their order and repetition. -/
theorem collected_congr (h : ∀ e, e ∈ l ↔ e ∈ l') : collected l = collected l' := by
  refine OrderedMap.ext (fun k => Option.ext (fun g => ?_))
  rw [get?_collected, get?_collected]
  simp only [h]

theorem mem_values_collected {g : OrderedSet LabelId} :
    g ∈ (collected l).values ↔ ∃ k, (∃ a, (k, a) ∈ l) ∧ ∀ a, a ∈ g ↔ (k, a) ∈ l := by
  simp only [OrderedMap.values, List.mem_map, Prod.exists, exists_eq_right,
    OrderedMap.mem_entries_iff, get?_collected]

/-- Under other keys the same sets of labels are collected. -/
theorem values_collected_perm {f : κ → κ} (hf : Set.InjOn f {k | ∃ a, (k, a) ∈ l})
    (h : ∀ e, e ∈ l' ↔ ∃ e₀ ∈ l, e = (f e₀.1, e₀.2)) :
    (collected l').values.Perm (collected l).values := by
  have hmem : ∀ k, (∃ a, (k, a) ∈ l) → ∀ a, (f k, a) ∈ l' ↔ (k, a) ∈ l := by
    rintro k hk a
    rw [h]
    constructor
    · rintro ⟨e₀, he₀, heq⟩
      obtain ⟨hkey, rfl⟩ := Prod.mk.inj heq
      rwa [hf hk ⟨e₀.2, he₀⟩ hkey]
    · exact fun ha => ⟨_, ha, rfl⟩
  have hentries : (collected l').entries.Perm
      ((collected l).entries.map (fun e => (f e.1, e.2))) := by
    have hnodup := OrderedSet.nodup_of_increasing Prod.fst (collected l).increasing
    refine (List.perm_ext_iff_of_nodup
      (OrderedSet.nodup_of_increasing Prod.fst (collected l').increasing)
      (hnodup.map_on (fun e he e' he' heq => ?_))).mpr (fun e => ?_)
    · have hkey := hf (get?_collected.mp (OrderedMap.mem_entries_iff.mp he)).1
        (get?_collected.mp (OrderedMap.mem_entries_iff.mp he')).1 (Prod.mk.inj heq).1
      exact Prod.ext hkey (Prod.mk.inj heq).2
    · obtain ⟨k', g⟩ := e
      rw [OrderedMap.mem_entries_iff, get?_collected, List.mem_map]
      constructor
      · rintro ⟨⟨a, ha⟩, hg⟩
        obtain ⟨e₀, he₀, heq⟩ := (h _).mp ha
        obtain ⟨rfl, rfl⟩ := Prod.mk.inj heq
        refine ⟨(e₀.1, g), OrderedMap.mem_entries_iff.mpr (get?_collected.mpr
          ⟨⟨_, he₀⟩, fun a => ?_⟩), rfl⟩
        rw [hg, hmem _ ⟨_, he₀⟩]
      · rintro ⟨e₀, he₀, heq⟩
        obtain ⟨rfl, rfl⟩ := Prod.mk.inj heq
        obtain ⟨⟨a, ha⟩, hg⟩ := get?_collected.mp (OrderedMap.mem_entries_iff.mp he₀)
        exact ⟨⟨a, (hmem _ ⟨a, ha⟩ a).mpr ha⟩, fun b => by rw [hg, hmem _ ⟨a, ha⟩]⟩
  have hvalues := hentries.map Prod.snd
  rwa [List.map_map] at hvalues

end Collected

variable {α : Type} {store : Statistics.Store α} {files : Files} {path : String}

/-- The number that a group is written with. -/
def groupNumber? (text : String) : Option Int := signed? 10 (Nat.pow 2 63) text.toList

/-- The label and the sub-label of a row, if it has two fields and statistics know both. -/
def subLabelOf? (store : Statistics.Store α) (row : Row) : Option (LabelId × LabelId) :=
  match row.fields with
  | [label, sub] =>
    (store.labelId? label).bind (fun l => (store.labelId? sub).map (fun s => (l, s)))
  | _ => none

/-- The group and the label of a row, if it has two fields, the first is a number and statistics
know the other. -/
def memberOf? (store : Statistics.Store α) (row : Row) : Option (Int × LabelId) :=
  match row.fields with
  | [group, label] =>
    (groupNumber? group).bind (fun g => (store.labelId? label).map (fun l => (g, l)))
  | _ => none

/-- The rows of a table can all be read, and these are what they say. -/
def Says {γ : Type} (α : Type) (files : Files) (path first second : String) (item? : Row → Option γ)
    (entries : List γ) : Prop :=
  ∃ rows, tableBody (α := α) files path first second = .ok rows ∧
    rows.map item? = entries.map some

section Says

variable {γ : Type} {first second : String} {item? : Row → Option γ} {entries : List γ}

/-- A table says what its rows say. -/
theorem mem_of_said (h : Says α files path first second item? entries) :
    ∃ rows, tableBody (α := α) files path first second = .ok rows ∧
      ∀ e, e ∈ entries ↔ ∃ row ∈ rows, item? row = some e := by
  obtain ⟨rows, hrows, hentries⟩ := h
  refine ⟨rows, hrows, fun e => ?_⟩
  rw [← List.mem_map, hentries, List.mem_map]
  simp

/-- A table says something if each of its rows does. -/
theorem exists_said_iff : (∃ entries, Says α files path first second item? entries) ↔
    ∃ rows, tableBody (α := α) files path first second = .ok rows ∧
      ∀ row ∈ rows, (item? row).isSome = true := by
  constructor
  · rintro ⟨entries, rows, hrows, hentries⟩
    refine ⟨rows, hrows, fun row hrow => ?_⟩
    obtain ⟨e, -, he⟩ := List.mem_map.mp (hentries ▸ List.mem_map_of_mem hrow)
    rw [← he]
    rfl
  · rintro ⟨rows, hrows, hall⟩
    refine ⟨rows.filterMap item?, rows, hrows, ?_⟩
    clear hrows
    induction rows with
    | nil => rfl
    | cons row rows ih =>
      obtain ⟨hrow, hrest⟩ := List.forall_mem_cons.mp hall
      obtain ⟨e, he⟩ := Option.isSome_iff_exists.mp hrow
      rw [List.filterMap_cons_some he, List.map_cons, List.map_cons, he, ih hrest]

end Says

theorem pair_eq_ok_iff {row : Row} {a b : String} :
    (pair row : Except (Failure α) _) = .ok (a, b) ↔ row.fields = [a, b] := by
  rw [pair]
  split
  · next c d h => simp [h]
  · next h =>
    refine iff_of_false (by simp) (fun hab => ?_)
    exact h a b hab

theorem addToGroup_eq_ok_iff {groups groups' : OrderedMap Int (OrderedSet LabelId)}
    {group label : String} :
    addToGroup store groups group label = .ok groups' ↔
      ∃ g l, groupNumber? group = some g ∧ store.labelId? label = some l ∧
        groups' = collect groups (g, l) := by
  rw [addToGroup, groupNumber?]
  cases signed? 10 (Nat.pow 2 63) group.toList with
  | none => simp
  | some g =>
    cases store.labelId? label with
    | none => simp
    | some l => simp [collect, eq_comm]

/-- The table of groups is read exactly if all its rows can be, into the groups they say. -/
theorem readPartition_eq_ok_iff {groups : List (OrderedSet LabelId)} :
    readPartition files path store = .ok groups ↔
      ∃ members, Says α files path "groupId" "label" (memberOf? store) members ∧
        groups = (collected members).values := by
  have hstep : ∀ (m : OrderedMap Int (OrderedSet LabelId)) (row : Row) m',
      ((pair row : Except (Failure α) _) >>= fun e => addToGroup store m e.1 e.2) = .ok m' ↔
        ∃ e, memberOf? store row = some e ∧ m' = collect m e := by
    intro m row m'
    rw [Outcome.bind_eq_ok]
    constructor
    · rintro ⟨⟨a, b⟩, hpair, hadd⟩
      obtain ⟨g, l, hg, hl, rfl⟩ := addToGroup_eq_ok_iff.mp hadd
      exact ⟨(g, l), by simp [memberOf?, pair_eq_ok_iff.mp hpair, hg, hl], rfl⟩
    · rintro ⟨e, he, rfl⟩
      rw [memberOf?] at he
      split at he
      · next a b hfields =>
        obtain ⟨g, hg, he⟩ := Option.bind_eq_some_iff.mp he
        obtain ⟨l, hl, rfl⟩ := Option.map_eq_some_iff.mp he
        exact ⟨(a, b), pair_eq_ok_iff.mpr hfields, addToGroup_eq_ok_iff.mpr ⟨g, l, hg, hl, rfl⟩⟩
      · cases he
  rw [readPartition, Outcome.bind_eq_ok]
  simp only [Outcome.bind_eq_ok, Says]
  constructor
  · rintro ⟨rows, hrows, m, hm, h⟩
    cases h
    obtain ⟨members, hmembers, rfl⟩ := (Outcome.foldlM_eq_ok_iff_exists hstep).mp hm
    exact ⟨members, ⟨rows, hrows, hmembers⟩, rfl⟩
  · rintro ⟨members, ⟨rows, hrows, hmembers⟩, rfl⟩
    exact ⟨rows, hrows, _, (Outcome.foldlM_eq_ok_iff_exists hstep).mpr ⟨members, hmembers, rfl⟩, rfl⟩

/-- One row of sub-labels adds what it says, or a name to those that are not known. -/
theorem add_cases (r : SubLabelRows) {row : Row} {label sub : String}
    (hfields : row.fields = [label, sub]) :
    (∃ e, subLabelOf? store row = some e ∧
        SubLabelRows.add store r label sub = { r with known := collect r.known e }) ∨
      (subLabelOf? store row = none ∧
        (SubLabelRows.add store r label sub).unknown.isEmpty = false) := by
  have hfilled : ∀ (s : OrderedSet String) n, (s.insert n).isEmpty = false := by
    intro s n
    rw [← Bool.not_eq_true, OrderedSet.isEmpty_iff]
    exact fun h => h n (OrderedSet.mem_insert.mpr (Or.inl rfl))
  cases hl : store.labelId? label with
  | none =>
    refine Or.inr ⟨by simp [subLabelOf?, hfields, hl], ?_⟩
    cases hs : store.labelId? sub <;> simp [SubLabelRows.add, hl, hs, hfilled]
  | some l =>
    cases hs : store.labelId? sub with
    | none =>
      exact Or.inr ⟨by simp [subLabelOf?, hfields, hl, hs],
        by simp [SubLabelRows.add, hl, hs, hfilled]⟩
    | some s =>
      exact Or.inl ⟨(l, s), by simp [subLabelOf?, hfields, hl, hs],
        by simp [SubLabelRows.add, hl, hs, collect, SubLabels.of]⟩

theorem unknown_of_add {r : SubLabelRows} {label sub : String}
    (h : (SubLabelRows.add store r label sub).unknown.isEmpty = true) :
    r.unknown.isEmpty = true := by
  rw [OrderedSet.isEmpty_iff] at h ⊢
  intro n hn
  refine h n ?_
  simp only [SubLabelRows.add]
  split
  · exact hn
  · split <;> split <;> simp [OrderedSet.mem_insert, hn]

theorem fields_of_subLabel {row : Row} {e : LabelId × LabelId}
    (he : subLabelOf? store row = some e) : ∃ label sub, row.fields = [label, sub] := by
  rw [subLabelOf?] at he
  split at he
  · next label sub hfields => exact ⟨label, sub, hfields⟩
  · cases he

/-- No name is unknown after all rows exactly if every row says something; all of that is known
then. -/
theorem foldlM_add_eq_ok_iff {rows : List Row} {r : SubLabelRows} {m : SubLabels} :
    (∃ r', rows.foldlM (fun r row => (pair row : Except (Failure α) _) >>= fun e =>
        .ok (SubLabelRows.add store r e.1 e.2)) r = .ok r' ∧
        r'.unknown.isEmpty = true ∧ r'.known = m) ↔
      r.unknown.isEmpty = true ∧ ∃ pairs : List (LabelId × LabelId),
        rows.map (subLabelOf? store) = pairs.map some ∧ m = pairs.foldl collect r.known := by
  induction rows generalizing r with
  | nil =>
    constructor
    · rintro ⟨r', h, hempty, rfl⟩
      cases h
      exact ⟨hempty, [], rfl, rfl⟩
    · rintro ⟨hempty, pairs, hpairs, rfl⟩
      cases pairs with
      | nil => exact ⟨r, rfl, hempty, rfl⟩
      | cons _ _ => cases hpairs
  | cons row rows ih =>
    simp only [List.foldlM_cons, Outcome.bind_eq_ok]
    constructor
    · rintro ⟨r', ⟨r₁, ⟨⟨label, sub⟩, hpair, h₁⟩, h⟩, hempty, hknown⟩
      cases h₁
      obtain ⟨hempty₁, pairs, hpairs, rfl⟩ := ih.mp ⟨r', h, hempty, hknown⟩
      rcases add_cases r (pair_eq_ok_iff.mp hpair) with ⟨e, he, hadd⟩ | ⟨-, hadd⟩
      · refine ⟨unknown_of_add hempty₁, e :: pairs, ?_, ?_⟩
        · rw [List.map_cons, List.map_cons, he, hpairs]
        · rw [List.foldl_cons, hadd]
      · rw [hadd] at hempty₁
        cases hempty₁
    · rintro ⟨hempty, pairs, hpairs, rfl⟩
      cases pairs with
      | nil => cases hpairs
      | cons e pairs =>
        obtain ⟨he, hpairs⟩ := List.cons.inj hpairs
        obtain ⟨label, sub, hfields⟩ := fields_of_subLabel he
        rcases add_cases r hfields with ⟨e', he', hadd⟩ | ⟨hnone, -⟩
        · cases he.symm.trans he'
          obtain ⟨r', h, hrest⟩ := (ih (r := { r with known := collect r.known e })).mpr
            ⟨hempty, pairs, hpairs, rfl⟩
          rw [← hadd] at h
          exact ⟨r', ⟨_, ⟨(label, sub), pair_eq_ok_iff.mpr hfields, rfl⟩, h⟩, hrest⟩
        · rw [hnone] at he
          cases he

/-- The table of sub-labels is read exactly if all its rows can be, into the sub-labels they say. -/
theorem readSubLabels_eq_ok_iff {m : SubLabels} :
    readSubLabels files path store = .ok m ↔
      ∃ pairs, Says α files path "label" "subLabel" (subLabelOf? store) pairs ∧
        m = collected pairs := by
  rw [readSubLabels, Outcome.bind_eq_ok]
  simp only [Outcome.bind_eq_ok, Says]
  constructor
  · rintro ⟨rows, hrows, r, hr, h⟩
    split at h
    · next hempty =>
      cases h
      obtain ⟨-, pairs, hpairs, hm⟩ := foldlM_add_eq_ok_iff.mp ⟨r, hr, hempty, rfl⟩
      exact ⟨pairs, ⟨rows, hrows, hpairs⟩, hm⟩
    · cases h
  · rintro ⟨pairs, ⟨rows, hrows, hpairs⟩, rfl⟩
    obtain ⟨r, hr, hempty, hknown⟩ : ∃ r, rows.foldlM (fun r row =>
        (pair row : Except (Failure α) _) >>= fun e => .ok (SubLabelRows.add store r e.1 e.2))
        ⟨∅, ∅⟩ = .ok r ∧ r.unknown.isEmpty = true ∧ r.known = collected pairs :=
      foldlM_add_eq_ok_iff.mpr ⟨rfl, pairs, hpairs, rfl⟩
    refine ⟨rows, hrows, r, hr, ?_⟩
    rw [if_pos hempty, hknown]
    rfl

end PatternCardinality.Labels
