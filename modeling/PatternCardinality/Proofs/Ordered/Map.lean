import Mathlib.Data.List.Basic
import Mathlib.Data.List.Induction
import PatternCardinality.Ordered.Map
import PatternCardinality.Proofs.Ordered.Set

/-! Tables seen through their look-ups: what each operation does to them, and which entries a table
has. -/

namespace PatternCardinality.OrderedMap

variable {κ ν : Type} [Ord κ]

@[simp] theorem get?_empty (k : κ) : (∅ : OrderedMap κ ν).get? k = none := rfl

theorem contains_iff {m : OrderedMap κ ν} {k : κ} :
    m.contains k = true ↔ ∃ v, m.get? k = some v := by
  rw [contains, Option.isSome_iff_exists]

/-- Every entry of one table is one of the other. -/
def Within (m n : OrderedMap κ ν) : Prop := ∀ k v, m.get? k = some v → n.get? k = some v

theorem eq_of_entries {m n : OrderedMap κ ν} (h : m.entries = n.entries) : m = n := by
  cases m
  cases n
  cases h
  rfl

theorem mapValues_eq_self_iff {f : ν → ν} {m : OrderedMap κ ν} :
    m.mapValues (fun _ => f) = m ↔ ∀ v ∈ m.values, f v = v := by
  have hentries : m.mapValues (fun _ => f) = m ↔
      m.entries.map (fun e => (e.1, f e.2)) = m.entries.map id := by
    rw [List.map_id]
    exact ⟨congrArg entries, fun h => eq_of_entries h⟩
  rw [hentries, List.map_inj_left, values, List.forall_mem_map]
  refine forall₂_congr (fun e _ => ?_)
  simp [Prod.ext_iff]

theorem tabulate_congr {f g : κ → ν} {s : OrderedSet κ} (h : ∀ k ∈ s, f k = g k) :
    tabulate f s = tabulate g s := by
  refine eq_of_entries (List.map_congr_left (fun k hk => ?_))
  rw [h k hk]

section Entries

variable [Std.TransOrd κ]

/-- A key above all others is put behind them. -/
theorem place_of_lt {k : κ} {v : ν} {l : List (κ × ν)} (h : ∀ e ∈ l, compare e.1 k = .lt) :
    place k v l = l ++ [(k, v)] := by
  induction l with
  | nil => rfl
  | cons e l ih =>
    obtain ⟨he, hl⟩ := List.forall_mem_cons.mp h
    have hgt : compare k e.1 = .gt := Std.OrientedCmp.gt_of_lt he
    rw [place, hgt]
    simp [ih hl]

theorem entries_foldl_insert {l : List (κ × ν)} {m : OrderedMap κ ν}
    (h : (m.entries ++ l).Pairwise (fun a b => compare a.1 b.1 = .lt)) :
    (l.foldl (fun m e => m.insert e.1 e.2) m).entries = m.entries ++ l := by
  induction l generalizing m with
  | nil => simp
  | cons e l ih =>
    have hplace : (m.insert e.1 e.2).entries = m.entries ++ [e] := by
      refine place_of_lt (fun d hd => ?_)
      exact (List.pairwise_append.mp h).2.2 d hd e List.mem_cons_self
    rw [List.append_cons, ← hplace] at h
    rw [List.foldl_cons, ih h, hplace]
    simp

/-- A table is made of its own entries again, with other values too. -/
theorem ofList_map_entries {ν' : Type} (f : ν → ν') (m : OrderedMap κ ν) :
    ofList (m.entries.map (fun e => (e.1, f e.2))) = m.mapValues (fun _ => f) :=
  eq_of_entries (entries_foldl_insert (m := ∅) (m.mapValues (fun _ => f)).increasing)

end Entries

variable [Std.LawfulEqOrd κ]

private theorem mem_of_lookup {k : κ} {v : ν} {l : List (κ × ν)} (h : lookup k l = some v) :
    (k, v) ∈ l := by
  induction l with
  | nil => cases h
  | cons e l ih =>
    rw [lookup] at h
    split at h
    · next hk =>
      cases h
      rw [Std.LawfulEqOrd.eq_of_compare hk]
      exact List.mem_cons_self
    · exact List.mem_cons_of_mem _ (ih h)

private theorem lookup_of_mem {k : κ} {v : ν} {l : List (κ × ν)}
    (hl : l.Pairwise (fun a b => compare a.1 b.1 = .lt)) (h : (k, v) ∈ l) :
    lookup k l = some v := by
  induction l with
  | nil => cases h
  | cons e l ih =>
    obtain ⟨he, hl⟩ := List.pairwise_cons.mp hl
    rw [lookup]
    rcases List.mem_cons.mp h with rfl | h
    · simp
    · have hlt := he _ h
      have hne : ¬compare k e.1 = .eq := by
        intro heq
        rw [Std.LawfulEqOrd.eq_of_compare heq] at hlt
        simp at hlt
      rw [if_neg hne]
      exact ih hl h

theorem mem_entries_iff {m : OrderedMap κ ν} {k : κ} {v : ν} :
    (k, v) ∈ m.entries ↔ m.get? k = some v :=
  ⟨lookup_of_mem m.increasing, mem_of_lookup⟩

/-- What holds of the parts of all values holds of those under each key. -/
theorem forall_mem_get? {β : Type} {m : OrderedMap κ ν} {f : ν → List β} {P : β → Prop} :
    (∀ k, ∀ x ∈ (m.get? k).elim [] f, P x) ↔ ∀ v ∈ m.values, ∀ x ∈ f v, P x := by
  constructor
  · intro h v hv
    obtain ⟨e, he, rfl⟩ := List.mem_map.mp hv
    have hget := mem_entries_iff.mp (show (e.1, e.2) ∈ m.entries from he)
    have hk := h e.1
    rwa [hget] at hk
  · intro h k
    cases hget : m.get? k with
    | none => simp
    | some v => exact h v (List.mem_map_of_mem (mem_entries_iff.mpr hget))

theorem mem_keys_iff {m : OrderedMap κ ν} {k : κ} : k ∈ m.keys ↔ m.contains k = true := by
  simp only [keys, List.mem_map, Prod.exists, mem_entries_iff, contains_iff]
  constructor
  · rintro ⟨j, v, hv, rfl⟩
    exact ⟨v, hv⟩
  · rintro ⟨v, hv⟩
    exact ⟨k, v, hv, rfl⟩

theorem mem_keySet {m : OrderedMap κ ν} {k : κ} : k ∈ m.keySet ↔ m.contains k = true := mem_keys_iff

theorem isEmpty_iff {m : OrderedMap κ ν} : m.isEmpty = true ↔ ∀ k, m.get? k = none := by
  rw [isEmpty, List.isEmpty_iff]
  constructor
  · intro h k
    rw [get?, h, lookup]
  · intro h
    refine List.eq_nil_iff_forall_not_mem.mpr (fun e he => ?_)
    have hsome := mem_entries_iff.mp (show (e.1, e.2) ∈ m.entries from he)
    rw [h] at hsome
    cases hsome

theorem get?_filter {p : κ → ν → Bool} {m : OrderedMap κ ν} {k : κ} :
    (m.filter p).get? k = (m.get? k).filter (p k) := by
  apply Option.ext
  intro v
  rw [← mem_entries_iff, Option.filter_eq_some_iff, ← mem_entries_iff]
  exact List.mem_filter

/-- Filtering by keys keeps the entries of the keys that pass. -/
theorem get?_filter_key {p : κ → Prop} [DecidablePred p] {m : OrderedMap κ ν} {k : κ} :
    (m.filter (fun k _ => decide (p k))).get? k = if p k then m.get? k else none := by
  rw [get?_filter]
  cases m.get? k <;> by_cases h : p k <;> simp [h]

theorem get?_mapValues {ν' : Type} {f : κ → ν → ν'} {m : OrderedMap κ ν} {k : κ} :
    (m.mapValues f).get? k = (m.get? k).map (f k) := by
  apply Option.ext
  intro v
  rw [← mem_entries_iff, Option.map_eq_some_iff]
  simp only [mapValues, List.mem_map, Prod.mk.injEq, Prod.exists, mem_entries_iff]
  constructor
  · rintro ⟨j, w, hw, rfl, rfl⟩
    exact ⟨w, hw, rfl⟩
  · rintro ⟨w, hw, rfl⟩
    exact ⟨k, w, hw, rfl, rfl⟩

theorem get?_singleton [DecidableEq κ] {k j : κ} {v : ν} :
    (singleton k v).get? j = if j = k then some v else none := by
  simp [singleton, get?, lookup]

theorem eq_of_get?_singleton [DecidableEq κ] {k j : κ} {v w : ν}
    (h : (singleton k v).get? j = some w) : j = k ∧ w = v := by
  rw [get?_singleton] at h
  split at h
  · next hk => exact ⟨hk, (Option.some_inj.mp h).symm⟩
  · cases h

theorem contains_singleton [DecidableEq κ] {k j : κ} {v : ν} :
    (singleton k v).contains j = true ↔ j = k := by
  rw [contains, get?_singleton]
  split <;> simp [*]

/-- Tables with the same look-ups are equal. -/
theorem ext [Std.TransOrd κ] {m n : OrderedMap κ ν} (h : ∀ k, m.get? k = n.get? k) : m = n := by
  refine eq_of_entries (OrderedSet.eq_of_increasing Prod.fst m.increasing n.increasing ?_)
  intro e
  rw [← Prod.eta e, mem_entries_iff, mem_entries_iff, h]

namespace Within

variable {m n : OrderedMap κ ν}

theorem isEmpty_eq (h : m.Within n) (hm : m.isEmpty = false) : n.isEmpty = false := by
  by_contra hn
  have hnone := isEmpty_iff.mp (Bool.not_eq_false _ ▸ hn)
  have hempty : m.isEmpty = true := by
    refine isEmpty_iff.mpr (fun k => Option.eq_none_iff_forall_ne_some.mpr (fun v hv => ?_))
    have hv := h k v hv
    rw [hnone k] at hv
    cases hv
  rw [hm] at hempty
  cases hempty

theorem size_le [Std.TransOrd κ] (h : m.Within n) : m.size ≤ n.size := by
  have hsub : m.entries ⊆ n.entries :=
    fun e he => mem_entries_iff.mpr (h e.1 e.2 (mem_entries_iff.mp he))
  have hnodup := OrderedSet.nodup_of_increasing Prod.fst m.increasing
  exact (List.subperm_of_subset hnodup hsub).length_le

theorem insert [Std.TransOrd κ] [DecidableEq κ] {k : κ} (h : m.get? k = none) (v : ν) :
    m.Within (m.insert k v) := by
  intro j w hj
  have hne : j ≠ k := by
    rintro rfl
    rw [h] at hj
    cases hj
  rw [get?_insert, if_neg hne]
  exact hj

end Within

variable [DecidableEq κ]

theorem get?_tabulate {f : κ → ν} {s : OrderedSet κ} {k : κ} :
    (tabulate f s).get? k = if k ∈ s then some (f k) else none := by
  apply Option.ext
  intro v
  rw [← mem_entries_iff]
  simp only [tabulate, List.mem_map, Prod.mk.injEq]
  constructor
  · rintro ⟨j, hj, rfl, rfl⟩
    exact if_pos hj
  · intro h
    split at h
    · next hk =>
      cases h
      exact ⟨k, hk, rfl, rfl⟩
    · cases h

theorem get?_erase {m : OrderedMap κ ν} {k j : κ} :
    (m.erase k).get? j = if j = k then none else m.get? j := by
  rw [erase, get?_filter]
  by_cases h : j = k
  · cases hm : m.get? j <;> simp [h]
  · have hne : ¬compare k j = .eq := fun heq => h (Std.LawfulEqOrd.eq_of_compare heq).symm
    cases hm : m.get? j <;> simp [h, hne]

theorem contains_erase {m : OrderedMap κ ν} {k j : κ} :
    (m.erase k).contains j = true ↔ j ≠ k ∧ m.contains j = true := by
  simp only [contains, get?_erase]
  split <;> simp_all

variable [Std.TransOrd κ]

theorem contains_insert {m : OrderedMap κ ν} {k j : κ} {v : ν} :
    (m.insert k v).contains j = true ↔ j = k ∨ m.contains j = true := by
  simp only [contains, get?_insert]
  split <;> simp_all

theorem contains_foldl_insert {β : Type} (l : List β) (key : β → κ) (value : OrderedMap κ ν → β → ν)
    (m : OrderedMap κ ν) (k : κ) :
    (l.foldl (fun m b => m.insert (key b) (value m b)) m).contains k = true ↔
      k ∈ l.map key ∨ m.contains k = true := by
  induction l generalizing m with
  | nil => simp
  | cons b l ih =>
    rw [List.foldl_cons, ih, contains_insert, List.map_cons, List.mem_cons]
    tauto

theorem contains_ofList {l : List (κ × ν)} {k : κ} :
    (ofList l).contains k = true ↔ k ∈ l.map Prod.fst := by
  rw [ofList, contains_foldl_insert l Prod.fst (fun _ e => e.2)]
  exact or_iff_left (by simp [contains])

theorem contains_union {m n : OrderedMap κ ν} {k : κ} :
    (m.union n).contains k = true ↔ m.contains k = true ∨ n.contains k = true := by
  rw [union, contains_foldl_insert n.entries Prod.fst (fun _ e => e.2), or_comm]
  exact or_congr_right mem_keys_iff

theorem keySet_insert (m : OrderedMap κ ν) (k : κ) (v : ν) :
    (m.insert k v).keySet = m.keySet.insert k := by
  refine OrderedSet.ext (fun j => ?_)
  rw [mem_keySet, contains_insert, OrderedSet.mem_insert, mem_keySet]

theorem keySet_erase (m : OrderedMap κ ν) (k : κ) : (m.erase k).keySet = m.keySet.erase k := by
  refine OrderedSet.ext (fun j => ?_)
  rw [mem_keySet, contains_erase, OrderedSet.mem_erase, mem_keySet, and_comm]

/-- Insertions that agree at a key leave their value there. -/
theorem get?_foldl_insert {β : Type} {l : List β} {key : β → κ} {value : β → ν} {k : κ}
    {v : Option ν} (h : ∀ b ∈ l, key b = k → some (value b) = v) (m : OrderedMap κ ν) :
    (l.foldl (fun m b => m.insert (key b) (value b)) m).get? k =
      if k ∈ l.map key then v else m.get? k := by
  induction l generalizing m with
  | nil => rfl
  | cons b l ih =>
    rw [List.foldl_cons, ih (fun d hd => h d (List.mem_cons_of_mem _ hd)), get?_insert]
    simp only [List.map_cons, List.mem_cons]
    by_cases hk : k = key b
    · rw [if_pos hk, h b List.mem_cons_self hk.symm, ite_self]
      exact (if_pos (Or.inl hk)).symm
    · simp only [hk, false_or, if_false]

/-- Of the values that were put under a key, a table has the last. -/
theorem get?_ofList (l : List (κ × ν)) (k : κ) :
    (ofList l).get? k = ((l.filter (fun e => e.1 = k)).getLast?).map Prod.snd := by
  induction l using List.reverseRecOn with
  | nil => rfl
  | append_singleton l e ih =>
    have hinsert : ofList (l ++ [e]) = (ofList l).insert e.1 e.2 := List.foldl_append
    rw [hinsert, get?_insert, List.filter_append, ih]
    by_cases h : e.1 = k
    · simp [h]
    · simp [h, Ne.symm h]

/-- What is found in a table was put there. -/
theorem mem_of_get?_ofList {l : List (κ × ν)} {k : κ} {v : ν} (h : (ofList l).get? k = some v) :
    (k, v) ∈ l := by
  rw [get?_ofList] at h
  obtain ⟨e, he, rfl⟩ := Option.map_eq_some_iff.mp h
  obtain ⟨hmem, hk⟩ := List.mem_filter.mp (List.mem_of_getLast? he)
  exact of_decide_eq_true hk ▸ hmem

/-- A table made of values that some of the members of a list have, under keys that tell members
with different values apart. -/
theorem get?_ofList_filterMap {ρ : Type} {l : List ρ} (key : ρ → κ) {value? : ρ → Option ν} {r : ρ}
    (hr : r ∈ l) (h : ∀ s ∈ l, key s = key r → value? s = value? r) :
    (ofList (l.filterMap (fun s => (value? s).map (fun v => (key s, v))))).get? (key r) =
      value? r := by
  cases hget : (ofList (l.filterMap (fun s => (value? s).map (fun v => (key s, v))))).get? (key r)
    with
  | some v =>
    obtain ⟨s, hs, hv⟩ := List.mem_filterMap.mp (mem_of_get?_ofList hget)
    obtain ⟨w, hw, heq⟩ := Option.map_eq_some_iff.mp hv
    obtain ⟨hkey, rfl⟩ := Prod.mk.inj heq
    rw [← h s hs hkey, hw]
  | none =>
    cases hv : value? r with
    | none => rfl
    | some v =>
      have hentry : (key r, v) ∈ l.filterMap (fun s => (value? s).map (fun v => (key s, v))) :=
        List.mem_filterMap.mpr ⟨r, hr, by rw [hv]; rfl⟩
      have hcontains := contains_ofList.mpr (List.mem_map_of_mem (f := Prod.fst) hentry)
      simp [contains, hget] at hcontains

/-- The entries of a table are inserted under their keys, with values made of theirs. -/
theorem get?_foldl_entries {ν' : Type} (f : κ → ν → ν') (m : OrderedMap κ ν') (n : OrderedMap κ ν)
    (k : κ) : (n.entries.foldl (fun m e => m.insert e.1 (f e.1 e.2)) m).get? k =
      ((n.get? k).map (f k)).or (m.get? k) := by
  have hvalue : ∀ e ∈ n.entries, e.1 = k → some (f e.1 e.2) = (n.get? k).map (f k) := by
    rintro ⟨j, w⟩ he rfl
    rw [mem_entries_iff.mp he]
    rfl
  have hkey : k ∈ n.entries.map Prod.fst ↔ (n.get? k).isSome = true := mem_keys_iff
  rw [get?_foldl_insert hvalue]
  simp only [hkey]
  cases n.get? k <;> rfl

theorem get?_union {m n : OrderedMap κ ν} {k : κ} :
    (m.union n).get? k = (n.get? k).or (m.get? k) := by
  rw [union, get?_foldl_entries (fun _ v => v)]
  simp

theorem insert_insert (m : OrderedMap κ ν) (k : κ) (v w : ν) :
    (m.insert k v).insert k w = m.insert k w := by
  refine ext (fun j => ?_)
  rw [get?_insert, get?_insert, get?_insert]
  split <;> rfl

theorem insert_eq_self {m : OrderedMap κ ν} {k : κ} {v : ν} (h : m.get? k = some v) :
    m.insert k v = m := by
  refine ext (fun j => ?_)
  rw [get?_insert]
  split
  · next hj => rw [hj, h]
  · rfl

/-- Of tables without a common key neither overwrites the other. -/
theorem union_comm {m n : OrderedMap κ ν} (h : ∀ k, m.contains k = true → n.contains k = false) :
    m.union n = n.union m := by
  refine ext (fun k => ?_)
  have hk := h k
  rw [contains, contains] at hk
  rw [get?_union, get?_union]
  cases hm : m.get? k with
  | none => cases n.get? k <;> rfl
  | some x =>
    cases hn : n.get? k with
    | none => rfl
    | some y => simp [hm, hn] at hk

section Values

variable {ν' : Type} (f : ν → ν')

omit [Std.LawfulEqOrd κ] [DecidableEq κ] [Std.TransOrd κ] in
theorem mapValues_tabulate (g : κ → ν) (s : OrderedSet κ) :
    (tabulate g s).mapValues (fun _ => f) = tabulate (fun k => f (g k)) s :=
  eq_of_entries (List.map_map ..)

omit [Std.LawfulEqOrd κ] [DecidableEq κ] [Std.TransOrd κ] in
theorem keys_mapValues (m : OrderedMap κ ν) : (m.mapValues (fun _ => f)).keys = m.keys :=
  List.map_map ..

theorem mapValues_insert (m : OrderedMap κ ν) (k : κ) (v : ν) :
    (m.insert k v).mapValues (fun _ => f) = (m.mapValues (fun _ => f)).insert k (f v) := by
  refine ext (fun j => ?_)
  rw [get?_mapValues, get?_insert, get?_insert, get?_mapValues, apply_ite (Option.map f)]
  rfl

omit [DecidableEq κ] [Std.LawfulEqOrd κ] [Std.TransOrd κ] in
theorem mapValues_erase (m : OrderedMap κ ν) (k : κ) :
    (m.erase k).mapValues (fun _ => f) = (m.mapValues (fun _ => f)).erase k := by
  refine eq_of_entries ?_
  simp only [erase, filter, mapValues, List.filter_map]
  rfl

/-- Entries put into a table one after the other, with other values all through. -/
theorem mapValues_foldl_entries {ν₀ ν₀' : Type} (g : ν₀ → ν₀') {m : OrderedMap κ ν}
    {n : OrderedMap κ ν₀} {value : OrderedMap κ ν → κ × ν₀ → ν}
    {value' : OrderedMap κ ν' → κ × ν₀' → ν'}
    (h : ∀ m e, value' (m.mapValues (fun _ => f)) (e.1, g e.2) = f (value m e)) :
    (n.mapValues (fun _ => g)).entries.foldl (fun m e => m.insert e.1 (value' m e))
        (m.mapValues (fun _ => f)) =
      (n.entries.foldl (fun m e => m.insert e.1 (value m e)) m).mapValues (fun _ => f) := by
  have hentries : (n.mapValues (fun _ => g)).entries = n.entries.map (fun e => (e.1, g e.2)) := rfl
  rw [hentries, List.foldl_map]
  refine List.foldl_hom (fun m : OrderedMap κ ν => m.mapValues (fun _ => f)) (fun m e => ?_)
  rw [h, mapValues_insert]

end Values

end PatternCardinality.OrderedMap
