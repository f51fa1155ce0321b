import Mathlib.Data.List.Basic
import PatternCardinality.Ordered.Sorting

/-! Sorted lists, and lists compared by their first difference. -/

namespace PatternCardinality

section Sorted

variable {α : Type} {le : α → α → Bool}

theorem pairwise_placeBy (total : ∀ a b, le a b = true ∨ le b a = true)
    (trans : ∀ a b c, le a b = true → le b c = true → le a c = true) (a : α) {l : List α}
    (h : l.Pairwise (fun a b => le a b = true)) :
    (placeBy le a l).Pairwise (fun a b => le a b = true) := by
  induction l with
  | nil => exact List.pairwise_singleton _ a
  | cons b l ih =>
    obtain ⟨hb, hl⟩ := List.pairwise_cons.mp h
    rw [placeBy]
    split
    · next hab =>
      refine List.pairwise_cons.mpr ⟨fun c hc => ?_, h⟩
      rcases List.mem_cons.mp hc with rfl | hc
      · exact hab
      · exact trans a b c hab (hb c hc)
    · next hab =>
      refine List.pairwise_cons.mpr ⟨fun c hc => ?_, ih hl⟩
      rcases List.mem_cons.mp ((placeBy_perm le a l).mem_iff.mp hc) with rfl | hc
      · exact (total c b).resolve_left hab
      · exact hb c hc

theorem pairwise_sortBy (total : ∀ a b, le a b = true ∨ le b a = true)
    (trans : ∀ a b c, le a b = true → le b c = true → le a c = true) (l : List α) :
    (sortBy le l).Pairwise (fun a b => le a b = true) := by
  induction l with
  | nil => exact .nil
  | cons a l ih => exact pairwise_placeBy total trans a ih

theorem sortBy_eq_self {l : List α} (h : l.Pairwise (fun a b => le a b = true)) :
    sortBy le l = l := by
  induction l with
  | nil => rfl
  | cons a l ih =>
    obtain ⟨ha, hl⟩ := List.pairwise_cons.mp h
    rw [sortBy, ih hl]
    cases l with
    | nil => rfl
    | cons b l => exact if_pos (ha b List.mem_cons_self)

/-- What keeps the comparison keeps the order. -/
theorem sortBy_map {β : Type} {le' : β → β → Bool} {f : α → β}
    (h : ∀ a b, le' (f a) (f b) = le a b) (l : List α) :
    sortBy le' (l.map f) = (sortBy le l).map f := by
  have hplace : ∀ a l, placeBy le' (f a) (l.map f) = (placeBy le a l).map f := by
    intro a l
    induction l with
    | nil => rfl
    | cons b l ih =>
      rw [List.map_cons, placeBy, placeBy, h, ih]
      split <;> rfl
  induction l with
  | nil => rfl
  | cons a l ih => rw [List.map_cons, sortBy, sortBy, ih, hplace]

/-- Sorting a list without repetitions makes it strictly increasing. -/
theorem increasing_sortBy [Ord α] [Std.TransOrd α] [Std.LawfulEqOrd α] {l : List α}
    (h : l.Nodup) :
    (sortBy (fun a b => (compare a b).isLE) l).Pairwise (fun a b => compare a b = .lt) := by
  have htotal : ∀ a b : α, (compare a b).isLE = true ∨ (compare b a).isLE = true := by
    intro a b
    have hswap : compare b a = (compare a b).swap := Std.OrientedCmp.eq_swap
    rw [hswap]
    cases compare a b <;> simp
  have hsorted := pairwise_sortBy htotal (fun a b c => Std.TransCmp.isLE_trans) l
  have hnodup : (sortBy (fun a b => (compare a b).isLE) l).Nodup :=
    (sortBy_perm _ l).nodup_iff.mpr h
  refine hsorted.imp₂ (fun a b hle hne => ?_) hnodup
  cases hcompare : compare a b with
  | lt => rfl
  | eq => exact absurd (Std.LawfulEqOrd.eq_of_compare hcompare) hne
  | gt => simp [hcompare] at hle

end Sorted

section Lexicographic

variable {α β : Type} [Ord α] [Ord β]

theorem compare_cons_eq_lt {a b : α} {l m : List α} :
    compare (a :: l) (b :: m) = .lt ↔
      compare a b = .lt ∨ compare a b = .eq ∧ compare l m = .lt := by
  rw [List.compare_eq_compareLex, List.compareLex_cons_cons, ← List.compare_eq_compareLex,
    Ordering.then_eq_lt]

theorem compare_map_eq_lt [Std.LawfulEqOrd α] [Std.ReflOrd β] (f : α → β) {l m : List α}
    (hf : ∀ a ∈ l, ∀ b ∈ m, compare a b = .lt → compare (f a) (f b) = .lt)
    (h : compare l m = .lt) : compare (l.map f) (m.map f) = .lt := by
  induction l generalizing m with
  | nil => cases m <;> simp at h ⊢
  | cons a l ih =>
    cases m with
    | nil => simp at h
    | cons b m =>
      rw [List.map_cons, List.map_cons, compare_cons_eq_lt]
      rcases compare_cons_eq_lt.mp h with hab | ⟨hab, hlm⟩
      · exact Or.inl (hf a List.mem_cons_self b List.mem_cons_self hab)
      · rw [Std.LawfulEqOrd.eq_of_compare hab]
        refine Or.inr ⟨Std.ReflOrd.compare_self, ih (fun a ha b hb => ?_) hlm⟩
        exact hf a (List.mem_cons_of_mem _ ha) b (List.mem_cons_of_mem _ hb)

theorem compare_string_eq_lt {a b : String} : compare a b = .lt ↔ a < b := by
  change compareOfLessAndEq a b = .lt ↔ a < b
  rw [compareOfLessAndEq]
  split
  · simp_all
  · split <;> simp_all

theorem lt_of_compare_strings {l m : List String} (h : compare l m = .lt) : l < m := by
  induction l generalizing m with
  | nil => cases m <;> simp at h ⊢
  | cons a l ih =>
    cases m with
    | nil => simp at h
    | cons b m =>
      rw [List.cons_lt_cons_iff]
      rcases compare_cons_eq_lt.mp h with hab | ⟨hab, hlm⟩
      · exact Or.inl (compare_string_eq_lt.mp hab)
      · exact Or.inr ⟨Std.LawfulEqOrd.eq_of_compare hab, ih hlm⟩

end Lexicographic

end PatternCardinality
