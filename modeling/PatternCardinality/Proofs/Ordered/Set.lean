import Mathlib.Data.List.Nodup
import Mathlib.Data.List.Perm.Basic
import PatternCardinality.Ordered.Set

/-! Sets seen through their members: equal members make equal sets, and none is counted twice. -/

namespace PatternCardinality.OrderedSet

variable {κ β : Type} [Ord κ]

@[simp] theorem not_mem_empty (a : κ) : a ∉ (∅ : OrderedSet κ) := List.not_mem_nil

theorem mem_singleton {a b : κ} : a ∈ singleton b ↔ a = b := List.mem_singleton

theorem isEmpty_iff {s : OrderedSet κ} : s.isEmpty = true ↔ ∀ a, a ∉ s :=
  List.isEmpty_iff.trans List.eq_nil_iff_forall_not_mem

variable [Std.TransOrd κ]

theorem nodup_of_increasing (key : β → κ) {l : List β}
    (h : l.Pairwise (fun a b => compare (key a) (key b) = .lt)) : l.Nodup := by
  refine h.imp (fun {a b} hlt heq => ?_)
  rw [heq, Std.compare_self] at hlt
  cases hlt

/-- Lists with increasing keys and the same members are equal. -/
theorem eq_of_increasing (key : β → κ) {l m : List β}
    (hl : l.Pairwise (fun a b => compare (key a) (key b) = .lt))
    (hm : m.Pairwise (fun a b => compare (key a) (key b) = .lt)) (h : ∀ a, a ∈ l ↔ a ∈ m) :
    l = m := by
  have hperm : l.Perm m :=
    (List.perm_ext_iff_of_nodup (nodup_of_increasing key hl) (nodup_of_increasing key hm)).mpr h
  refine hperm.eq_of_pairwise (fun a b _ _ hab hba => ?_) hl hm
  exact absurd hba (Std.OrientedCmp.not_lt_of_lt hab)

theorem nodup_toList (s : OrderedSet κ) : s.toList.Nodup := nodup_of_increasing id s.increasing

theorem ext {s t : OrderedSet κ} (h : ∀ a, a ∈ s ↔ a ∈ t) : s = t := by
  obtain ⟨l, hl⟩ := s
  obtain ⟨m, hm⟩ := t
  have hlist : l = m := eq_of_increasing id hl hm h
  subst hlist
  rfl

/-- A set that is made of its own elements is the same. -/
theorem ofList_toList [Std.LawfulEqOrd κ] (s : OrderedSet κ) : ofList s.toList = s :=
  ext (fun _ => mem_ofList)

theorem insert_perm [Std.LawfulEqOrd κ] {s : OrderedSet κ} {a : κ} (h : a ∉ s) :
    (s.insert a).toList.Perm (a :: s.toList) := by
  refine (List.perm_ext_iff_of_nodup (nodup_toList _) (List.nodup_cons.mpr ⟨h, nodup_toList s⟩)).mpr
    (fun b => ?_)
  rw [List.mem_cons]
  exact mem_insert

theorem size_insert [Std.LawfulEqOrd κ] {s : OrderedSet κ} {a : κ} (h : a ∉ s) :
    (s.insert a).size = s.size + 1 := (insert_perm h).length_eq

/-- A set of the same size that holds all members is the set. -/
theorem eq_of_subset {s t : OrderedSet κ} (hsub : ∀ a ∈ s, a ∈ t) (hsize : t.size ≤ s.size) :
    s = t := by
  have hperm : s.toList.Perm t.toList :=
    (List.subperm_of_subset (nodup_toList s) hsub).perm_of_length_le hsize
  exact ext (fun a => hperm.mem_iff)

theorem mem_foldl_union [Std.LawfulEqOrd κ] {f : β → OrderedSet κ} {l : List β} {s : OrderedSet κ}
    {a : κ} : a ∈ l.foldl (fun s b => s.union (f b)) s ↔ a ∈ s ∨ ∃ b ∈ l, a ∈ f b := by
  induction l generalizing s with
  | nil => simp
  | cons b l ih =>
    rw [List.foldl_cons, ih, mem_union]
    simp [or_assoc]

end PatternCardinality.OrderedSet
