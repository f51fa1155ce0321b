/-! Finite sets kept as strictly increasing lists, so that equal sets are equal values. -/

namespace PatternCardinality

/-- A finite set: the strictly increasing list of its elements. -/
structure OrderedSet (κ : Type) [Ord κ] where
  toList : List κ
  increasing : toList.Pairwise (fun a b => compare a b = .lt)
  deriving DecidableEq

namespace OrderedSet

variable {κ : Type} [Ord κ]

def empty : OrderedSet κ := ⟨[], .nil⟩

instance : EmptyCollection (OrderedSet κ) := ⟨empty⟩

instance : Inhabited (OrderedSet κ) := ⟨empty⟩

instance : Membership κ (OrderedSet κ) := ⟨fun s a => a ∈ s.toList⟩

theorem mem_toList {s : OrderedSet κ} {a : κ} : a ∈ s ↔ a ∈ s.toList := Iff.rfl

instance [DecidableEq κ] (a : κ) (s : OrderedSet κ) : Decidable (a ∈ s) :=
  inferInstanceAs (Decidable (a ∈ s.toList))

def isEmpty (s : OrderedSet κ) : Bool := s.toList.isEmpty

def size (s : OrderedSet κ) : Nat := s.toList.length

def least? (s : OrderedSet κ) : Option κ := s.toList.head?

def singleton (a : κ) : OrderedSet κ := ⟨[a], List.pairwise_singleton _ a⟩

def filter (p : κ → Bool) (s : OrderedSet κ) : OrderedSet κ :=
  ⟨s.toList.filter p, s.increasing.filter p⟩

theorem mem_filter {p : κ → Bool} {s : OrderedSet κ} {a : κ} :
    a ∈ s.filter p ↔ a ∈ s ∧ p a = true := List.mem_filter

def erase (a : κ) (s : OrderedSet κ) : OrderedSet κ := s.filter (fun b => compare a b != .eq)

theorem mem_erase [Std.LawfulEqOrd κ] {a x : κ} {s : OrderedSet κ} :
    x ∈ s.erase a ↔ x ∈ s ∧ x ≠ a := by
  simp only [erase, mem_filter, bne_iff_ne, ne_eq, Std.compare_eq_iff_eq]
  exact ⟨fun h => ⟨h.1, fun e => h.2 e.symm⟩, fun h => ⟨h.1, fun e => h.2 e.symm⟩⟩

/-- The place of `a` in an increasing list, where it stands already or is put. -/
def place (a : κ) : List κ → List κ
  | [] => [a]
  | b :: rest =>
    match compare a b with
    | .lt => a :: b :: rest
    | .eq => b :: rest
    | .gt => b :: place a rest

theorem mem_of_mem_place {a x : κ} {l : List κ} (h : x ∈ place a l) : x = a ∨ x ∈ l := by
  induction l with
  | nil => exact Or.inl (List.mem_singleton.mp h)
  | cons b rest ih =>
    unfold place at h
    split at h
    · exact List.mem_cons.mp h
    · exact Or.inr h
    · rcases List.mem_cons.mp h with h | h
      · exact Or.inr (List.mem_cons.mpr (Or.inl h))
      · rcases ih h with h | h
        · exact Or.inl h
        · exact Or.inr (List.mem_cons_of_mem _ h)

theorem mem_place_of_mem {a x : κ} {l : List κ} (h : x ∈ l) : x ∈ place a l := by
  induction l with
  | nil => cases h
  | cons b rest ih =>
    unfold place
    split
    · exact List.mem_cons_of_mem _ h
    · exact h
    · rcases List.mem_cons.mp h with h | h
      · exact List.mem_cons.mpr (Or.inl h)
      · exact List.mem_cons_of_mem _ (ih h)

theorem mem_place_self [Std.LawfulEqOrd κ] (a : κ) (l : List κ) : a ∈ place a l := by
  induction l with
  | nil => exact List.mem_singleton.mpr rfl
  | cons b rest ih =>
    unfold place
    split
    · exact List.mem_cons_self
    · next h => exact (Std.LawfulEqOrd.eq_of_compare h) ▸ List.mem_cons_self
    · exact List.mem_cons_of_mem _ ih

variable [Std.TransOrd κ]

theorem increasing_place {a : κ} {l : List κ} (h : l.Pairwise (fun a b => compare a b = .lt)) :
    (place a l).Pairwise (fun a b => compare a b = .lt) := by
  induction l with
  | nil => exact List.pairwise_singleton _ a
  | cons b rest ih =>
    have ⟨hb, hr⟩ := List.pairwise_cons.mp h
    unfold place
    split
    · next hab =>
      refine List.pairwise_cons.mpr ⟨fun c hc => ?_, h⟩
      rcases List.mem_cons.mp hc with rfl | hc
      · exact hab
      · exact Std.TransCmp.lt_trans hab (hb c hc)
    · exact h
    · next hab =>
      refine List.pairwise_cons.mpr ⟨fun c hc => ?_, ih hr⟩
      rcases mem_of_mem_place hc with rfl | hc
      · exact Std.OrientedCmp.lt_of_gt hab
      · exact hb c hc

def insert (a : κ) (s : OrderedSet κ) : OrderedSet κ :=
  ⟨place a s.toList, increasing_place s.increasing⟩

theorem mem_insert [Std.LawfulEqOrd κ] {a x : κ} {s : OrderedSet κ} :
    x ∈ s.insert a ↔ x = a ∨ x ∈ s :=
  ⟨mem_of_mem_place, fun h => h.elim (fun h => h ▸ mem_place_self a s.toList) mem_place_of_mem⟩

def ofList (l : List κ) : OrderedSet κ := l.foldl (fun s a => s.insert a) ∅

def union (s t : OrderedSet κ) : OrderedSet κ := t.toList.foldl (fun u a => u.insert a) s

theorem mem_foldl_insert [Std.LawfulEqOrd κ] {x : κ} {l : List κ} {s : OrderedSet κ} :
    x ∈ l.foldl (fun u a => u.insert a) s ↔ x ∈ s ∨ x ∈ l := by
  induction l generalizing s with
  | nil => simp
  | cons a l ih =>
    rw [List.foldl_cons, ih, mem_insert, List.mem_cons]
    exact ⟨fun h => by rcases h with (h | h) | h <;> simp [h],
      fun h => by rcases h with h | h | h <;> simp [h]⟩

theorem mem_ofList [Std.LawfulEqOrd κ] {x : κ} {l : List κ} : x ∈ ofList l ↔ x ∈ l := by
  rw [ofList, mem_foldl_insert]
  exact or_iff_right (List.not_mem_nil)

theorem mem_union [Std.LawfulEqOrd κ] {x : κ} {s t : OrderedSet κ} :
    x ∈ s.union t ↔ x ∈ s ∨ x ∈ t := mem_foldl_insert

end OrderedSet

end PatternCardinality
