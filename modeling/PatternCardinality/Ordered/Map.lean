import PatternCardinality.Ordered.Set

/-! Finite tables kept as lists of entries with strictly increasing keys, so that equal tables are
equal values. -/

namespace PatternCardinality

/-- A finite table: its entries by strictly increasing key. -/
structure OrderedMap (κ ν : Type) [Ord κ] where
  entries : List (κ × ν)
  increasing : entries.Pairwise (fun a b => compare a.1 b.1 = .lt)
  deriving DecidableEq

namespace OrderedMap

variable {κ ν : Type} [Ord κ]

def empty : OrderedMap κ ν := ⟨[], .nil⟩

instance : EmptyCollection (OrderedMap κ ν) := ⟨empty⟩

instance : Inhabited (OrderedMap κ ν) := ⟨empty⟩

def isEmpty (m : OrderedMap κ ν) : Bool := m.entries.isEmpty

def size (m : OrderedMap κ ν) : Nat := m.entries.length

def values (m : OrderedMap κ ν) : List ν := m.entries.map (·.2)

def keys (m : OrderedMap κ ν) : List κ := m.entries.map (·.1)

def keySet (m : OrderedMap κ ν) : OrderedSet κ :=
  ⟨m.entries.map (·.1), List.pairwise_map.mpr m.increasing⟩

/-- The first entry with the key, as an association list is read. -/
def lookup (k : κ) : List (κ × ν) → Option ν
  | [] => none
  | e :: rest => if compare k e.1 = .eq then some e.2 else lookup k rest

def get? (m : OrderedMap κ ν) (k : κ) : Option ν := lookup k m.entries

def getD (m : OrderedMap κ ν) (k : κ) (default : ν) : ν := (m.get? k).getD default

def contains (m : OrderedMap κ ν) (k : κ) : Bool := (m.get? k).isSome

def singleton (k : κ) (v : ν) : OrderedMap κ ν := ⟨[(k, v)], List.pairwise_singleton _ _⟩

def filter (p : κ → ν → Bool) (m : OrderedMap κ ν) : OrderedMap κ ν :=
  ⟨m.entries.filter (fun e => p e.1 e.2), m.increasing.filter _⟩

def erase (m : OrderedMap κ ν) (k : κ) : OrderedMap κ ν :=
  m.filter (fun j _ => compare k j != .eq)

def mapValues {ν' : Type} (f : κ → ν → ν') (m : OrderedMap κ ν) : OrderedMap κ ν' :=
  ⟨m.entries.map (fun e => (e.1, f e.1 e.2)), List.pairwise_map.mpr m.increasing⟩

/-- The table that gives every element of a set its value. -/
def tabulate (f : κ → ν) (s : OrderedSet κ) : OrderedMap κ ν :=
  ⟨s.toList.map (fun k => (k, f k)), List.pairwise_map.mpr s.increasing⟩

/-- The entries with `k` bound to `v`, where `k` stands already or belongs. -/
def place (k : κ) (v : ν) : List (κ × ν) → List (κ × ν)
  | [] => [(k, v)]
  | e :: rest =>
    match compare k e.1 with
    | .lt => (k, v) :: e :: rest
    | .eq => (k, v) :: rest
    | .gt => e :: place k v rest

theorem mem_of_mem_place {k : κ} {v : ν} {e : κ × ν} {l : List (κ × ν)} (h : e ∈ place k v l) :
    e = (k, v) ∨ e ∈ l := by
  induction l with
  | nil => exact Or.inl (List.mem_singleton.mp h)
  | cons d rest ih =>
    unfold place at h
    split at h
    · exact List.mem_cons.mp h
    · rcases List.mem_cons.mp h with h | h
      · exact Or.inl h
      · exact Or.inr (List.mem_cons_of_mem _ h)
    · rcases List.mem_cons.mp h with h | h
      · exact Or.inr (List.mem_cons.mpr (Or.inl h))
      · rcases ih h with h | h
        · exact Or.inl h
        · exact Or.inr (List.mem_cons_of_mem _ h)

theorem lookup_place [Std.LawfulEqOrd κ] [DecidableEq κ] (k j : κ) (v : ν) (l : List (κ × ν)) :
    lookup j (place k v l) = if j = k then some v else lookup j l := by
  induction l with
  | nil => simp [place, lookup]
  | cons d rest ih =>
    unfold place
    split
    · simp [lookup]
    · next h =>
      have h := Std.LawfulEqOrd.eq_of_compare h
      by_cases hj : j = k
      · simp [lookup, hj]
      · simp [lookup, hj, ← h]
    · next h =>
      by_cases hj : j = d.1
      · have hk : ¬ d.1 = k := fun hk => by simp [← hk] at h
        simp [lookup, hj, hk]
      · simp [lookup, hj, ih]

variable [Std.TransOrd κ]

theorem increasing_place {k : κ} {v : ν} {l : List (κ × ν)}
    (h : l.Pairwise (fun a b => compare a.1 b.1 = .lt)) :
    (place k v l).Pairwise (fun a b => compare a.1 b.1 = .lt) := by
  induction l with
  | nil => exact List.pairwise_singleton _ _
  | cons d rest ih =>
    have ⟨hd, hr⟩ := List.pairwise_cons.mp h
    unfold place
    split
    · next hk =>
      refine List.pairwise_cons.mpr ⟨fun e he => ?_, h⟩
      rcases List.mem_cons.mp he with rfl | he
      · exact hk
      · exact Std.TransCmp.lt_trans hk (hd e he)
    · next hk =>
      exact List.pairwise_cons.mpr ⟨fun e he => Std.TransCmp.lt_of_eq_of_lt hk (hd e he), hr⟩
    · next hk =>
      refine List.pairwise_cons.mpr ⟨fun e he => ?_, ih hr⟩
      rcases mem_of_mem_place he with rfl | he
      · exact Std.OrientedCmp.lt_of_gt hk
      · exact hd e he

def insert (m : OrderedMap κ ν) (k : κ) (v : ν) : OrderedMap κ ν :=
  ⟨place k v m.entries, increasing_place m.increasing⟩

/-- Later entries win over earlier ones with the same key. -/
def ofList (l : List (κ × ν)) : OrderedMap κ ν := l.foldl (fun m e => m.insert e.1 e.2) ∅

/-- The entries of the second table win. -/
def union (m n : OrderedMap κ ν) : OrderedMap κ ν :=
  n.entries.foldl (fun u e => u.insert e.1 e.2) m

theorem get?_insert [Std.LawfulEqOrd κ] [DecidableEq κ] (m : OrderedMap κ ν) (k j : κ) (v : ν) :
    (m.insert k v).get? j = if j = k then some v else m.get? j := lookup_place k j v m.entries

end OrderedMap

end PatternCardinality
