import PatternCardinality.Proofs.Number.Addition
import PatternCardinality.Proofs.Ordered.Map
import PatternCardinality.Proofs.Statistics.Transcript
import PatternCardinality.Proofs.Statistics.Written

/-! Statistics whose counts are not negative. The text of statistics may hold any number where a
count belongs, a negative one and what is not a number too, and the reader keeps it. So the counts
of what was read are as the text has them: none is negative if and only if none is in those records
that no later one replaces. -/

namespace PatternCardinality.Statistics

/-- The counts and shares of a property, without the quantiles, which may be negative. -/
def PropertySummary.counts (p : PropertySummary Float) : List Float :=
  p.count :: p.unique :: p.numeric :: p.frequent.values

/-- No count is negative, and each is a number. -/
structure Store.NonNegative (s : Store Float) : Prop where
  nodes : 0 ≤ s.nodeCount
  labels : ∀ x ∈ s.labelCounts.values, 0 ≤ x
  types : ∀ t ∈ s.typeTotals.values, ∀ x ∈ t.numbers, 0 ≤ x
  relationships : ∀ x ∈ s.relationshipCounts.values, 0 ≤ x
  labelProperties : ∀ p ∈ s.labelProperties.values, ∀ x ∈ p.counts, 0 ≤ x
  typeProperties : ∀ p ∈ s.typeProperties.values, ∀ x ∈ p.counts, 0 ≤ x

/-- What an entry is about. A later entry about the same replaces it. -/
inductive Slot where
  | label (id : LabelId)
  | type (id : TypeId)
  | property (name : String)
  | relationships (key : RelationshipKey)
  | labelProperty (key : PropertyKey)
  | typeProperty (key : PropertyKey)
  deriving DecidableEq

namespace Entry

variable {α : Type}

def slot : Entry α → Slot
  | label _ id _ => .label id
  | type _ id _ => .type id
  | property name _ => .property name
  | relationships key _ | addRelationships key _ => .relationships key
  | labelProperty key _ => .labelProperty key
  | typeProperty key _ => .typeProperty key

/-- An entry that sets what it is about and does not add to it. -/
def Sets : Entry α → Prop
  | addRelationships .. => False
  | _ => True

def counts : Entry Float → List Float
  | label _ _ count => [count]
  | type _ _ totals => totals.numbers
  | property _ _ => []
  | relationships _ count | addRelationships _ count => [count]
  | labelProperty _ p | typeProperty _ p => p.counts

end Entry

/-- An entry of a list that no later one replaces. -/
def InForce {α : Type} (entries : List (Entry α)) (e : Entry α) : Prop :=
  ∃ before after, entries = before ++ e :: after ∧ ∀ d ∈ after, d.slot ≠ e.slot

theorem inForce_cons {α : Type} {entries : List (Entry α)} {d e : Entry α} :
    InForce (d :: entries) e ↔
      InForce entries e ∨ d = e ∧ ∀ c ∈ entries, c.slot ≠ e.slot := by
  constructor
  · rintro ⟨before, after, hsplit, hafter⟩
    cases before with
    | nil =>
      obtain ⟨rfl, rfl⟩ := List.cons.inj hsplit
      exact .inr ⟨rfl, hafter⟩
    | cons c before => exact .inl ⟨before, after, (List.cons.inj hsplit).2, hafter⟩
  · rintro (⟨before, after, rfl, hafter⟩ | ⟨rfl, hentries⟩)
    · exact ⟨d :: before, after, rfl, hafter⟩
    · exact ⟨[], entries, rfl, hentries⟩

namespace Store

/-- The counts that a store has about something. -/
def countsAt (s : Store Float) : Slot → List Float
  | .label id => (s.labelCounts.get? id).elim [] ([·])
  | .type id => (s.typeTotals.get? id).elim [] TypeTotals.numbers
  | .property _ => []
  | .relationships key => (s.relationshipCounts.get? key).elim [] ([·])
  | .labelProperty key => (s.labelProperties.get? key).elim [] PropertySummary.counts
  | .typeProperty key => (s.typeProperties.get? key).elim [] PropertySummary.counts

/-- An entry sets the counts of what it is about, and no others. -/
theorem countsAt_enter (s : Store Float) {e : Entry Float} (h : e.Sets) (p : Slot) :
    (s.enter e).countsAt p = if p = e.slot then e.counts else s.countsAt p := by
  cases e
  case addRelationships => exact h.elim
  all_goals
    cases p <;> simp [enter, countsAt, Entry.slot, Entry.counts, OrderedMap.get?_insert]
  -- both are about the same kind, and the keys decide
  all_goals split <;> rfl

/-- Entries leave at each slot the counts of the last one about it. -/
theorem mem_countsAt_foldl {entries : List (Entry Float)} (h : ∀ e ∈ entries, e.Sets)
    (s : Store Float) (p : Slot) (x : Float) : x ∈ (entries.foldl enter s).countsAt p ↔
      (∃ e, InForce entries e ∧ e.slot = p ∧ x ∈ e.counts) ∨
        x ∈ s.countsAt p ∧ ∀ e ∈ entries, e.slot ≠ p := by
  induction entries generalizing s with
  | nil => simp [InForce]
  | cons d entries ih =>
    obtain ⟨hd, hentries⟩ := List.forall_mem_cons.mp h
    rw [List.foldl_cons, ih hentries, countsAt_enter s hd]
    simp only [inForce_cons, List.forall_mem_cons, or_and_right, and_assoc, exists_or,
      exists_eq_left']
    by_cases hslot : p = d.slot
    · subst hslot
      simp [and_comm]
    · have hne : d.slot ≠ p := Ne.symm hslot
      simp [hslot, hne]

theorem mem_countsAt_build {entries : List (Entry Float)} (h : ∀ e ∈ entries, e.Sets)
    (nodeCount : Float) (p : Slot) (x : Float) : x ∈ (build nodeCount entries).countsAt p ↔
      ∃ e, InForce entries e ∧ e.slot = p ∧ x ∈ e.counts := by
  have hempty : x ∉ (empty nodeCount).countsAt p := by
    cases p <;> simp [empty, countsAt]
  rw [build, mem_countsAt_foldl h, or_iff_left (fun hmem => hempty hmem.1)]

theorem nodeCount_build (nodeCount : Float) (entries : List (Entry Float)) :
    (build nodeCount entries).nodeCount = nodeCount := by
  refine List.foldlRecOn (motive := fun s : Store Float => s.nodeCount = nodeCount) entries enter
    rfl (fun s hs e _ => ?_)
  cases e <;> exact hs

/-- A store has no negative count if it has none at any slot. -/
theorem nonNegative_iff {s : Store Float} :
    s.NonNegative ↔ 0 ≤ s.nodeCount ∧ ∀ p, ∀ x ∈ s.countsAt p, 0 ≤ x := by
  have hsingle : ∀ {l : List Float}, (∀ x ∈ l, 0 ≤ x) ↔ ∀ v ∈ l, ∀ x ∈ [v], 0 ≤ x := by simp
  constructor
  · rintro ⟨hnodes, hlabels, htypes, hrelationships, hlabelProperties, htypeProperties⟩
    refine ⟨hnodes, fun p => ?_⟩
    cases p with
    | label id => exact OrderedMap.forall_mem_get?.mpr (hsingle.mp hlabels) id
    | type id => exact OrderedMap.forall_mem_get?.mpr htypes id
    | property name => simp [countsAt]
    | relationships key => exact OrderedMap.forall_mem_get?.mpr (hsingle.mp hrelationships) key
    | labelProperty key => exact OrderedMap.forall_mem_get?.mpr hlabelProperties key
    | typeProperty key => exact OrderedMap.forall_mem_get?.mpr htypeProperties key
  · rintro ⟨hnodes, hcounts⟩
    exact ⟨hnodes, hsingle.mpr (OrderedMap.forall_mem_get?.mp fun id => hcounts (.label id)),
      OrderedMap.forall_mem_get?.mp fun id => hcounts (.type id),
      hsingle.mpr (OrderedMap.forall_mem_get?.mp fun key => hcounts (.relationships key)),
      OrderedMap.forall_mem_get?.mp fun key => hcounts (.labelProperty key),
      OrderedMap.forall_mem_get?.mp fun key => hcounts (.typeProperty key)⟩

/-- In a store that is built, the entries in force decide. -/
theorem nonNegative_build_iff {entries : List (Entry Float)} (h : ∀ e ∈ entries, e.Sets)
    {nodeCount : Float} (hnodes : 0 ≤ nodeCount) : (build nodeCount entries).NonNegative ↔
      ∀ e, InForce entries e → ∀ x ∈ e.counts, 0 ≤ x := by
  rw [nonNegative_iff, nodeCount_build, and_iff_right hnodes]
  simp only [mem_countsAt_build h]
  constructor
  · intro hcounts e he x hx
    exact hcounts e.slot x ⟨e, he, rfl, hx⟩
  · rintro hcounts p x ⟨e, he, -, hx⟩
    exact hcounts e he x hx

end Store

theorem IsSection.forall_mem {β : Type} {heading : String} {record : List Char → β → Prop}
    {ls : List (List Char)} {xs : List β} {P : β → Prop} (h : IsSection heading record ls xs)
    (hrecord : ∀ l b, record l b → P b) : ∀ b ∈ xs, P b := by
  obtain ⟨-, -, records, -, -, -, hrecords⟩ := h
  induction hrecords with
  | nil => simp
  | cons hb _ ih => exact List.forall_mem_cons.mpr ⟨hrecord _ _ hb, ih⟩

/-- A text has no entries that add to others. -/
theorem Transcript.sets {ls : List (List Char)} {n : ℕ} {entries : List (Entry Float)}
    (h : Transcript ls n entries) : ∀ e ∈ entries, e.Sets := by
  obtain ⟨-, -, hlabels, htypes, hproperties, hrelationships, -, hlabelProperties,
    htypeProperties⟩ := h
  simp only [List.forall_mem_append]
  refine ⟨⟨⟨⟨⟨hlabels.forall_mem ?_, htypes.forall_mem ?_⟩, hproperties.forall_mem ?_⟩,
    hrelationships.forall_mem ?_⟩, hlabelProperties.forall_mem ?_⟩, htypeProperties.forall_mem ?_⟩
  · rintro l e ⟨-, id, count, -, -, rfl⟩
    trivial
  · rintro l e ⟨-, id, outgoing, incoming, paths, pairs, -, -, -, -, -, rfl⟩
    trivial
  · rintro l e ⟨-, id, -, rfl⟩
    trivial
  · rintro l e ⟨-, base, type, target, count, -, -, -, -, rfl⟩
    trivial
  · rintro l e ⟨s, -, rfl⟩
    trivial
  · rintro l e ⟨s, -, rfl⟩
    trivial

theorem IsCount.lt {l : List Char} {n : ℕ} (h : IsCount l n) : n < 2 ^ 64 := by
  rw [IsCount, Text.unsigned?.eq_def, Option.filter_eq_some_iff] at h
  exact Nat.lt_of_le_of_lt (of_decide_eq_true h.2) (by decide)

theorem Transcript.nodes_lt {ls : List (List Char)} {n : ℕ} {entries : List (Entry Float)}
    (h : Transcript ls n entries) : n < 2 ^ 64 := by
  obtain ⟨-, hcount, -⟩ := h
  exact hcount.lt

/-- A text is read if it begins with a transcript, whatever numbers this has. Then the number of
nodes is not negative, and no count is if none is in the entries in force. Any other text is at
fault at one of its lines, or behind the last one. -/
theorem read_nonNegative_iff (s : String) :
    (∀ b, read s = .ok b ↔ ∃ used rest n entries, lines s = used ++ rest ∧
      Transcript used n entries ∧ Store.build (Float.ofNat n) entries = b ∧ 0 ≤ b.nodeCount ∧
      (b.NonNegative ↔ ∀ e, InForce entries e → ∀ x ∈ e.counts, 0 ≤ x)) ∧
    ∀ e, read s = .error e → ∃ j fault, e = .badStatistics j fault ∧ 1 ≤ j ∧
      j ≤ (lines s).length + 1 := by
  constructor
  · intro b
    rw [read_eq_ok_iff]
    constructor
    · rintro ⟨used, rest, n, entries, hsplit, htranscript, rfl⟩
      have hnodes := (Double.unsigned_ofNat htranscript.nodes_lt).nonneg
      exact ⟨used, rest, n, entries, hsplit, htranscript, rfl,
        (Store.nodeCount_build _ entries).symm ▸ hnodes,
        Store.nonNegative_build_iff htranscript.sets hnodes⟩
    · rintro ⟨used, rest, n, entries, hsplit, htranscript, hbuild, -⟩
      exact ⟨used, rest, n, entries, hsplit, htranscript, hbuild⟩
  · intro e he
    rcases refuses_or_lacks_of_read he with ⟨used, rest, fault, hsplit, hrefuses, rfl⟩ | ⟨-, rfl⟩
    · refine ⟨used.length, fault, rfl, Reading.length_pos_of_refuses_store hrefuses, ?_⟩
      rw [hsplit, List.length_append]
      omega
    · exact ⟨_, _, rfl, Nat.le_add_left 1 _, le_rfl⟩

/-- Statistics with a label of which there are fewer nodes than none. -/
def overdrawn : String :=
  "# Nodes\n10\n# Node Labels\n1\nA\t0\t-5\n# Edge Types\n0\n# Node Properties\n0\n" ++
  "# Label/Type Combinations\n0\n# Type/Type Combinations\n0\n" ++
  "# Label/Property Combinations\n0\n# Type/Property Combinations\n0\n"

theorem labelCounts_overdrawn : ∃ b, read overdrawn = .ok b ∧ b.labelCounts.values = [-5] := by
  have hread : (read overdrawn).toOption.map (fun b => b.labelCounts.values) = some [-5] := by
    decide +kernel
  obtain ⟨b, hb, hvalues⟩ := Option.map_eq_some_iff.mp hread
  exact ⟨b, Outcome.toOption_eq_some.mp hb, hvalues⟩

theorem not_nonNegative_overdrawn {b : Store Float} (h : b.labelCounts.values = [-5]) :
    ¬b.NonNegative := by
  intro hcounts
  have hfive := hcounts.labels (-5) (by rw [h]; exact List.mem_singleton_self _)
  exact absurd hfive (by decide +kernel)

/-- A negative count is read, and it is the entry in force that has it. -/
theorem read_nonNegative_iff_overdrawn : ∃ b n entries, read overdrawn = .ok b ∧
    Store.build (Float.ofNat n) entries = b ∧ 0 ≤ b.nodeCount ∧
    ∃ e, InForce entries e ∧ ∃ x ∈ e.counts, ¬0 ≤ x := by
  obtain ⟨b, hb, hvalues⟩ := labelCounts_overdrawn
  obtain ⟨used, rest, n, entries, -, -, hbuild, hnodes, hiff⟩ :=
    ((read_nonNegative_iff overdrawn).1 b).mp hb
  have hforce := hiff.not.mp (not_nonNegative_overdrawn hvalues)
  push Not at hforce
  exact ⟨b, n, entries, hb, hbuild, hnodes, hforce⟩

/-- What is read may have a negative count. -/
theorem read_accepts_negative_count :
    ∃ b, read overdrawn = .ok b ∧ b.labelCounts.values = [-5] ∧ ¬b.NonNegative := by
  obtain ⟨b, hb, hvalues⟩ := labelCounts_overdrawn
  exact ⟨b, hb, hvalues, not_nonNegative_overdrawn hvalues⟩

end PatternCardinality.Statistics
