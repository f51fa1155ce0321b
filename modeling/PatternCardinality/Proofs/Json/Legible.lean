import PatternCardinality.Proofs.Json.Scanning

/-!
# Values that are read back

A value on one line is read back if each number in it is read back where it stands alone. Infinities
and what is no number are not: null is written for them.
-/

namespace PatternCardinality.Json

open Decimal

/-- The value is what is read from its own text. -/
def Survives (j : Json) : Prop := read? j.oneLine = some j

mutual

/-- Every number in the value survives, and everything else has a value. -/
def Legible : Json → Prop
  | int n => Survives (int n)
  | float x => Survives (float x)
  | hugeNumber => False
  | brokenText => False
  | array items => LegibleItems items
  | object members => LegibleMembers members
  | _ => True

def LegibleItems : List Json → Prop
  | [] => True
  | j :: rest => Legible j ∧ LegibleItems rest

def LegibleMembers : List (String × Json) → Prop
  | [] => True
  | m :: rest => Legible m.2 ∧ LegibleMembers rest

end

theorem legibleItems_iff {items : List Json} : LegibleItems items ↔ ∀ j ∈ items, Legible j := by
  induction items with
  | nil => simp [LegibleItems]
  | cons j items ih => simp [LegibleItems, ih]

theorem legibleMembers_iff {members : List (String × Json)} :
    LegibleMembers members ↔ ∀ m ∈ members, Legible m.2 := by
  induction members with
  | nil => simp [LegibleMembers]
  | cons m members ih => simp [LegibleMembers, ih]

section Numbers

variable {s r rest : List Char} {fuel : Nat} {j : Json}

/-- The value is a number with a value of its own. -/
def IsNumber : Json → Prop
  | int _ => True
  | float _ => True
  | _ => False

theorem skipSpace_of_head (h : ∀ c ∈ s.head?, isSpace c = false) : skipSpace s = s := by
  cases s with
  | nil => rfl
  | cons c s => simp [skipSpace, h c rfl]

theorem Unspaced.skipSpace_eq (h : Unspaced s) : skipSpace s = s :=
  skipSpace_of_head (fun c hc => h c (List.mem_of_mem_head? hc))

/-- Only the reader of numbers ends with a number. -/
theorem number?_of_value? (hj : j.IsNumber)
    (h : value? Literal.scaled (fuel + 1) s = some (j, r)) :
    number? Literal.scaled (skipSpace s) = some (j, r) := by
  rw [value?] at h
  split at h
  · split at h
    · cases h
      exact hj.elim
    · obtain ⟨p, -, heq⟩ := Option.map_eq_some_iff.mp h
      cases heq
      exact hj.elim
  · split at h
    · cases h
      exact hj.elim
    · obtain ⟨⟨members, _⟩, -, heq⟩ := Option.map_eq_some_iff.mp h
      cases members <;> cases heq <;> exact hj.elim
  · obtain ⟨⟨chars, _⟩, -, heq⟩ := Option.map_eq_some_iff.mp h
    cases chars <;> cases heq <;> exact hj.elim
  · cases h
    exact hj.elim
  · cases h
    exact hj.elim
  · cases h
    exact hj.elim
  · exact h

theorem value?_of_number {c : Char} (hc : c = '-' ∨ c.isDigit = true) :
    value? Literal.scaled (fuel + 1) (c :: s) = number? Literal.scaled (c :: s) := by
  have hne : ∀ d : Char, d ≠ '-' → d.isDigit = false → c ≠ d := by
    rintro d hminus hdigit rfl
    rcases hc with rfl | hc
    · exact hminus rfl
    · rw [hdigit] at hc
      cases hc
  have hspace : isSpace c = false := by
    simp [isSpace, hne]
  rw [value?, skipSpace_of_head (s := c :: s) (by simpa using hspace)]
  split <;> simp_all

theorem unspaced_compact (hj : j.IsNumber) : Unspaced j.compact := by
  cases j with
  | int n => exact unspaced_int n
  | float x =>
    rw [compact, scalarText]
    · split
      · exact unspaced_text _ x
      · simp [Unspaced, isSpace]
    · simp
    · simp
  | _ => exact hj.elim

/-- The text of a number that survives is read to its end by the reader of numbers. -/
theorem number?_compact (hj : j.IsNumber) (hs : Survives j) :
    number? Literal.scaled j.compact = some (j, []) := by
  have hspace := unspaced_compact hj
  rw [Survives, read?, readBy?, oneLine, String.toList_ofList] at hs
  split at hs
  · next j' r hvalue =>
    split at hs
    · next hempty =>
      cases hs
      have hnumber := number?_of_value? hj hvalue
      rw [hspace.skipSpace_eq] at hnumber
      have hr : Unspaced r := hspace.subset (scans_number?.suffix hnumber).subset
      rw [hr.skipSpace_eq, List.isEmpty_iff] at hempty
      rwa [hempty] at hnumber
    · cases hs
  · cases hs

theorem exists_compact_number (hj : j.IsNumber) (hs : Survives j) :
    ∃ c s, j.compact = c :: s ∧ (c = '-' ∨ c.isDigit = true) := by
  have hread := number?_compact hj hs
  cases hcompact : j.compact with
  | nil =>
    rw [hcompact] at hread
    cases hread
  | cons c s =>
    rw [hcompact] at hread
    exact ⟨c, s, rfl, head_of_number? hread⟩

/-- A number that survives is read wherever it ends. -/
theorem value?_compact_number (hj : j.IsNumber) (hs : Survives j) (hrest : EndsNumber rest) :
    value? Literal.scaled (fuel + 1) (j.compact ++ rest) = some (j, rest) := by
  have hread := scans_number?.append hrest (number?_compact hj hs)
  obtain ⟨c, s, hcompact, hc⟩ := exists_compact_number hj hs
  rw [hcompact, List.cons_append] at hread ⊢
  rw [value?_of_number hc]
  exact hread

end Numbers

section Values

variable {fuel : Nat}

/-- The text of a value opens neither with a blank nor with a closing bracket. -/
theorem head_compact {j : Json} (h : Legible j) :
    ∃ c s, j.compact = c :: s ∧ isSpace c = false ∧ c ≠ ']' := by
  have hnumber : j.IsNumber → Survives j →
      ∃ c s, j.compact = c :: s ∧ isSpace c = false ∧ c ≠ ']' := by
    intro hj hs
    obtain ⟨c, s, hcompact, hc⟩ := exists_compact_number hj hs
    refine ⟨c, s, hcompact, unspaced_compact hj c (hcompact ▸ List.mem_cons_self), ?_⟩
    rintro rfl
    rcases hc with hc | hc <;> cases hc
  cases j with
  | null => exact ⟨'n', _, rfl, rfl, by decide⟩
  | bool b =>
    cases b
    · exact ⟨'f', _, rfl, rfl, by decide⟩
    · exact ⟨'t', _, rfl, rfl, by decide⟩
  | int n => exact hnumber trivial h
  | float x => exact hnumber trivial h
  | hugeNumber => exact h.elim
  | brokenText => exact h.elim
  | text s => exact ⟨'"', _, rfl, rfl, by decide⟩
  | array items => exact ⟨'[', _, rfl, rfl, by decide⟩
  | object members => exact ⟨'\x7b', _, rfl, rfl, by decide⟩

theorem value?_array {j : Json} {items : List Json} {rest : List Char} (h : Legible j)
    (hitems : items? Literal.scaled fuel (compactItems (j :: items) ++ ']' :: rest) =
      some (j :: items, rest)) :
    value? Literal.scaled (fuel + 1) ((array (j :: items)).compact ++ rest) =
      some (array (j :: items), rest) := by
  obtain ⟨c, s, hs, hspace, hc⟩ := head_compact h
  obtain ⟨s', hs'⟩ : ∃ s', compactItems (j :: items) = c :: s' := by
    cases items <;> simp [compactItems, hs]
  rw [hs', List.cons_append] at hitems
  have hskip : ∀ t, skipSpace (c :: t) = c :: t :=
    fun t => skipSpace_of_head (by simpa using hspace)
  have hopen : ∀ t, skipSpace ('[' :: t) = '[' :: t := fun _ => rfl
  simp [compact, hs', value?, hopen, hskip, hc, hitems]

theorem value?_object {m : String × Json} {members : List (String × Json)} {rest : List Char}
    (hmembers : members? Literal.scaled fuel (compactMembers (m :: members) ++ '\x7d' :: rest) =
      some (some (m :: members), rest)) :
    value? Literal.scaled (fuel + 1) ((object (m :: members)).compact ++ rest) =
      some (object (m :: members), rest) := by
  obtain ⟨s', hs'⟩ : ∃ s', compactMembers (m :: members) = '"' :: s' := by
    cases members <;> simp [compactMembers, quoted]
  rw [hs', List.cons_append] at hmembers
  have hskip : ∀ t, skipSpace ('"' :: t) = '"' :: t := fun _ => rfl
  have hopen : ∀ t, skipSpace ('\x7b' :: t) = '\x7b' :: t := fun _ => rfl
  simp [compact, hs', value?, hopen, hskip, hmembers]

theorem endsNumber_cons {c : Char} (h : c ∈ [',', ']', '\x7d']) (s : List Char) :
    EndsNumber (c :: s) := by
  intro d hd
  obtain rfl : c = d := by simpa using hd
  simp only [List.mem_cons, List.not_mem_nil, or_false] at h
  rcases h with rfl | rfl | rfl <;> decide

mutual

-- The induction is on the value. Every level and every further member takes one step of fuel and
-- at least one character, so that more fuel than characters is enough for all that is inside.

/-- A legible value is read back from its text, and what follows is left. -/
theorem value?_compact {fuel : Nat} (j : Json) (rest : List Char) (h : Legible j)
    (hrest : EndsNumber rest) (hfuel : j.compact.length < fuel) :
    value? Literal.scaled fuel (j.compact ++ rest) = some (j, rest) := by
  obtain ⟨fuel, rfl⟩ := Nat.exists_eq_succ_of_ne_zero (Nat.ne_zero_of_lt hfuel)
  cases j with
  | null => simp [compact, scalarText, value?, skipSpace, isSpace]
  | bool b => cases b <;> simp [compact, scalarText, value?, skipSpace, isSpace]
  | int n => exact value?_compact_number trivial h hrest
  | float x => exact value?_compact_number trivial h hrest
  | hugeNumber => exact h.elim
  | brokenText => exact h.elim
  | text s => simp [compact, scalarText, quoted, value?, skipSpace, isSpace, string?_quoted]
  | array items =>
    cases items with
    | nil => simp [compact, compactItems, value?, skipSpace, isSpace]
    | cons j items =>
      simp only [compact, List.length_cons, List.length_append, List.length_nil] at hfuel
      exact value?_array h.1
        (items?_compactItems (j :: items) rest h (by simp) (show _ < fuel by omega))
  | object members =>
    cases members with
    | nil => simp [compact, compactMembers, value?, skipSpace, isSpace]
    | cons m members =>
      simp only [compact, List.length_cons, List.length_append, List.length_nil] at hfuel
      exact value?_object
        (members?_compactMembers (m :: members) rest h (by simp) (show _ < fuel by omega))

theorem items?_compactItems {fuel : Nat} (items : List Json) (rest : List Char)
    (h : LegibleItems items) (hne : items ≠ []) (hfuel : (compactItems items).length + 1 < fuel) :
    items? Literal.scaled fuel (compactItems items ++ ']' :: rest) = some (items, rest) := by
  obtain ⟨fuel, rfl⟩ := Nat.exists_eq_succ_of_ne_zero (Nat.ne_zero_of_lt hfuel)
  cases items with
  | nil => exact absurd rfl hne
  | cons j items =>
    cases items with
    | nil =>
      have hj := value?_compact j (']' :: rest) h.1 (endsNumber_cons (by simp) rest)
        (show _ < fuel by simpa [compactItems] using hfuel)
      simp [compactItems, items?, hj, skipSpace, isSpace]
    | cons j' items =>
      simp only [compactItems, List.length_cons, List.length_append] at hfuel
      have hj := value?_compact j (',' :: (compactItems (j' :: items) ++ ']' :: rest)) h.1
        (endsNumber_cons (by simp) _) (show _ < fuel by omega)
      have hitems := items?_compactItems (j' :: items) rest h.2 (by simp)
        (show _ < fuel by omega)
      simp [compactItems, items?, hj, skipSpace, isSpace, hitems]

theorem members?_compactMembers {fuel : Nat} (members : List (String × Json))
    (rest : List Char) (h : LegibleMembers members) (hne : members ≠ [])
    (hfuel : (compactMembers members).length + 1 < fuel) :
    members? Literal.scaled fuel (compactMembers members ++ '\x7d' :: rest) =
      some (some members, rest) := by
  obtain ⟨fuel, rfl⟩ := Nat.exists_eq_succ_of_ne_zero (Nat.ne_zero_of_lt hfuel)
  cases members with
  | nil => exact absurd rfl hne
  | cons m members =>
    obtain ⟨name, j⟩ := m
    cases members with
    | nil =>
      simp only [compactMembers, List.length_cons, List.length_append] at hfuel
      have hj := value?_compact j ('\x7d' :: rest) h.1 (endsNumber_cons (by simp) rest)
        (show _ < fuel by omega)
      simp [compactMembers, members?, hj, skipSpace, isSpace, quoted, string?_quoted]
    | cons m' members =>
      simp only [compactMembers, List.length_cons, List.length_append] at hfuel
      have hj := value?_compact j (',' :: (compactMembers (m' :: members) ++ '\x7d' :: rest)) h.1
        (endsNumber_cons (by simp) _) (show _ < fuel by omega)
      have hmembers := members?_compactMembers (m' :: members) rest h.2 (by simp)
        (show _ < fuel by omega)
      simp [compactMembers, members?, hj, skipSpace, isSpace, quoted, string?_quoted, hmembers]

end

/-- A legible value is read back from its own line. -/
theorem read?_oneLine {j : Json} (h : Legible j) : read? j.oneLine = some j := by
  have hvalue := value?_compact j [] h (by simp [EndsNumber]) (Nat.lt_succ_self _)
  rw [List.append_nil] at hvalue
  rw [read?, readBy?, oneLine, String.toList_ofList, hvalue]
  rfl

end Values

end PatternCardinality.Json
