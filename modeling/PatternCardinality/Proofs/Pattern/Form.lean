import PatternCardinality.Pattern.Reader
import PatternCardinality.Proofs.Text.Pieces

/-!
# What is read at a place of a text

A node variable and a step between node variables have forms of their own. Each reader finds
exactly its form at the beginning of a text, and both forms begin with a parenthesis.
-/

namespace PatternCardinality.Pattern

open Text

/-- One letter, digit or underscore, or more. -/
def IsWord (s : String) : Prop := s ≠ "" ∧ ∀ c ∈ s.toList, isNameChar c = true

instance : DecidablePred IsWord := fun s =>
  decidable_of_iff (s ≠ "" ∧ s.toList.all isNameChar = true) (by simp [IsWord])

section Characters

variable {l : List Char} {c : Char}

/-- A character that is no part of a name does not occur in one. -/
theorem not_mem_of_isNameChar (h : ∀ c ∈ l, isNameChar c = true) (hc : isNameChar c = false) :
    c ∉ l := by
  intro hmem
  rw [h c hmem] at hc
  cases hc

theorem takeWhile_name {s : List Char} (h : ∀ c ∈ l, isNameChar c = true)
    (hs : ∀ c ∈ s.head?, isNameChar c = false) :
    (l ++ s).takeWhile isNameChar = l ∧ (l ++ s).dropWhile isNameChar = s := by
  rw [List.takeWhile_append_of_pos h, List.dropWhile_append_of_pos h]
  cases s with
  | nil => simp
  | cons c s => simp [hs c rfl]

end Characters

theorem enclosed?_eq_some_iff {s body rest : List Char} :
    enclosed? s = some (body, rest) ↔ ')' ∉ body ∧ s = '(' :: (body ++ ')' :: rest) := by
  cases s with
  | nil => simp [enclosed?]
  | cons c s =>
    by_cases hc : c = '('
    · subst hc
      simp [enclosed?, cut?_eq_some_iff]
    · simp [enclosed?, hc]

section Nodes

/-- A name in parentheses with labels behind it. -/
def nodeForm (node : String × List String) : List Char :=
  '(' :: (node.1.toList ++ node.2.flatMap (fun l => ':' :: l.toList) ++ [')'])

variable {s : List Char} {node : String × List String}

/-- A node variable is read if its name, which may be missing, and its labels are spelled with
characters for names. -/
theorem nodeAt?_eq_some_iff :
    nodeAt? s = some node ↔ (∀ c ∈ node.1.toList, isNameChar c = true) ∧
      (∀ l ∈ node.2, IsWord l) ∧ ∃ rest, s = nodeForm node ++ rest := by
  obtain ⟨name, labels⟩ := node
  constructor
  · intro h
    obtain ⟨⟨body, rest⟩, henclosed, hread⟩ := Option.bind_eq_some_iff.mp h
    obtain ⟨-, rfl⟩ := enclosed?_eq_some_iff.mp henclosed
    dsimp only at hread
    split at hread
    · next head tail hpieces =>
      split at hread
      · next hall =>
        cases hread
        obtain ⟨-, rfl⟩ := of_pieces_eq_cons hpieces
        obtain ⟨hname, hlabels⟩ := hall
        refine ⟨by simpa using hname, ?_, rest, by simp [nodeForm, List.flatMap_map]⟩
        intro l hl
        obtain ⟨cs, hcs, rfl⟩ := List.mem_map.mp hl
        have hword := List.all_eq_true.mp hlabels cs hcs
        simpa [IsWord] using hword
      · cases hread
    · cases hread
  · rintro ⟨hname, hlabels, rest, rfl⟩
    have hpieces : pieces (· = ':') (name.toList ++ labels.flatMap (fun l => ':' :: l.toList)) =
        name.toList :: labels.map String.toList := by
      refine pieces_eq_cons_iff.mpr ⟨⟨not_mem_of_isNameChar hname rfl, ?_⟩, ?_⟩
      · simpa using fun l hl => not_mem_of_isNameChar (hlabels l hl).2 rfl
      · rw [List.flatMap_map]
    have hclosed : ')' ∉ name.toList ++ labels.flatMap (fun l => ':' :: l.toList) := by
      have hname := not_mem_of_isNameChar hname (c := ')') rfl
      have hlabels := fun l hl => not_mem_of_isNameChar (hlabels l hl).2 (c := ')') rfl
      simpa [hname] using hlabels
    have henclosed : enclosed? (nodeForm (name, labels) ++ rest) =
        some (name.toList ++ labels.flatMap (fun l => ':' :: l.toList), rest) :=
      enclosed?_eq_some_iff.mpr ⟨hclosed, by simp [nodeForm]⟩
    rw [nodeAt?, henclosed]
    simpa [hpieces] using ⟨hname, hlabels⟩

end Nodes

section Steps

/-- A name in parentheses, and perhaps a colon and any text behind it. -/
inductive EndForm (name : String) : List Char → Prop
  | plain : EndForm name ('(' :: (name.toList ++ [')']))
  | labelled {c : Char} {labels : List Char} (closed : ')' ∉ c :: labels) :
      EndForm name ('(' :: (name.toList ++ ':' :: c :: labels ++ [')']))

theorem endpointAt?_eq_some_iff {s rest : List Char} {name : String} :
    endpointAt? s = some (name, rest) ↔
      (∀ c ∈ name.toList, isNameChar c = true) ∧ ∃ form, EndForm name form ∧ s = form ++ rest := by
  constructor
  · intro h
    obtain ⟨⟨body, after⟩, henclosed, hread⟩ := Option.bind_eq_some_iff.mp h
    obtain ⟨hclosed, rfl⟩ := enclosed?_eq_some_iff.mp henclosed
    have hbody := List.takeWhile_append_dropWhile (p := isNameChar) (l := body)
    have hname : ∀ c ∈ body.takeWhile isNameChar, isNameChar c = true :=
      List.all_eq_true.mp List.all_takeWhile
    dsimp only at hread
    generalize body.takeWhile isNameChar = l at hbody hname hread
    generalize body.dropWhile isNameChar = labels at hbody hread
    subst hbody
    split at hread
    · cases hread
      exact ⟨by simpa using hname, _, .plain, by simp⟩
    · next c labels =>
      cases hread
      have hlabels : ')' ∉ c :: labels := fun h => hclosed (by simp [List.mem_cons.mp h])
      exact ⟨by simpa using hname, _, .labelled hlabels, by simp⟩
    · cases hread
  · rintro ⟨hname, form, hform, rfl⟩
    have hclosed := not_mem_of_isNameChar hname (c := ')') rfl
    cases hform with
    | plain =>
      have henclosed : enclosed? ('(' :: (name.toList ++ [')']) ++ rest) =
          some (name.toList, rest) := enclosed?_eq_some_iff.mpr ⟨hclosed, by simp⟩
      obtain ⟨htake, hdrop⟩ := takeWhile_name hname (s := []) (by simp)
      rw [List.append_nil] at htake hdrop
      rw [endpointAt?, henclosed]
      simp [htake, hdrop]
    | @labelled c labels hlabels =>
      have henclosed : enclosed? ('(' :: (name.toList ++ ':' :: c :: labels ++ [')']) ++ rest) =
          some (name.toList ++ ':' :: c :: labels, rest) :=
        enclosed?_eq_some_iff.mpr ⟨by simpa [hclosed] using hlabels, by simp⟩
      obtain ⟨htake, hdrop⟩ := takeWhile_name hname (s := ':' :: c :: labels) (by simp; rfl)
      rw [endpointAt?, henclosed]
      simp [htake, hdrop]

/-- What stands between the two strokes of a connector. -/
inductive Bracket where
  | absent
  | empty
  | typed (name : String) (word : IsWord name)

namespace Bracket

def text : Bracket → List Char
  | absent => []
  | empty => ['[', ']']
  | typed name _ => '[' :: ':' :: (name.toList ++ [']'])

def type? : Bracket → Option String
  | typed name _ => some name
  | _ => none

end Bracket

theorem bracketAt?_text (b : Bracket) {s : List Char} (h : s.head? ≠ some '[') :
    bracketAt? (b.text ++ s) = some (b.type?, s) := by
  cases b with
  | absent =>
    cases s with
    | nil => rfl
    | cons c s =>
      have hc : c ≠ '[' := by simpa using h
      simp [Bracket.text, Bracket.type?, bracketAt?, hc]
  | empty => rfl
  | typed name word =>
    obtain ⟨htake, hdrop⟩ := takeWhile_name word.2 (s := ']' :: s) (by simp; rfl)
    have hne : name.toList.isEmpty = false := by simpa using word.1
    simp [Bracket.text, Bracket.type?, bracketAt?, htake, hdrop, hne]

theorem exists_bracket {s rest : List Char} {type : Option String}
    (h : bracketAt? s = some (type, rest)) : ∃ b : Bracket, b.type? = type ∧ s = b.text ++ rest := by
  unfold bracketAt? at h
  split at h
  · cases h
    exact ⟨.empty, rfl, rfl⟩
  · next s =>
    have hs := List.takeWhile_append_dropWhile (p := isNameChar) (l := s)
    have hname : ∀ c ∈ s.takeWhile isNameChar, isNameChar c = true :=
      List.all_eq_true.mp List.all_takeWhile
    dsimp only at h
    generalize s.takeWhile isNameChar = l at hs hname h
    generalize s.dropWhile isNameChar = after at hs h
    subst hs
    split at h
    · split at h
      · cases h
      · next hne =>
        cases h
        have hword : IsWord (String.ofList l) := ⟨by simpa using hne, by simpa using hname⟩
        exact ⟨.typed _ hword, rfl, by simp [Bracket.text]⟩
    · cases h
  · cases h
  · cases h
    exact ⟨.absent, rfl, rfl⟩

/-- Two strokes, each with or without a head. -/
def connectorText (left : Bool) (b : Bracket) (right : Bool) : List Char :=
  (if left then ['<', '-'] else ['-']) ++ b.text ++ (if right then ['-', '>'] else ['-'])

/-- A head on the left decides before one on the right. -/
def heading (left right : Bool) : Direction :=
  if left then .incoming else if right then .outgoing else .both

theorem connectorAt?_text (left right : Bool) (b : Bracket) {s : List Char}
    (h : s.head? = some '(') :
    connectorAt? (connectorText left b right ++ s) = some (b.type?, heading left right, s) := by
  obtain ⟨s, rfl⟩ : ∃ t, s = '(' :: t := by
    cases s with
    | nil => cases h
    | cons c s => exact ⟨s, by simpa using h⟩
  have hbracket : bracketAt? (b.text ++ ((if right then ['-', '>'] else ['-']) ++ '(' :: s)) =
      some (b.type?, (if right then ['-', '>'] else ['-']) ++ '(' :: s) :=
    bracketAt?_text b (by cases right <;> simp)
  cases left <;> cases right <;>
    simp_all [connectorText, connectorAt?, heading]

/-- What follows the first stroke of a connector, with or without a head on it. -/
def restAt? (left : Bool) (s : List Char) : Option (Option String × Direction × List Char) := do
  let (type, s) ← bracketAt? s
  match s with
  | '-' :: '>' :: r => some (type, if left then .incoming else .outgoing, r)
  | '-' :: r => some (type, if left then .incoming else .both, r)
  | _ => none

theorem exists_rest (left : Bool) {s rest : List Char} {type : Option String}
    {direction : Direction} (h : restAt? left s = some (type, direction, rest)) :
    ∃ (b : Bracket) (right : Bool), b.type? = type ∧ heading left right = direction ∧
      s = b.text ++ (if right then ['-', '>'] else ['-']) ++ rest := by
  obtain ⟨⟨type', s₂⟩, hbracket, hstroke⟩ := Option.bind_eq_some_iff.mp h
  obtain ⟨b, htype, hs⟩ := exists_bracket hbracket
  dsimp only at hstroke
  split at hstroke
  · cases hstroke
    exact ⟨b, true, htype, by cases left <;> rfl, by simp [hs]⟩
  · cases hstroke
    exact ⟨b, false, htype, by cases left <;> rfl, by simp [hs]⟩
  · cases hstroke

theorem exists_connector {s rest : List Char} {type : Option String} {direction : Direction}
    (h : connectorAt? s = some (type, direction, rest)) :
    ∃ left b right, b.type? = type ∧ heading left right = direction ∧
      s = connectorText left b right ++ rest := by
  unfold connectorAt? at h
  split at h
  · obtain ⟨b, right, htype, hdirection, rfl⟩ := exists_rest true h
    exact ⟨true, b, right, htype, hdirection, by simp [connectorText]⟩
  · obtain ⟨b, right, htype, hdirection, rfl⟩ := exists_rest false h
    exact ⟨false, b, right, htype, hdirection, by simp [connectorText]⟩
  · cases h

/-- Two ends and a connector between them. -/
inductive HopForm (hop : Hop) : List Char → Prop
  | intro {base next : List Char} {left right : Bool} {b : Bracket} (baseForm : EndForm hop.base base)
      (type : b.type? = hop.type) (direction : heading left right = hop.direction)
      (nextForm : EndForm hop.next next) : HopForm hop (base ++ connectorText left b right ++ next)

theorem hopAt?_eq_some_iff {s : List Char} {hop : Hop} :
    hopAt? s = some hop ↔ (∀ c ∈ hop.base.toList, isNameChar c = true) ∧
      (∀ c ∈ hop.next.toList, isNameChar c = true) ∧
      ∃ form rest, HopForm hop form ∧ s = form ++ rest := by
  constructor
  · intro h
    obtain ⟨⟨base, s₁⟩, hbase, h⟩ := Option.bind_eq_some_iff.mp h
    obtain ⟨⟨type, direction, s₂⟩, hconnector, h⟩ := Option.bind_eq_some_iff.mp h
    obtain ⟨⟨next, s₃⟩, hnext, h⟩ := Option.bind_eq_some_iff.mp h
    cases h
    obtain ⟨hbaseName, baseForm, hbaseForm, rfl⟩ := endpointAt?_eq_some_iff.mp hbase
    obtain ⟨hnextName, nextForm, hnextForm, rfl⟩ := endpointAt?_eq_some_iff.mp hnext
    obtain ⟨left, b, right, htype, hdirection, rfl⟩ := exists_connector hconnector
    exact ⟨hbaseName, hnextName, _, s₃, .intro hbaseForm htype hdirection hnextForm, by simp⟩
  · rintro ⟨hbaseName, hnextName, form, rest, ⟨hbaseForm, htype, hdirection, hnextForm⟩, rfl⟩
    rename_i base next left right b
    have hbase : endpointAt? (base ++ (connectorText left b right ++ (next ++ rest))) = some _ :=
      endpointAt?_eq_some_iff.mpr ⟨hbaseName, base, hbaseForm, rfl⟩
    have hnext : endpointAt? (next ++ rest) = some _ :=
      endpointAt?_eq_some_iff.mpr ⟨hnextName, next, hnextForm, rfl⟩
    have hopen : (next ++ rest).head? = some '(' := by cases hnextForm <;> rfl
    rw [List.append_assoc, List.append_assoc, hopAt?, hbase]
    simp [connectorAt?_text left right b hopen, hnext, htype, hdirection]

end Steps

section Places

variable {β : Type} {at? : List Char → Option β} {s l : List Char} {b : β}

/-- What is found in a text is read at one of its places, and what can be read at a place is
found. -/
theorem mem_found_iff (hnil : at? [] = none) :
    b ∈ found at? s ↔ ∃ before rest, s = before ++ rest ∧ at? rest = some b := by
  induction s with
  | nil => simp [found, hnil]
  | cons c s ih =>
    have hplace : b ∈ found at? (c :: s) ↔ at? (c :: s) = some b ∨ b ∈ found at? s := by
      rw [found]
      split <;> simp_all [eq_comm]
    rw [hplace, ih]
    constructor
    · rintro (h | ⟨before, rest, rfl, h⟩)
      · exact ⟨[], c :: s, rfl, h⟩
      · exact ⟨c :: before, rest, rfl, h⟩
    · rintro ⟨before, rest, hs, h⟩
      cases before with
      | nil =>
        rw [List.nil_append] at hs
        exact .inl (hs ▸ h)
      | cons d before =>
        obtain ⟨rfl, rfl⟩ := List.cons.inj hs
        exact .inr ⟨before, rest, rfl, h⟩

/-- Nothing is found where no parenthesis opens. -/
theorem found_append (h : ∀ c s, c ≠ '(' → at? (c :: s) = none) (hl : '(' ∉ l) :
    found at? (l ++ s) = found at? s := by
  induction l with
  | nil => rfl
  | cons c l ih =>
    rw [List.mem_cons, not_or] at hl
    rw [List.cons_append, found, h c (l ++ s) (Ne.symm hl.1)]
    exact ih hl.2

theorem nodeAt?_of_ne (c : Char) (s : List Char) (h : c ≠ '(') : nodeAt? (c :: s) = none := by
  simp [nodeAt?, enclosed?, h]

theorem hopAt?_of_ne (c : Char) (s : List Char) (h : c ≠ '(') : hopAt? (c :: s) = none := by
  simp [hopAt?, endpointAt?, enclosed?, h]

end Places

end PatternCardinality.Pattern
