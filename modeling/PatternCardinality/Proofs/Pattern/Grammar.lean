import PatternCardinality.Proofs.Pattern.Form
import PatternCardinality.Proofs.Pattern.Mention

/-!
# The grammar of patterns

A pattern is written as chains with commas between them. A chain is a node variable, or several
with connectors between neighbours; blanks may stand around it. Every text of the grammar is read,
and what is read is what the text says: the node variables in the order of their first mention,
each with all its labels, and a relationship for every connector.
-/

namespace PatternCardinality.Pattern

open Text

abbrev Word := {s : String // IsWord s}

/-- A node variable in parentheses, with labels behind colons. -/
structure Mention where
  name : Word
  labels : List Word

namespace Mention

def node (m : Mention) : String × List String := (m.name, m.labels.map Subtype.val)

def text (m : Mention) : List Char := nodeForm m.node

end Mention

/-- Two strokes with a bracket between them, and a head on one side at most. -/
structure Connector where
  bracket : Bracket
  direction : Direction

namespace Connector

def text (c : Connector) : List Char :=
  match c.direction with
  | .incoming => '<' :: '-' :: (c.bracket.text ++ ['-'])
  | .outgoing => '-' :: (c.bracket.text ++ ['-', '>'])
  | .both => '-' :: (c.bracket.text ++ ['-'])

/-- The relationship between two neighbours. A head on the left turns it round. -/
def relationship (c : Connector) (left right : String) : Relationship :=
  match c.direction with
  | .incoming => ⟨right, left, c.bracket.type?, true⟩
  | .outgoing => ⟨left, right, c.bracket.type?, true⟩
  | .both => ⟨left, right, c.bracket.type?, false⟩

end Connector

/-- A node variable, and further ones with connectors in front of them. -/
structure Chain where
  first : Mention
  rest : List (Connector × Mention)

namespace Chain

def text (c : Chain) : List Char :=
  c.first.text ++ c.rest.flatMap (fun link => link.1.text ++ link.2.text)

def mentions (c : Chain) : List Mention := c.first :: c.rest.map (·.2)

/-- One relationship for each connector, between the variables beside it. -/
def relationshipsFrom : Mention → List (Connector × Mention) → List Relationship
  | _, [] => []
  | left, (c, right) :: rest =>
    c.relationship left.name right.name :: relationshipsFrom right rest

def relationships (c : Chain) : List Relationship := relationshipsFrom c.first c.rest

end Chain

/-- A run of blanks, which may be empty. -/
abbrev Gap := {l : List Char // ∀ c ∈ l, isBlank c = true}

/-- A chain with blanks around it. -/
structure Phrase where
  before : Gap
  chain : Chain
  after : Gap

def Phrase.text (p : Phrase) : List Char := p.before.1 ++ p.chain.text ++ p.after.1

/-- Phrases with commas between them. -/
def written (first : Phrase) (rest : List Phrase) : String :=
  String.ofList (first.text ++ rest.flatMap (fun p => ',' :: p.text))

/-- What may stand between two commas: a phrase, or blanks alone. -/
inductive Slot where
  | blank (gap : Gap)
  | phrase (p : Phrase)

namespace Slot

def text : Slot → List Char
  | blank gap => gap
  | phrase p => p.text

/-- What is left of a slot without the blanks around it. -/
def body : Slot → List Char
  | blank _ => []
  | phrase p => p.chain.text

def chain? : Slot → Option Chain
  | blank _ => none
  | phrase p => some p.chain

end Slot

/-- Slots with commas between them. -/
def separated (first : Slot) (rest : List Slot) : String :=
  String.ofList (first.text ++ rest.flatMap (fun slot => ',' :: slot.text))

/-- What chains say: the variables in the order of their first mention with all their labels, and
the relationships in the order of their connectors. -/
def meaning (chains : List Chain) : Pattern :=
  ⟨nodesOf ((chains.flatMap Chain.mentions).map Mention.node), chains.flatMap Chain.relationships⟩

section Characters

variable {c : Char}

theorem mem_bracket_text {b : Bracket} (h : c ∈ b.text) :
    isNameChar c = true ∨ c ∈ ['[', ':', ']'] := by
  cases b with
  | absent => cases h
  | empty => exact .inr ((by decide : ['[', ']'] ⊆ ['[', ':', ']']) h)
  | typed name word =>
    simp only [Bracket.text, List.mem_cons, List.mem_append, List.not_mem_nil, or_false] at h
    rcases h with rfl | rfl | h | rfl
    · simp
    · simp
    · exact .inl (word.2 c h)
    · simp

theorem mem_connector_text {k : Connector} (h : c ∈ k.text) :
    isNameChar c = true ∨ c ∈ ['-', '<', '>', '[', ':', ']'] := by
  have hmem : c ∈ k.bracket.text ∨ c ∈ ['-', '<', '>'] := by
    rw [Connector.text] at h
    cases hd : k.direction <;> simp only [hd, List.mem_cons, List.mem_append] at h ⊢ <;> tauto
  rcases hmem with h | h
  · exact (mem_bracket_text h).imp_right (fun h => List.mem_append_right ['-', '<', '>'] h)
  · exact .inr (List.mem_append_left ['[', ':', ']'] h)

theorem mem_mention_text {m : Mention} (h : c ∈ m.text) :
    isNameChar c = true ∨ c ∈ ['(', ':', ')'] := by
  simp only [Mention.text, nodeForm, Mention.node, List.mem_cons, List.mem_append, List.mem_flatMap,
    List.mem_map, List.not_mem_nil, or_false] at h
  rcases h with rfl | (h | ⟨l, ⟨w, hw, rfl⟩, rfl | h⟩) | rfl
  · simp
  · exact .inl (m.name.2.2 c h)
  · simp
  · exact .inl (w.2.2 c h)
  · simp

/-- A chain is spelled with characters for names and with marks, none of them a comma. -/
theorem mem_chain_text {chain : Chain} (h : c ∈ chain.text) :
    isNameChar c = true ∨ c ∈ ['(', ':', ')', '-', '<', '>', '[', ':', ']'] := by
  have hmention : ∀ m : Mention, c ∈ m.text →
      isNameChar c = true ∨ c ∈ ['(', ':', ')', '-', '<', '>', '[', ':', ']'] :=
    fun m hm => (mem_mention_text hm).imp_right (List.mem_append_left ['-', '<', '>', '[', ':', ']'])
  rcases List.mem_append.mp h with h | h
  · exact hmention _ h
  · obtain ⟨link, -, h⟩ := List.mem_flatMap.mp h
    rcases List.mem_append.mp h with h | h
    · exact (mem_connector_text h).imp_right (List.mem_append_right ['(', ':', ')'])
    · exact hmention _ h

theorem comma_not_mem_chain_text (chain : Chain) : ',' ∉ chain.text := by
  intro h
  rcases mem_chain_text h with h | h
  · cases h
  · simp at h

theorem trimmed_chain_text (chain : Chain) : Trimmed chain.text := by
  have hlast : ∀ m : Mention, m.text.getLast? = some ')' := by
    intro m
    simp [Mention.text, nodeForm, List.getLast?_cons]
  have hchain : chain.text.getLast? = some ')' := by
    rcases List.eq_nil_or_concat chain.rest with h | ⟨links, link, h⟩
    · simp [Chain.text, h, hlast]
    · simp [Chain.text, h, hlast, List.getLast?_append]
  refine ⟨?_, ?_⟩
  · intro c hc
    obtain rfl : '(' = c := by simpa [Chain.text, Mention.text, nodeForm] using hc
    decide
  · intro c hc
    rw [hchain] at hc
    obtain rfl : ')' = c := by simpa using hc
    decide

end Characters

section Places

theorem endForm_nodeForm {name : String} {labels : List String} (h : ∀ l ∈ labels, IsWord l) :
    EndForm name (nodeForm (name, labels)) := by
  cases labels with
  | nil =>
    have hform : nodeForm (name, []) = '(' :: (name.toList ++ [')']) := by simp [nodeForm]
    exact hform ▸ .plain
  | cons l ls =>
    have hclosed : ∀ l' ∈ l :: ls, ')' ∉ l'.toList :=
      fun l' hl' => not_mem_of_isNameChar (h l' hl').2 rfl
    obtain ⟨hl, hls⟩ := List.forall_mem_cons.mp hclosed
    obtain ⟨c, cs, hc⟩ : ∃ c cs, l.toList = c :: cs :=
      List.exists_cons_of_ne_nil (by simpa using (h l List.mem_cons_self).1)
    have hform : nodeForm (name, l :: ls) =
        '(' :: (name.toList ++ ':' :: c :: (cs ++ ls.flatMap (fun l => ':' :: l.toList)) ++ [')']) := by
      simp [nodeForm, hc]
    rw [hform]
    refine .labelled ?_
    rw [hc] at hl
    simpa [not_or.mp (List.mem_cons.not.mp hl)] using hls

variable (m n : Mention) (k : Connector) (s : List Char)

/-- Past its own parenthesis a node variable opens no other. -/
theorem exists_text_eq : ∃ l, m.text = '(' :: l ∧ '(' ∉ l := by
  have hname := not_mem_of_isNameChar m.name.2.2 (c := '(') rfl
  have hlabels : ∀ l ∈ m.labels, '(' ∉ l.1.toList :=
    fun l _ => not_mem_of_isNameChar l.2.2 rfl
  refine ⟨_, rfl, ?_⟩
  simpa [Mention.node, hname] using fun l hl hmem => hlabels ⟨l, _⟩ hmem

theorem not_mem_connector_text : '(' ∉ k.text := by
  intro h
  rcases mem_connector_text h with h | h
  · cases h
  · simp at h

theorem nodeAt?_text : nodeAt? (m.text ++ s) = some m.node := by
  refine nodeAt?_eq_some_iff.mpr ⟨m.name.2.2, ?_, s, rfl⟩
  simpa [Mention.node] using fun l hl _ => hl

theorem endpointAt?_text : endpointAt? (m.text ++ s) = some (m.name.1, s) := by
  refine endpointAt?_eq_some_iff.mpr ⟨m.name.2.2, m.text, ?_, rfl⟩
  exact endForm_nodeForm (by simpa using fun l hl _ => hl)

theorem connectorAt?_connector_text {s : List Char} (h : s.head? = some '(') :
    connectorAt? (k.text ++ s) = some (k.bracket.type?, k.direction, s) := by
  have htext : k.text =
      connectorText (k.direction = .incoming) k.bracket (k.direction = .outgoing) := by
    cases hd : k.direction <;> simp [Connector.text, connectorText, hd]
  have hheading : heading (k.direction = .incoming) (k.direction = .outgoing) = k.direction := by
    cases k.direction <;> rfl
  rw [htext, connectorAt?_text _ _ _ h, hheading]

def Connector.hop (k : Connector) (left right : Mention) : Hop :=
  ⟨left.name, k.bracket.type?, k.direction, right.name⟩

theorem hopAt?_text : hopAt? (m.text ++ (k.text ++ (n.text ++ s))) = some (k.hop m n) := by
  have hopen : (n.text ++ s).head? = some '(' := rfl
  rw [hopAt?, endpointAt?_text]
  simp [connectorAt?_connector_text k hopen, endpointAt?_text, Connector.hop]

theorem hopAt?_last : hopAt? m.text = none := by
  have hend := endpointAt?_text m []
  rw [List.append_nil] at hend
  rw [hopAt?, hend]
  rfl

/-- Once something is read at a parenthesis, the search goes on behind the node variable. -/
theorem found_mention {β : Type} {at? : List Char → Option β}
    (h : ∀ c s, c ≠ '(' → at? (c :: s) = none) :
    found at? (m.text ++ s) = (at? (m.text ++ s)).toList ++ found at? s := by
  obtain ⟨l, hl, hopen⟩ := exists_text_eq m
  rw [hl, List.cons_append, found, found_append h hopen]
  split <;> next heq => simp [heq]

theorem found_connector {β : Type} {at? : List Char → Option β}
    (h : ∀ c s, c ≠ '(' → at? (c :: s) = none) : found at? (k.text ++ s) = found at? s :=
  found_append h (not_mem_connector_text k)

/-- The steps along a chain. -/
def hopsFrom : Mention → List (Connector × Mention) → List Hop
  | _, [] => []
  | left, (k, right) :: rest => k.hop left right :: hopsFrom right rest

def Chain.hops (chain : Chain) : List Hop := hopsFrom chain.first chain.rest

/-- Exactly the node variables of a chain are found in it. -/
theorem found_nodeAt?_chain (chain : Chain) :
    found nodeAt? chain.text = chain.mentions.map Mention.node := by
  obtain ⟨first, links⟩ := chain
  have hlinks : found nodeAt? (links.flatMap (fun link => link.1.text ++ link.2.text)) =
      links.map (fun link => link.2.node) := by
    induction links with
    | nil => rfl
    | cons link links ih =>
      rw [List.flatMap_cons, List.append_assoc, found_connector _ _ nodeAt?_of_ne,
        found_mention _ _ nodeAt?_of_ne, nodeAt?_text, ih]
      rfl
  rw [Chain.text, found_mention _ _ nodeAt?_of_ne, nodeAt?_text, hlinks]
  simp [Chain.mentions]

/-- Exactly the steps between neighbours are found in a chain, each of them once. -/
theorem found_hopAt?_chain (chain : Chain) : found hopAt? chain.text = chain.hops := by
  obtain ⟨first, links⟩ := chain
  rw [Chain.text, Chain.hops]
  induction links generalizing first with
  | nil =>
    rw [List.flatMap_nil, found_mention _ _ hopAt?_of_ne, List.append_nil, hopAt?_last]
    rfl
  | cons link links ih =>
    rw [List.flatMap_cons, List.append_assoc, found_mention _ _ hopAt?_of_ne, hopAt?_text,
      found_connector _ _ hopAt?_of_ne, ih link.2]
    rfl

theorem hop_relationship : (k.hop m n).relationship = k.relationship m.name n.name := by
  obtain ⟨b, direction⟩ := k
  cases direction <;> rfl

theorem map_relationship_hops (chain : Chain) :
    chain.hops.map Hop.relationship = chain.relationships := by
  obtain ⟨first, links⟩ := chain
  rw [Chain.hops, Chain.relationships]
  induction links generalizing first with
  | nil => rfl
  | cons link links ih =>
    rw [hopsFrom, List.map_cons, hop_relationship, ih, Chain.relationshipsFrom]

/-- Steps of a chain end at node variables of the chain. -/
theorem mem_ends_hops {chain : Chain} {node : String × List String}
    (h : node ∈ chain.hops.flatMap Hop.ends) :
    node.2 = [] ∧ ∃ m ∈ chain.mentions, m.name.1 = node.1 := by
  obtain ⟨first, links⟩ := chain
  rw [Chain.hops] at h
  induction links generalizing first with
  | nil => cases h
  | cons link links ih =>
    simp only [hopsFrom, List.flatMap_cons, Hop.ends, Connector.hop, List.mem_append,
      List.mem_cons, List.not_mem_nil, or_false] at h
    rcases h with (rfl | rfl) | h
    · exact ⟨rfl, first, by simp [Chain.mentions], rfl⟩
    · exact ⟨rfl, link.2, by simp [Chain.mentions], rfl⟩
    · obtain ⟨hlabels, m, hm, hname⟩ := ih link.2 h
      exact ⟨hlabels, m, List.mem_cons_of_mem _ hm, hname⟩

end Places

section Texts

theorem named_chain (chain : Chain) : Named chain.text := by
  have hmention : ∀ m : Mention, m.name.1 ≠ "" := fun m => m.name.2.1
  refine ⟨?_, ?_⟩
  · intro node hnode
    rw [found_nodeAt?_chain] at hnode
    obtain ⟨m, -, rfl⟩ := List.mem_map.mp hnode
    exact hmention m
  · intro hop hhop
    rw [found_hopAt?_chain] at hhop
    have hends : ∀ v, (v, []) ∈ hop.ends → v ≠ "" := by
      intro v hv
      obtain ⟨-, m, -, hm⟩ := mem_ends_hops (List.mem_flatMap.mpr ⟨hop, hhop, hv⟩)
      exact fun hv => hmention m (hm.trans hv)
    exact ⟨hends _ (by simp [Hop.ends]), hends _ (by simp [Hop.ends])⟩

theorem named_body (slot : Slot) : Named slot.body := by
  cases slot with
  | blank gap => exact ⟨by simp [Slot.body, found], by simp [Slot.body, found]⟩
  | phrase p => exact named_chain p.chain

/-- The bodies of the slots are the parts of the text. -/
theorem parts_separated (first : Slot) (rest : List Slot) :
    parts (separated first rest).toList = (first :: rest).map Slot.body := by
  have hblank : ∀ gap : Gap, ',' ∉ gap.1 := by
    intro gap h
    exact absurd (gap.2 ',' h) (by decide)
  have hcomma : ∀ slot : Slot, ',' ∉ slot.text := by
    rintro (gap | p)
    · exact hblank gap
    · simp [Slot.text, Phrase.text, hblank, comma_not_mem_chain_text]
  have htrim : ∀ slot : Slot, trim slot.text = slot.body := by
    rintro (gap | p)
    · have h := trim_append_right (s := []) gap.2
      rwa [List.nil_append] at h
    · rw [Slot.text, Phrase.text, trim_append_right p.after.2, trim_append_left p.before.2,
        trim_of_trimmed (trimmed_chain_text p.chain)]
      rfl
  have hpieces : pieces (· = ',') (separated first rest).toList =
      first.text :: rest.map Slot.text := by
    refine pieces_eq_cons_iff.mpr ⟨⟨hcomma first, by simpa using fun slot _ => hcomma slot⟩, ?_⟩
    simp [separated, List.flatMap_map]
  rw [parts, map_trim_pieces_trim (by decide), hpieces]
  simp [htrim]

theorem mentionsIn_chain (chain : Chain) :
    mentionsIn chain.text = chain.mentions.map Mention.node ++ chain.hops.flatMap Hop.ends := by
  rw [mentionsIn, found_nodeAt?_chain, found_hopAt?_chain]

theorem mentionsIn_body_eq_nil_iff {slot : Slot} :
    mentionsIn slot.body = [] ↔ slot.chain? = none := by
  cases slot with
  | blank gap => simp [Slot.body, Slot.chain?, mentionsIn, found]
  | phrase p => simp [Slot.body, Slot.chain?, mentionsIn_chain, Chain.mentions]

theorem nodesOf_bodies (slots : List Slot) (before : List (String × List String)) :
    nodesOf (before ++ (slots.map Slot.body).flatMap mentionsIn) = nodesOf (before ++
      ((slots.filterMap Slot.chain?).flatMap Chain.mentions).map Mention.node) := by
  induction slots generalizing before with
  | nil => simp
  | cons slot slots ih =>
    rw [List.filterMap_cons]
    cases slot with
    | blank gap => exact ih before
    | phrase p =>
      -- the ends of the steps are node variables of the chain, mentioned once more
      have hends : ∀ e ∈ p.chain.hops.flatMap Hop.ends,
          e.2 = [] ∧ e.1 ∈ (before ++ p.chain.mentions.map Mention.node).map (·.1) := by
        intro e he
        obtain ⟨hlabels, m, hm, hname⟩ := mem_ends_hops he
        refine ⟨hlabels, List.mem_map.mpr ⟨m.node, ?_, hname⟩⟩
        exact List.mem_append_right _ (List.mem_map_of_mem hm)
      rw [List.map_cons, List.flatMap_cons, Slot.body, mentionsIn_chain, Slot.chain?,
        List.flatMap_cons, List.map_append, ← List.append_assoc, ← List.append_assoc,
        nodesOf_append_silent hends, ih, List.append_assoc]

theorem relationships_bodies (slots : List Slot) :
    (slots.map Slot.body).flatMap (fun part => (found hopAt? part).map Hop.relationship) =
      (slots.filterMap Slot.chain?).flatMap Chain.relationships := by
  induction slots with
  | nil => rfl
  | cons slot slots ih =>
    rw [List.filterMap_cons]
    cases slot with
    | blank gap => exact ih
    | phrase p =>
      rw [List.map_cons, List.flatMap_cons, Slot.body, found_hopAt?_chain, map_relationship_hops,
        ih, Slot.chain?, List.flatMap_cons]

/-- What is read from the slots of a text is what their chains say. -/
theorem reading_bodies (slots : List Slot) :
    reading (slots.map Slot.body) = meaning (slots.filterMap Slot.chain?) :=
  congrArg₂ Pattern.mk (nodesOf_bodies slots []) (relationships_bodies slots)

/-- A text of slots is read if there is a chain among them, and says what its chains say. -/
theorem parse_separated_eq_ok_iff {α : Type} {first : Slot} {rest : List Slot} {p : Pattern} :
    (parse (separated first rest) : Except (Failure α) _) = .ok p ↔
      (first :: rest).filterMap Slot.chain? ≠ [] ∧
        p = meaning ((first :: rest).filterMap Slot.chain?) := by
  have hnamed : ∀ part ∈ (first :: rest).map Slot.body, Named part := by
    intro part hpart
    obtain ⟨slot, -, rfl⟩ := List.mem_map.mp hpart
    exact named_body slot
  have hsome : (∃ part ∈ (first :: rest).map Slot.body, mentionsIn part ≠ []) ↔
      (first :: rest).filterMap Slot.chain? ≠ [] := by
    simp only [List.mem_map, exists_exists_and_eq_and, ne_eq, mentionsIn_body_eq_nil_iff,
      List.filterMap_eq_nil_iff, not_forall, exists_prop]
  rw [parse_eq_ok_iff, parts_separated, hsome, reading_bodies]
  exact and_iff_right hnamed

theorem written_eq_separated (first : Phrase) (rest : List Phrase) :
    written first rest = separated (.phrase first) (rest.map .phrase) := by
  simp [written, separated, Slot.text, List.flatMap_map]

theorem filterMap_chain?_phrases (ps : List Phrase) :
    (ps.map Slot.phrase).filterMap Slot.chain? = ps.map Phrase.chain := by
  induction ps with
  | nil => rfl
  | cons p ps ih => simpa [Slot.chain?] using ih

/-- Every text of the grammar is read as what it says. -/
theorem parse_written {α : Type} (first : Phrase) (rest : List Phrase) :
    (parse (written first rest) : Except (Failure α) Pattern) =
      .ok (meaning ((first :: rest).map Phrase.chain)) := by
  rw [written_eq_separated, parse_separated_eq_ok_iff, ← List.map_cons, filterMap_chain?_phrases]
  simp

end Texts

end PatternCardinality.Pattern
