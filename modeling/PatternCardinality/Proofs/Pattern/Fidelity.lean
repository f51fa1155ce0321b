import PatternCardinality.Proofs.Pattern.Built
import PatternCardinality.Proofs.Pattern.Grammar

/-!
# What of a text is represented

A text is read if a node variable or a step is found in it and none without a name. Every node
variable and every step that is found is represented, and nothing else. What stands between them is
not looked at: the pattern says all that the text says exactly if the text belongs to the grammar.
-/

namespace PatternCardinality.Pattern

/-- A text of the grammar, in which parts between commas may be empty. -/
def Grammatical (s : String) : Prop := ∃ first rest, s = separated first rest

/-- The pattern is the whole meaning of a text of the grammar. -/
def Says (s : String) (p : Pattern) : Prop :=
  ∃ first rest, s = separated first rest ∧ p = meaning ((first :: rest).filterMap Slot.chain?)

/-- A node variable is written somewhere in a part. Its name may be missing. -/
def NodeIn (part : List Char) (node : String × List String) : Prop :=
  (∀ c ∈ node.1.toList, isNameChar c = true) ∧ (∀ l ∈ node.2, IsWord l) ∧
    ∃ before rest, part = before ++ (nodeForm node ++ rest)

/-- A step is written somewhere in a part. Names may be missing. -/
def HopIn (part : List Char) (hop : Hop) : Prop :=
  (∀ c ∈ hop.base.toList, isNameChar c = true) ∧ (∀ c ∈ hop.next.toList, isNameChar c = true) ∧
    ∃ form, HopForm hop form ∧ ∃ before rest, part = before ++ (form ++ rest)

/-- A node variable or a step is written in the text, and none without a name. -/
structure Readable (s : String) : Prop where
  some : ∃ part ∈ parts s.toList, (∃ node, NodeIn part node) ∨ ∃ hop, HopIn part hop
  nodes : ∀ part ∈ parts s.toList, ∀ node, NodeIn part node → node.1 ≠ ""
  hops : ∀ part ∈ parts s.toList, ∀ hop, HopIn part hop → hop.base ≠ "" ∧ hop.next ≠ ""

/-- The pattern has the node variables, labels and steps that are written in the text, and no
others. -/
structure Represents (s : String) (p : Pattern) : Prop where
  names : ∀ v, v ∈ p.names ↔ ∃ part ∈ parts s.toList,
    (∃ node, NodeIn part node ∧ node.1 = v) ∨ ∃ hop, HopIn part hop ∧ (hop.base = v ∨ hop.next = v)
  labels : ∀ n ∈ p.nodes, ∀ l, l ∈ n.labels ↔ ∃ part ∈ parts s.toList,
    ∃ node, NodeIn part node ∧ node.1 = n.name ∧ l ∈ node.2
  relationships : ∀ r, r ∈ p.relationships ↔ ∃ part ∈ parts s.toList,
    ∃ hop, HopIn part hop ∧ hop.relationship = r

section Found

variable {part : List Char}

theorem mem_found_nodeAt?_iff {node : String × List String} :
    node ∈ found nodeAt? part ↔ NodeIn part node := by
  rw [mem_found_iff rfl]
  simp only [nodeAt?_eq_some_iff, NodeIn]
  constructor
  · rintro ⟨before, _, rfl, hname, hlabels, rest, rfl⟩
    exact ⟨hname, hlabels, before, rest, rfl⟩
  · rintro ⟨hname, hlabels, before, rest, rfl⟩
    exact ⟨before, _, rfl, hname, hlabels, rest, rfl⟩

theorem mem_found_hopAt?_iff {hop : Hop} : hop ∈ found hopAt? part ↔ HopIn part hop := by
  rw [mem_found_iff rfl]
  simp only [hopAt?_eq_some_iff, HopIn]
  constructor
  · rintro ⟨before, _, rfl, hbase, hnext, form, rest, hform, rfl⟩
    exact ⟨hbase, hnext, form, hform, before, rest, rfl⟩
  · rintro ⟨hbase, hnext, form, hform, before, rest, rfl⟩
    exact ⟨before, _, rfl, hbase, hnext, form, rest, hform, rfl⟩

theorem named_iff : Named part ↔
    (∀ node, NodeIn part node → node.1 ≠ "") ∧
      ∀ hop, HopIn part hop → hop.base ≠ "" ∧ hop.next ≠ "" := by
  simp only [← mem_found_nodeAt?_iff, ← mem_found_hopAt?_iff]
  exact ⟨fun h => ⟨h.nodes, h.ends⟩, fun h => ⟨h.1, h.2⟩⟩

theorem mem_mentionsIn_iff {node : String × List String} : node ∈ mentionsIn part ↔
    NodeIn part node ∨
      node.2 = [] ∧ ∃ hop, HopIn part hop ∧ (hop.base = node.1 ∨ hop.next = node.1) := by
  obtain ⟨v, labels⟩ := node
  simp only [mentionsIn, List.mem_append, mem_found_nodeAt?_iff, List.mem_flatMap, Hop.ends,
    mem_found_hopAt?_iff, List.mem_cons, Prod.mk.injEq, List.not_mem_nil, or_false]
  refine or_congr_right ⟨?_, ?_⟩
  · rintro ⟨hop, hhop, ⟨rfl, rfl⟩ | ⟨rfl, rfl⟩⟩
    · exact ⟨rfl, hop, hhop, .inl rfl⟩
    · exact ⟨rfl, hop, hhop, .inr rfl⟩
  · rintro ⟨rfl, hop, hhop, rfl | rfl⟩
    · exact ⟨hop, hhop, .inl ⟨rfl, rfl⟩⟩
    · exact ⟨hop, hhop, .inr ⟨rfl, rfl⟩⟩

theorem exists_mem_mentionsIn_iff {v : String} : (∃ labels, (v, labels) ∈ mentionsIn part) ↔
    (∃ node, NodeIn part node ∧ node.1 = v) ∨
      ∃ hop, HopIn part hop ∧ (hop.base = v ∨ hop.next = v) := by
  simp only [mem_mentionsIn_iff, exists_or, exists_and_right, exists_eq, true_and]
  refine or_congr_left ⟨?_, ?_⟩
  · rintro ⟨labels, h⟩
    exact ⟨(v, labels), h, rfl⟩
  · rintro ⟨⟨_, labels⟩, h, rfl⟩
    exact ⟨labels, h⟩

theorem mentionsIn_ne_nil_iff :
    mentionsIn part ≠ [] ↔ (∃ node, NodeIn part node) ∨ ∃ hop, HopIn part hop := by
  constructor
  · intro h
    obtain ⟨node, hnode⟩ := List.exists_mem_of_ne_nil _ h
    rcases mem_mentionsIn_iff.mp hnode with h | ⟨-, hop, h, -⟩
    · exact .inl ⟨node, h⟩
    · exact .inr ⟨hop, h⟩
  · rintro (⟨node, h⟩ | ⟨hop, h⟩)
    · exact List.ne_nil_of_mem (mem_mentionsIn_iff.mpr (.inl h))
    · have hends : (hop.base, []) ∈ mentionsIn part :=
        mem_mentionsIn_iff.mpr (.inr ⟨rfl, hop, h, .inl rfl⟩)
      exact List.ne_nil_of_mem hends

theorem exists_parse_iff {α : Type} {s : String} :
    (∃ p, (parse s : Except (Failure α) _) = .ok p) ↔ Readable s := by
  simp only [parse_eq_ok_iff, named_iff, mentionsIn_ne_nil_iff]
  constructor
  · rintro ⟨p, hnamed, hsome, -⟩
    exact ⟨hsome, fun part hpart => (hnamed part hpart).1, fun part hpart => (hnamed part hpart).2⟩
  · intro h
    exact ⟨_, fun part hpart => ⟨h.nodes part hpart, h.hops part hpart⟩, h.some, rfl⟩

theorem represents_reading (s : String) : Represents s (reading (parts s.toList)) where
  names v := by
    have hnames : (reading (parts s.toList)).names =
        (((parts s.toList).flatMap mentionsIn).map (·.1)).eraseDups := by
      simp [reading, names, nodesOf, Function.comp_def]
    rw [hnames, List.mem_eraseDups, List.mem_map]
    constructor
    · rintro ⟨node, hnode, rfl⟩
      obtain ⟨part, hpart, h⟩ := List.mem_flatMap.mp hnode
      exact ⟨part, hpart, exists_mem_mentionsIn_iff.mp ⟨node.2, h⟩⟩
    · rintro ⟨part, hpart, h⟩
      obtain ⟨labels, h⟩ := exists_mem_mentionsIn_iff.mpr h
      exact ⟨(v, labels), List.mem_flatMap.mpr ⟨part, hpart, h⟩, rfl⟩
  labels n hn l := by
    obtain ⟨v, -, rfl⟩ := List.mem_map.mp hn
    simp only [mem_labelsOf, List.mem_flatMap, mem_mentionsIn_iff]
    constructor
    · rintro ⟨labels, ⟨part, hpart, h | ⟨h, -⟩⟩, hl⟩
      · exact ⟨part, hpart, (v, labels), h, rfl, hl⟩
      · rw [h] at hl
        cases hl
    · rintro ⟨part, hpart, ⟨_, labels⟩, h, rfl, hl⟩
      exact ⟨labels, ⟨part, hpart, .inl h⟩, hl⟩
  relationships r := by
    simp only [reading, List.mem_flatMap, List.mem_map, mem_found_hopAt?_iff]

end Found

section Strokes

theorem count_mention (m : Mention) : m.text.count '-' = 0 := by
  rw [List.count_eq_zero]
  intro h
  rcases mem_mention_text h with h | h
  · cases h
  · simp at h

theorem count_connector (k : Connector) : k.text.count '-' = 2 := by
  have hbracket : k.bracket.text.count '-' = 0 := by
    rw [List.count_eq_zero]
    intro h
    rcases mem_bracket_text h with h | h
    · cases h
    · simp at h
  rw [Connector.text]
  cases k.direction <;> simp [hbracket]

theorem count_chain (chain : Chain) :
    chain.text.count '-' = 2 * chain.relationships.length := by
  obtain ⟨first, links⟩ := chain
  have hlinks : ∀ left, (links.flatMap (fun link => link.1.text ++ link.2.text)).count '-' =
      2 * (Chain.relationshipsFrom left links).length := by
    induction links with
    | nil => exact fun left => rfl
    | cons link links ih =>
      intro left
      rw [List.flatMap_cons, List.count_append, List.count_append, count_connector, count_mention,
        ih link.2, Chain.relationshipsFrom, List.length_cons]
      omega
  rw [Chain.text, List.count_append, count_mention, hlinks first, Nat.zero_add]
  rfl

theorem count_gap (gap : Gap) : gap.1.count '-' = 0 :=
  List.count_eq_zero.mpr (fun h => absurd (gap.2 '-' h) (by decide))

/-- In a text of the grammar two strokes are written for each relationship. -/
theorem count_separated (first : Slot) (rest : List Slot) :
    (separated first rest).toList.count '-' =
      2 * (meaning ((first :: rest).filterMap Slot.chain?)).relationships.length := by
  have hslots : ∀ slots : List Slot, (slots.flatMap Slot.text).count '-' =
      2 * (meaning (slots.filterMap Slot.chain?)).relationships.length := by
    intro slots
    induction slots with
    | nil => rfl
    | cons slot slots ih =>
      rw [List.flatMap_cons, List.count_append, ih, List.filterMap_cons]
      cases slot with
      | blank gap => simp [Slot.text, Slot.chain?, count_gap]
      | phrase p =>
        simp [Slot.text, Slot.chain?, Phrase.text, count_gap, count_chain, meaning, Nat.mul_add]
  rw [← hslots, separated]
  simp [List.count_flatMap, Function.comp_def]

end Strokes

/-- A text is read if something is written in it and nothing lacks a name, and refused as a pattern
otherwise. What is written in it is represented, and it is all of the text exactly if the text
belongs to the grammar. -/
theorem parse_represents {α : Type} (s : String) :
    ((∃ p, (parse s : Except (Failure α) _) = .ok p) ↔ Readable s) ∧
      (∀ f : Failure α, parse s = .error f → ∃ fault, f = .badPattern fault) ∧
      ∀ p, (parse s : Except (Failure α) _) = .ok p →
        Represents s p ∧ (Says s p ↔ Grammatical s) := by
  refine ⟨exists_parse_iff, fun f => parse_eq_error, fun p hp => ⟨?_, ?_⟩⟩
  · obtain ⟨-, -, rfl⟩ := parse_eq_ok_iff.mp hp
    exact represents_reading s
  · constructor
    · rintro ⟨first, rest, hs, -⟩
      exact ⟨first, rest, hs⟩
    · rintro ⟨first, rest, rfl⟩
      exact ⟨first, rest, rfl, (parse_separated_eq_ok_iff.mp hp).2⟩

/-- A step with a variable of its own is passed over, and its ends are read as if nothing stood
between them. -/
theorem parse_loses_named_step :
    (parse "(a)-[r:KNOWS]->(b)" : Except (Failure Float) _) = .ok ⟨[⟨"a", ∅⟩, ⟨"b", ∅⟩], []⟩ ∧
      ¬Grammatical "(a)-[r:KNOWS]->(b)" := by
  have hread : (parse "(a)-[r:KNOWS]->(b)" : Except (Failure Float) _) =
      .ok ⟨[⟨"a", ∅⟩, ⟨"b", ∅⟩], []⟩ := by
    rfl
  refine ⟨hread, ?_⟩
  rintro ⟨first, rest, hs⟩
  have hcount := count_separated first rest
  rw [hs, parse_separated_eq_ok_iff] at hread
  rw [← hread.2, ← hs] at hcount
  revert hcount
  decide

end PatternCardinality.Pattern
