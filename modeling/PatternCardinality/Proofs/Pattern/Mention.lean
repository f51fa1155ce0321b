import Mathlib.Data.List.Induction
import Mathlib.Data.List.Nodup
import PatternCardinality.Pattern.Reader
import PatternCardinality.Proofs.Ordered.Set
import PatternCardinality.Proofs.Outcome

/-!
# Patterns from mentions

A text mentions node variables, some of them several times, and each mention may give labels. The
pattern read from it has the variables in the order of their first mention, each with all labels
that it is given anywhere, and the relationships that are found.
-/

namespace PatternCardinality.Pattern

/-- All labels that mentions give to a variable. -/
def labelsOf (mentions : List (String × List String)) (v : String) : OrderedSet String :=
  OrderedSet.ofList ((mentions.filter (·.1 = v)).flatMap (·.2))

/-- The variables in the order of their first mention, each with all its labels. -/
def nodesOf (mentions : List (String × List String)) : List NodeVariable :=
  (mentions.map (·.1)).eraseDups.map (fun v => ⟨v, labelsOf mentions v⟩)

theorem eraseDups_concat {β : Type} [BEq β] [LawfulBEq β] (l : List β) (a : β) :
    (l ++ [a]).eraseDups = if l.contains a then l.eraseDups else l.eraseDups ++ [a] := by
  rw [List.eraseDups_append]
  by_cases h : a ∈ l <;> simp [List.removeAll, List.eraseDups_cons, h]

theorem nodup_eraseDups {β : Type} [BEq β] [LawfulBEq β] (l : List β) : l.eraseDups.Nodup := by
  induction l using List.reverseRecOn with
  | nil => exact List.nodup_nil
  | append_singleton l a ih =>
    rw [eraseDups_concat]
    split
    · exact ih
    · next h =>
      have ha : a ∉ l.eraseDups := by simpa using h
      exact List.nodup_append.mpr ⟨ih, List.nodup_singleton a, by
        rintro b hb c hc rfl
        exact ha (List.mem_singleton.mp hc ▸ hb)⟩

theorem eraseDups_of_nodup {β : Type} [BEq β] [LawfulBEq β] {l : List β} (h : l.Nodup) :
    l.eraseDups = l := by
  induction l using List.reverseRecOn with
  | nil => rfl
  | append_singleton l a ih =>
    obtain ⟨hl, -, hdisjoint⟩ := List.nodup_append.mp h
    have ha : a ∉ l := fun hmem => hdisjoint a hmem a (List.mem_singleton.mpr rfl) rfl
    rw [eraseDups_concat, ih hl]
    simp [ha]

/-- Repetitions of what stands in front count for nothing. -/
theorem eraseDups_append_of_subset {β : Type} [BEq β] [LawfulBEq β] {l m : List β} (h : m ⊆ l)
    (more : List β) : (l ++ m ++ more).eraseDups = (l ++ more).eraseDups := by
  have hrepeated : m.removeAll l = [] := by simpa [List.removeAll] using fun a ha => h ha
  have hmore : more.removeAll (l ++ m) = more.removeAll l := by
    refine List.filter_congr (fun a _ => ?_)
    by_cases ha : a ∈ m <;> simp [ha, @h a]
  rw [List.eraseDups_append, List.eraseDups_append, List.eraseDups_append, hrepeated, hmore]
  simp

section Adding

variable {mentions more : List (String × List String)} {name v : String} {labels : List String}

theorem mem_labelsOf {l : String} :
    l ∈ labelsOf mentions v ↔ ∃ labels, (v, labels) ∈ mentions ∧ l ∈ labels := by
  rw [labelsOf, OrderedSet.mem_ofList, List.mem_flatMap]
  simp only [List.mem_filter, decide_eq_true_eq, Prod.exists]
  constructor
  · rintro ⟨w, labels, ⟨hmem, rfl⟩, hl⟩
    exact ⟨labels, hmem, hl⟩
  · rintro ⟨labels, hmem, hl⟩
    exact ⟨v, labels, ⟨hmem, rfl⟩, hl⟩

theorem labelsOf_concat (mentions : List (String × List String)) (name v : String)
    (labels : List String) :
    labelsOf (mentions ++ [(name, labels)]) v =
      if v = name then (labelsOf mentions v).union (OrderedSet.ofList labels)
      else labelsOf mentions v := by
  apply OrderedSet.ext
  intro l
  split
  · next h =>
    rw [OrderedSet.mem_union, mem_labelsOf, mem_labelsOf, OrderedSet.mem_ofList, h]
    simp only [List.mem_append, List.mem_singleton, Prod.mk.injEq, true_and, or_and_right,
      exists_or, exists_eq_left]
  · next h =>
    rw [mem_labelsOf, mem_labelsOf]
    simp [h]

theorem labelsOf_eq_empty (h : v ∉ mentions.map (·.1)) : labelsOf mentions v = ∅ := by
  apply OrderedSet.ext
  intro l
  rw [mem_labelsOf]
  constructor
  · rintro ⟨labels, hmem, -⟩
    exact absurd (List.mem_map.mpr ⟨_, hmem, rfl⟩) h
  · exact fun hl => absurd hl (OrderedSet.not_mem_empty l)

/-- Among variables with names of their own, labels reach the one with the name. -/
theorem withNode_map {names : List String} (h : names.Nodup) (f : String → OrderedSet String)
    (name : String) (labels : List String) :
    withNode name labels (names.map (fun v => ⟨v, f v⟩)) =
      if name ∈ names then
        names.map (fun v => ⟨v, if v = name then (f v).union (OrderedSet.ofList labels) else f v⟩)
      else names.map (fun v => ⟨v, f v⟩) ++ [⟨name, OrderedSet.ofList labels⟩] := by
  induction names with
  | nil => rfl
  | cons v names ih =>
    obtain ⟨hv, hnodup⟩ := List.nodup_cons.mp h
    rw [List.map_cons, withNode]
    by_cases hname : v = name
    · subst hname
      have hrest : names.map (fun w => (⟨w, f w⟩ : NodeVariable)) = names.map (fun w =>
          ⟨w, if w = v then (f w).union (OrderedSet.ofList labels) else f w⟩) := by
        refine List.map_congr_left (fun w hw => ?_)
        have hne : w ≠ v := fun h => hv (h ▸ hw)
        rw [if_neg hne]
      simp [hrest]
    · rw [if_neg hname, ih hnodup]
      simp only [List.mem_cons, Ne.symm hname, false_or]
      split <;> simp [hname]

/-- Adding a node variable is one more mention. -/
theorem addNode_nodesOf (mentions : List (String × List String)) (rs : List Relationship)
    (name : String) (labels : List String) :
    (⟨nodesOf mentions, rs⟩ : Pattern).addNode name labels =
      ⟨nodesOf (mentions ++ [(name, labels)]), rs⟩ := by
  rw [addNode, nodesOf, withNode_map (nodup_eraseDups _), nodesOf, List.map_append,
    List.map_singleton, eraseDups_concat]
  simp only [List.mem_eraseDups, List.contains_iff_mem, Pattern.mk.injEq, and_true]
  split
  · next h =>
    refine List.map_congr_left (fun v hv => ?_)
    rw [labelsOf_concat]
  · next h =>
    rw [List.map_append, List.map_singleton, labelsOf_concat, if_pos rfl, labelsOf_eq_empty h]
    congr 1
    · refine List.map_congr_left (fun v hv => ?_)
      have hne : v ≠ name := fun heq => h (heq ▸ List.mem_eraseDups.mp hv)
      rw [labelsOf_concat, if_neg hne]
    · congr 2
      apply OrderedSet.ext
      intro l
      simp [OrderedSet.mem_union]

theorem nodesOf_eq_nil_iff : nodesOf mentions = [] ↔ mentions = [] := by
  cases mentions with
  | nil => simp [nodesOf]
  | cons m mentions => simp [nodesOf, List.eraseDups_cons]

/-- To mention a variable again, without a label, changes nothing. -/
theorem nodesOf_append_silent {ends : List (String × List String)}
    (h : ∀ e ∈ ends, e.2 = [] ∧ e.1 ∈ mentions.map (·.1)) :
    nodesOf (mentions ++ ends ++ more) = nodesOf (mentions ++ more) := by
  have hnames : ((mentions ++ ends ++ more).map (·.1)).eraseDups =
      ((mentions ++ more).map (·.1)).eraseDups := by
    rw [List.map_append, List.map_append, List.map_append]
    refine eraseDups_append_of_subset (fun v hv => ?_) _
    obtain ⟨e, he, rfl⟩ := List.mem_map.mp hv
    exact (h e he).2
  rw [nodesOf, hnames, nodesOf]
  refine List.map_congr_left (fun v _ => ?_)
  congr 1
  apply OrderedSet.ext
  intro l
  simp only [mem_labelsOf, List.mem_append]
  constructor
  · rintro ⟨labels, (hmem | hmem) | hmem, hl⟩
    · exact ⟨labels, .inl hmem, hl⟩
    · obtain rfl : labels = [] := (h _ hmem).1
      cases hl
    · exact ⟨labels, .inr hmem, hl⟩
  · rintro ⟨labels, hmem | hmem, hl⟩
    · exact ⟨labels, .inl (.inl hmem), hl⟩
    · exact ⟨labels, .inr hmem, hl⟩

theorem foldl_addNode_nodesOf (nodes mentions : List (String × List String))
    (rs : List Relationship) :
    nodes.foldl (fun p n => addNode p n.1 n.2) ⟨nodesOf mentions, rs⟩ =
      ⟨nodesOf (mentions ++ nodes), rs⟩ := by
  induction nodes generalizing mentions with
  | nil => simp
  | cons n nodes ih =>
    rw [List.foldl_cons, addNode_nodesOf, ih]
    simp

end Adding

namespace Hop

def relationship (h : Hop) : Relationship := step h.base h.type h.direction h.next

/-- The ends of a step are mentioned without labels. -/
def ends (h : Hop) : List (String × List String) := [(h.base, []), (h.next, [])]

end Hop

theorem foldl_addRelationship_nodesOf (hops : List Hop) (mentions : List (String × List String))
    (rs : List Relationship) :
    hops.foldl (fun p h => addRelationship p h.base h.type h.direction h.next)
        ⟨nodesOf mentions, rs⟩ =
      ⟨nodesOf (mentions ++ hops.flatMap Hop.ends), rs ++ hops.map Hop.relationship⟩ := by
  induction hops generalizing mentions rs with
  | nil => simp
  | cons h hops ih =>
    rw [List.foldl_cons, addRelationship, addNode_nodesOf, addNode_nodesOf, ih]
    simp [Hop.ends, Hop.relationship]

section Reading

/-- What a part of a text mentions: its node variables, then the ends of its steps. -/
def mentionsIn (part : List Char) : List (String × List String) :=
  found nodeAt? part ++ (found hopAt? part).flatMap Hop.ends

/-- What the parts of a text say. -/
def reading (parts : List (List Char)) : Pattern :=
  ⟨nodesOf (parts.flatMap mentionsIn),
    parts.flatMap (fun part => (found hopAt? part).map Hop.relationship)⟩

/-- Every variable in a part has a name. -/
structure Named (part : List Char) : Prop where
  nodes : ∀ node ∈ found nodeAt? part, node.1 ≠ ""
  ends : ∀ hop ∈ found hopAt? part, hop.base ≠ "" ∧ hop.next ≠ ""

/-- A part as it is added when its variables have names. -/
def withPart (p : Pattern) (part : List Char) : Pattern :=
  (found hopAt? part).foldl (fun p h => p.addRelationship h.base h.type h.direction h.next)
    ((found nodeAt? part).foldl (fun p n => p.addNode n.1 n.2) p)

theorem withPart_nodesOf (part : List Char) (mentions : List (String × List String))
    (rs : List Relationship) :
    withPart ⟨nodesOf mentions, rs⟩ part = ⟨nodesOf (mentions ++ mentionsIn part),
      rs ++ (found hopAt? part).map Hop.relationship⟩ := by
  rw [withPart, foldl_addNode_nodesOf, foldl_addRelationship_nodesOf, mentionsIn,
    List.append_assoc]

theorem foldl_withPart (parts : List (List Char)) : parts.foldl withPart empty = reading parts := by
  have h : ∀ mentions rs, parts.foldl withPart ⟨nodesOf mentions, rs⟩ =
      ⟨nodesOf (mentions ++ parts.flatMap mentionsIn),
        rs ++ parts.flatMap (fun part => (found hopAt? part).map Hop.relationship)⟩ := by
    induction parts with
    | nil => simp
    | cons part parts ih =>
      intro mentions rs
      rw [List.foldl_cons, withPart_nodesOf, ih]
      simp
  exact h [] []

variable {α : Type} {s : String} {p p' : Pattern} {part : List Char}

theorem addPart_eq_ok_iff :
    (addPart p part : Except (Failure α) _) = .ok p' ↔ Named part ∧ p' = withPart p part := by
  have hnode : ∀ (p : Pattern) node p', (addFoundNode part p node : Except (Failure α) _) = .ok p' ↔
      node.1 ≠ "" ∧ p' = p.addNode node.1 node.2 := by
    intro p node p'
    rw [addFoundNode]
    split
    · next h => simp [h]
    · next h => simp [h, eq_comm]
  have hhop : ∀ (p : Pattern) hop p', (addFoundHop part p hop : Except (Failure α) _) = .ok p' ↔
      (hop.base ≠ "" ∧ hop.next ≠ "") ∧
        p' = p.addRelationship hop.base hop.type hop.direction hop.next := by
    intro p hop p'
    rw [addFoundHop]
    split
    · next h => simpa using fun hb hn => absurd h (by simp [hb, hn])
    · next h => simp [not_or.mp h, eq_comm]
  simp only [addPart, Outcome.bind_eq_ok, Outcome.foldlM_eq_ok_iff hnode,
    Outcome.foldlM_eq_ok_iff hhop]
  constructor
  · rintro ⟨q, ⟨hnodes, rfl⟩, hends, rfl⟩
    exact ⟨⟨hnodes, hends⟩, rfl⟩
  · rintro ⟨⟨hnodes, hends⟩, rfl⟩
    exact ⟨_, ⟨hnodes, rfl⟩, hends, rfl⟩

/-- A text is read if every variable in it has a name and there is one. -/
theorem parse_eq_ok_iff :
    (parse s : Except (Failure α) _) = .ok p ↔
      (∀ part ∈ parts s.toList, Named part) ∧ (∃ part ∈ parts s.toList, mentionsIn part ≠ []) ∧
        p = reading (parts s.toList) := by
  have hempty : (reading (parts s.toList)).nodes.isEmpty = true ↔
      ∀ part ∈ parts s.toList, mentionsIn part = [] := by
    rw [List.isEmpty_iff, reading, nodesOf_eq_nil_iff, List.flatMap_eq_nil_iff]
  have hparts : ∀ q, ((parts s.toList).foldlM addPart empty : Except (Failure α) _) = .ok q ↔
      (∀ part ∈ parts s.toList, Named part) ∧ q = reading (parts s.toList) := by
    intro q
    have hstep : ∀ (p : Pattern) part p', (addPart p part : Except (Failure α) _) = .ok p' ↔
        Named part ∧ p' = withPart p part := fun _ _ _ => addPart_eq_ok_iff
    rw [Outcome.foldlM_eq_ok_iff hstep, foldl_withPart]
  rw [parse, Outcome.bind_eq_ok]
  simp only [hparts]
  constructor
  · rintro ⟨q, ⟨hnamed, rfl⟩, h⟩
    split at h
    · cases h
    · next hne =>
      cases h
      rw [hempty] at hne
      exact ⟨hnamed, by simpa using hne, rfl⟩
  · rintro ⟨hnamed, ⟨part, hpart, hne⟩, rfl⟩
    refine ⟨_, ⟨hnamed, rfl⟩, ?_⟩
    rw [if_neg (fun h => hne (hempty.mp h part hpart))]
    rfl

theorem addPart_eq_error {f : Failure α} (h : addPart p part = .error f) :
    ∃ fault, f = .badPattern fault := by
  have hnode : ∀ (p : Pattern) node, addFoundNode part p node = .error f →
      ∃ fault, f = .badPattern fault := by
    intro p node h
    rw [addFoundNode] at h
    split at h
    · cases h
      exact ⟨_, rfl⟩
    · cases h
  have hhop : ∀ (p : Pattern) hop, addFoundHop part p hop = .error f →
      ∃ fault, f = .badPattern fault := by
    intro p hop h
    rw [addFoundHop] at h
    split at h
    · cases h
      exact ⟨_, rfl⟩
    · cases h
  rcases Outcome.bind_eq_error.mp h with h | ⟨q, -, h⟩
  · obtain ⟨q, node, -, h⟩ := Outcome.foldlM_eq_error h
    exact hnode q node h
  · obtain ⟨q', hop, -, h⟩ := Outcome.foldlM_eq_error h
    exact hhop q' hop h

/-- What is wrong with a text that is not read is wrong with it as a pattern. -/
theorem parse_eq_error {f : Failure α} (h : parse s = .error f) : ∃ fault, f = .badPattern fault := by
  rcases Outcome.bind_eq_error.mp h with h | ⟨q, -, h⟩
  · obtain ⟨q, part, -, h⟩ := Outcome.foldlM_eq_error h
    exact addPart_eq_error h
  · split at h
    · cases h
      exact ⟨_, rfl⟩
    · cases h

end Reading

end PatternCardinality.Pattern
