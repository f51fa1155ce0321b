import PatternCardinality.Proofs.Pattern.Built
import PatternCardinality.Proofs.Pattern.Grammar

/-!
# Printed patterns

A pattern is printed as a list of clauses: first the node variables that have labels or stand in no
relationship, then the relationships. If all names in it are words, this is a text of the grammar,
and reading it gives the pattern back, with the node variables in the order of the clauses.
-/

namespace PatternCardinality.Pattern

open Text

section Additions

/-- One more node variable or relationship for a pattern. -/
inductive Addition where
  | node (name : String) (labels : List String)
  | relationship (base : String) (type : Option String) (direction : Direction) (next : String)

def Addition.to (p : Pattern) : Addition → Pattern
  | node name labels => p.addNode name labels
  | relationship base type direction next => p.addRelationship base type direction next

/-- The pattern that additions make, from the empty one on. -/
def ofAdditions (additions : List Addition) : Pattern := additions.foldl Addition.to empty

theorem Proper.to {p : Pattern} (h : p.Proper) (a : Addition) : (a.to p).Proper := by
  cases a with
  | node name labels => exact h.addNode name labels
  | relationship base type direction next => exact h.addRelationship base next type direction

theorem proper_ofAdditions (additions : List Addition) : (ofAdditions additions).Proper := by
  have h : ∀ p : Pattern, p.Proper → (additions.foldl Addition.to p).Proper := by
    induction additions with
    | nil => exact fun p hp => hp
    | cons a additions ih => exact fun p hp => ih _ (hp.to a)
  exact h empty Built.empty.proper

end Additions

/-- A node variable that is written with words. -/
structure NodeSpelled (n : NodeVariable) : Prop where
  name : IsWord n.name
  labels : ∀ l ∈ n.labels.toList, IsWord l

instance : DecidablePred NodeSpelled := fun n =>
  decidable_of_iff (IsWord n.name ∧ ∀ l ∈ n.labels.toList, IsWord l)
    ⟨fun h => ⟨h.1, h.2⟩, fun h => ⟨h.name, h.labels⟩⟩

/-- A relationship that is written with words. -/
structure RelationshipSpelled (r : Relationship) : Prop where
  source : IsWord r.source
  target : IsWord r.target
  type : ∀ t ∈ r.type, IsWord t

/-- The names of variables, labels and types are words. -/
structure Spelled (p : Pattern) : Prop where
  nodes : ∀ n ∈ p.nodes, NodeSpelled n
  types : ∀ r ∈ p.relationships, ∀ t ∈ r.type, IsWord t

section Clauses

/-- A node variable with a clause of its own: relationships do not tell all about it. -/
def alone (rs : List Relationship) (n : NodeVariable) : Bool :=
  !n.labels.isEmpty || !rs.any (·.touches n.name)

def aloneNodes (p : Pattern) : List NodeVariable := p.nodes.filter (alone p.relationships)

theorem text_eq (p : Pattern) :
    p.text = ", ".intercalate (p.aloneNodes.map nodeText ++ p.relationships.map (·.text)) := rfl

def nodeChain (n : NodeVariable) (h : NodeSpelled n) : Chain :=
  ⟨⟨⟨n.name, h.name⟩, n.labels.toList.attachWith IsWord h.labels⟩, []⟩

def Bracket.ofType : (type : Option String) → (∀ t ∈ type, IsWord t) → Bracket
  | none, _ => .absent
  | some t, h => .typed t (h t rfl)

def relationshipChain (r : Relationship) (h : RelationshipSpelled r) : Chain :=
  ⟨⟨⟨r.source, h.source⟩, []⟩,
    [(⟨.ofType r.type h.type, if r.directed then .outgoing else .both⟩, ⟨⟨r.target, h.target⟩, []⟩)]⟩

/-- The ends of a relationship are mentioned without labels. -/
def endsOf (r : Relationship) : List (String × List String) := [(r.source, []), (r.target, [])]

section One

variable {n : NodeVariable} {r : Relationship}

theorem text_nodeChain (h : NodeSpelled n) : (nodeChain n h).text = (nodeText n).toList := by
  simp [nodeChain, Chain.text, Mention.text, Mention.node, nodeForm, nodeText,
    String.toList_join, List.flatMap_map]

theorem mentions_nodeChain (h : NodeSpelled n) :
    (nodeChain n h).mentions.map Mention.node = [(n.name, n.labels.toList)] := by
  simp [nodeChain, Chain.mentions, Mention.node]

theorem text_relationshipChain (h : RelationshipSpelled r) :
    (relationshipChain r h).text = r.text.toList := by
  obtain ⟨source, target, type, directed⟩ := r
  cases type <;> cases directed <;>
    simp [relationshipChain, Chain.text, Mention.text, Mention.node, nodeForm, Connector.text,
      Bracket.ofType, Bracket.text, Relationship.text]

theorem mentions_relationshipChain (h : RelationshipSpelled r) :
    (relationshipChain r h).mentions.map Mention.node = endsOf r := rfl

theorem relationships_relationshipChain (h : RelationshipSpelled r) :
    (relationshipChain r h).relationships = [r] := by
  obtain ⟨source, target, type, directed⟩ := r
  cases type <;> cases directed <;> rfl

end One

theorem map_pmap_eq {β γ δ : Type} {P : β → Prop} {f : (b : β) → P b → γ} {g : γ → δ} {k : β → δ}
    (h : ∀ b hb, g (f b hb) = k b) {l : List β} (H : ∀ b ∈ l, P b) :
    (l.pmap f H).map g = l.map k := by
  simp [List.map_pmap, h, List.pmap_eq_map]

variable {p : Pattern}

theorem Spelled.relationshipSpelled (hs : p.Spelled) (hp : p.Proper) {r : Relationship}
    (hr : r ∈ p.relationships) : RelationshipSpelled r := by
  have hname : ∀ v ∈ p.names, IsWord v := by
    intro v hv
    obtain ⟨n, hn, rfl⟩ := List.mem_map.mp hv
    exact (hs.nodes n hn).name
  exact ⟨hname _ (hp.source_mem r hr), hname _ (hp.target_mem r hr), hs.types r hr⟩

/-- The clauses of a printed pattern. -/
def clauses (p : Pattern) (hp : p.Proper) (hs : p.Spelled) : List Chain :=
  p.aloneNodes.pmap nodeChain (fun n hn => hs.nodes n (List.mem_of_mem_filter hn)) ++
    p.relationships.pmap relationshipChain (fun _ hr => hs.relationshipSpelled hp hr)

/-- What the clauses mention: the variables that stand alone, and the ends of relationships. -/
def mentions (p : Pattern) : List (String × List String) :=
  p.aloneNodes.map (fun n => (n.name, n.labels.toList)) ++ p.relationships.flatMap endsOf

theorem text_clauses (hp : p.Proper) (hs : p.Spelled) :
    p.text.toList = [',', ' '].intercalate ((p.clauses hp hs).map Chain.text) := by
  rw [text_eq, String.toList_intercalate, clauses, List.map_append, List.map_append,
    map_pmap_eq (fun _ h => text_nodeChain h), map_pmap_eq (fun _ h => text_relationshipChain h),
    List.map_map, List.map_map]
  rfl

theorem mentions_clauses (hp : p.Proper) (hs : p.Spelled) :
    ((p.clauses hp hs).flatMap Chain.mentions).map Mention.node = p.mentions := by
  rw [clauses, List.flatMap_append, List.map_append, List.map_flatMap, List.map_flatMap,
    List.flatMap_def, List.flatMap_def,
    map_pmap_eq (f := nodeChain) (fun _ h => mentions_nodeChain h),
    map_pmap_eq (f := relationshipChain) (fun _ h => mentions_relationshipChain h),
    ← List.flatMap_def, ← List.flatMap_def, ← List.map_eq_flatMap, mentions]

theorem relationships_clauses (hp : p.Proper) (hs : p.Spelled) :
    (p.clauses hp hs).flatMap Chain.relationships = p.relationships := by
  have hnone : ∀ n (h : NodeSpelled n), (nodeChain n h).relationships = [] := fun _ _ => rfl
  rw [clauses, List.flatMap_append, List.flatMap_def, List.flatMap_def, map_pmap_eq hnone,
    map_pmap_eq (fun _ h => relationships_relationshipChain h)]
  simp [← List.flatMap_def]

theorem clauses_ne_nil (hp : p.Proper) (hs : p.Spelled) (h : p.nodes ≠ []) :
    p.clauses hp hs ≠ [] := by
  obtain ⟨n, hn⟩ := List.exists_mem_of_ne_nil _ h
  intro hnil
  obtain ⟨hnodes, hrelationships⟩ := List.append_eq_nil_iff.mp hnil
  rw [List.pmap_eq_nil_iff] at hnodes hrelationships
  have halone : alone p.relationships n = true := by simp [alone, hrelationships]
  simpa [halone] using List.filter_eq_nil_iff.mp hnodes n hn

end Clauses

section Reading

def unspaced (c : Chain) : Phrase := ⟨⟨[], by simp⟩, c, ⟨[], by simp⟩⟩

def spaced (c : Chain) : Phrase :=
  ⟨⟨[' '], List.forall_mem_singleton.mpr rfl⟩, c, ⟨[], by simp⟩⟩

/-- Chains with a comma and a blank between them are a text of the grammar. -/
theorem written_spaced (c : Chain) (cs : List Chain) :
    (written (unspaced c) (cs.map spaced)).toList =
      [',', ' '].intercalate ((c :: cs).map Chain.text) := by
  induction cs generalizing c with
  | nil => simp [written, Phrase.text, unspaced]
  | cons d cs ih =>
    have hd := ih d
    simp only [written, String.toList_ofList, Phrase.text, unspaced, List.nil_append,
      List.append_nil] at hd ⊢
    rw [List.map_cons] at hd
    rw [List.map_cons, List.map_cons, List.map_cons, List.intercalate_cons_cons, ← hd]
    simp [spaced]

variable {α : Type} {p : Pattern}

theorem parse_text_eq (hp : p.Proper) (hs : p.Spelled) (h : p.nodes ≠ []) :
    (parse p.text : Except (Failure α) _) = .ok ⟨nodesOf p.mentions, p.relationships⟩ := by
  have htext := text_clauses hp hs
  have hmeaning : meaning (p.clauses hp hs) = ⟨nodesOf p.mentions, p.relationships⟩ := by
    rw [meaning, mentions_clauses, relationships_clauses]
  rw [← hmeaning]
  obtain ⟨c, cs, hclauses⟩ := List.exists_cons_of_ne_nil (clauses_ne_nil hp hs h)
  rw [hclauses, ← written_spaced] at htext
  rw [String.toList_inj.mp htext, written_eq_separated, parse_separated_eq_ok_iff, ← List.map_cons,
    filterMap_chain?_phrases, hclauses]
  simp [Function.comp_def, spaced, unspaced]

end Reading

section Nodes

variable {p : Pattern}

theorem mem_endsOf {r : Relationship} {e : String × List String} :
    e ∈ endsOf r ↔ e.2 = [] ∧ r.touches e.1 = true := by
  obtain ⟨v, labels⟩ := e
  simp only [endsOf, List.mem_cons, List.not_mem_nil, or_false, Prod.mk.injEq,
    Relationship.touches, decide_eq_true_eq]
  rw [← or_and_right, and_comm, eq_comm (a := v), eq_comm (a := v)]

theorem mem_mentions {e : String × List String} :
    e ∈ p.mentions ↔
      (∃ n ∈ p.nodes, alone p.relationships n = true ∧ e = (n.name, n.labels.toList)) ∨
        e.2 = [] ∧ ∃ r ∈ p.relationships, r.touches e.1 = true := by
  simp only [mentions, aloneNodes, List.mem_append, List.mem_map, List.mem_filter, List.mem_flatMap,
    mem_endsOf, and_assoc, eq_comm (b := e)]
  refine or_congr_right ⟨?_, ?_⟩
  · rintro ⟨r, hr, hlabels, htouches⟩
    exact ⟨hlabels, r, hr, htouches⟩
  · rintro ⟨hlabels, r, hr, htouches⟩
    exact ⟨r, hr, hlabels, htouches⟩

theorem mem_names_mentions (hp : p.Proper) {v : String} :
    v ∈ p.mentions.map (·.1) ↔ v ∈ p.names := by
  rw [List.mem_map]
  constructor
  · rintro ⟨e, he, rfl⟩
    rcases mem_mentions.mp he with ⟨n, hn, -, rfl⟩ | ⟨-, r, hr, htouches⟩
    · exact List.mem_map.mpr ⟨n, hn, rfl⟩
    · rcases of_decide_eq_true htouches with h | h
      · exact h ▸ hp.source_mem r hr
      · exact h ▸ hp.target_mem r hr
  · intro hv
    obtain ⟨n, hn, rfl⟩ := List.mem_map.mp hv
    by_cases halone : alone p.relationships n = true
    · exact ⟨_, mem_mentions.mpr (.inl ⟨n, hn, halone, rfl⟩), rfl⟩
    · have htouched : ∃ r ∈ p.relationships, r.touches n.name = true := by
        simp only [alone, Bool.or_eq_true, not_or] at halone
        simpa using halone.2
      exact ⟨(n.name, []), mem_mentions.mpr (.inr ⟨rfl, htouched⟩), rfl⟩

/-- A variable is mentioned with its labels, since it stands alone if it has any. -/
theorem labelsOf_mentions (hp : p.Proper) {n : NodeVariable} (hn : n ∈ p.nodes) :
    labelsOf p.mentions n.name = n.labels := by
  apply OrderedSet.ext
  intro l
  rw [mem_labelsOf]
  constructor
  · rintro ⟨labels, hmem, hl⟩
    rcases mem_mentions.mp hmem with ⟨m, hm, -, heq⟩ | ⟨rfl, -⟩
    · obtain ⟨hname, rfl⟩ := Prod.mk.inj heq
      rwa [List.inj_on_of_nodup_map hp.distinct hn hm hname]
    · cases hl
  · intro hl
    have hne : n.labels.isEmpty = false := by
      rw [Bool.eq_false_iff]
      exact fun hempty => OrderedSet.isEmpty_iff.mp hempty l hl
    have halone : alone p.relationships n = true := by simp [alone, hne]
    exact ⟨_, mem_mentions.mpr (.inl ⟨n, hn, halone, rfl⟩), hl⟩

theorem map_labelsOf_mentions (hp : p.Proper) {l : List NodeVariable} (h : l ⊆ p.nodes) :
    (l.map (·.name)).map (fun v => (⟨v, labelsOf p.mentions v⟩ : NodeVariable)) = l := by
  rw [List.map_map]
  refine (List.map_congr_left (fun n hn => ?_)).trans (List.map_id l)
  simp [labelsOf_mentions hp (h hn)]

/-- The variables are read back in another order. -/
theorem nodesOf_mentions_perm (hp : p.Proper) : (nodesOf p.mentions).Perm p.nodes := by
  have hnames : (p.mentions.map (·.1)).eraseDups.Perm p.names := by
    refine (List.perm_ext_iff_of_nodup (nodup_eraseDups _) hp.distinct).mpr (fun v => ?_)
    rw [List.mem_eraseDups, mem_names_mentions hp]
  have h := hnames.map (fun v => (⟨v, labelsOf p.mentions v⟩ : NodeVariable))
  rwa [names, map_labelsOf_mentions hp (List.Subset.refl _)] at h

/-- Those that stand alone keep their order. -/
theorem filter_alone_nodesOf (hp : p.Proper) :
    (nodesOf p.mentions).filter (alone p.relationships) = p.aloneNodes := by
  have hsub : p.aloneNodes ⊆ p.nodes := List.filter_subset_self _
  have hnodup : (p.aloneNodes.map (·.name)).Nodup := hp.distinct.sublist (List.filter_sublist.map _)
  -- the ends of relationships that are mentioned nowhere else do not stand alone
  have hends : ∀ v ∈ p.names, v ∉ p.aloneNodes.map (·.name) →
      alone p.relationships ⟨v, labelsOf p.mentions v⟩ = false := by
    intro v hv hnot
    obtain ⟨n, hn, rfl⟩ := List.mem_map.mp hv
    rw [labelsOf_mentions hp hn, Bool.eq_false_iff]
    exact fun halone => hnot (List.mem_map_of_mem (List.mem_filter.mpr ⟨hn, halone⟩))
  have hmem : ∀ v ∈ (p.relationships.flatMap endsOf).map (·.1), v ∈ p.names := by
    intro v hv
    obtain ⟨e, he, rfl⟩ := List.mem_map.mp hv
    exact (mem_names_mentions hp).mp (List.mem_map_of_mem (List.mem_append_right _ he))
  have hnone : ∀ names : List String,
      (∀ v ∈ names, alone p.relationships ⟨v, labelsOf p.mentions v⟩ = false) →
      (names.map (fun v => (⟨v, labelsOf p.mentions v⟩ : NodeVariable))).filter
        (alone p.relationships) = [] := by
    intro names h
    refine List.filter_eq_nil_iff.mpr (fun n hn => ?_)
    obtain ⟨v, hv, rfl⟩ := List.mem_map.mp hn
    simp [h v hv]
  have hfirst : p.mentions.map (·.1) =
      p.aloneNodes.map (·.name) ++ (p.relationships.flatMap endsOf).map (·.1) := by
    rw [mentions, List.map_append, List.map_map]
    rfl
  rw [nodesOf, hfirst, List.eraseDups_append, eraseDups_of_nodup hnodup, List.map_append,
    map_labelsOf_mentions hp hsub, List.filter_append, hnone, List.append_nil]
  · simp [aloneNodes]
  · intro v hv
    rw [List.mem_eraseDups, List.removeAll, List.mem_filter] at hv
    exact hends v (hmem v hv.1) (by simpa using hv.2)

end Nodes

/-- A pattern that is written with words can be read back from its text, up to the order of its
variables, and has the same text afterwards. -/
theorem parse_text {α : Type} {p : Pattern}
    (h : (∃ additions, ofAdditions additions = p) ∨
      ∃ s, (parse s : Except (Failure α) _) = .ok p)
    (hne : p.nodes ≠ []) (hs : p.Spelled) :
    ∃ p', (parse p.text : Except (Failure α) _) = .ok p' ∧ p'.nodes.Perm p.nodes ∧
      p'.relationships = p.relationships ∧ p'.text = p.text := by
  have hp : p.Proper := by
    rcases h with ⟨additions, rfl⟩ | ⟨s, hread⟩
    · exact proper_ofAdditions additions
    · exact (parse_built hread).1.proper
  refine ⟨_, parse_text_eq hp hs hne, nodesOf_mentions_perm hp, rfl, ?_⟩
  rw [text_eq, aloneNodes, filter_alone_nodesOf hp, ← text_eq]

/-- A loop, two relationships between the same variables, and one variable without any. -/
def mixed : Pattern := ofAdditions
  [.relationship "b" none .both "b", .relationship "b" (some "KNOWS") .incoming "a",
    .relationship "a" (some "LIKES") .outgoing "b", .node "c" [], .node "a" ["Person", "City"]]

theorem parse_text_of_mixed : mixed.nodes ≠ [] ∧ mixed.Spelled ∧
    ∃ p', (parse mixed.text : Except (Failure Float) _) = .ok p' ∧ p'.nodes.Perm mixed.nodes ∧
      p'.relationships = mixed.relationships ∧ p'.text = mixed.text := by
  have hne : mixed.nodes ≠ [] := by decide
  have hs : mixed.Spelled := ⟨by decide, by decide⟩
  exact ⟨hne, hs, parse_text (.inl ⟨_, rfl⟩) hne hs⟩

example : mixed.text = "(a:City:Person), (c), (b)--(b), (a)-[:KNOWS]->(b), (a)-[:LIKES]->(b)" := by
  decide

end PatternCardinality.Pattern
