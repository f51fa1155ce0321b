import PatternCardinality.Proofs.Json.Legible
import PatternCardinality.Proofs.Json.Schema
import PatternCardinality.Proofs.Query.WellFormed
import PatternCardinality.Query.Json

/-!
# Stored queries

A query is stored as JSON and read back. An end of a range without a limit is left out, and what is
left out is read as no limit on that side. A limit on the wrong side, as infinity is at the lower
end, is therefore not read back as it was; everything else is.
-/

namespace PatternCardinality

open Json

namespace Bound

/-- A number of the end stands for no infinity. -/
def Genuine (b : Bound Float) : Prop := ∀ x, b = .number x → Double.toBound x = .number x

theorem genuine_toBound (x : Float) : (Double.toBound x).Genuine := by
  intro y hy
  have heq : x = y := by
    unfold Double.toBound at hy
    split at hy
    · cases hy
    · split at hy
      · cases hy
      · exact number.inj hy
  rw [← heq, hy, heq]

theorem Genuine.greatest {b c : Bound Float} (hb : b.Genuine) (hc : c.Genuine) :
    (b.greatest c).Genuine := by
  rw [Bound.greatest]
  split
  · exact hb
  · exact hc

theorem Genuine.least {b c : Bound Float} (hb : b.Genuine) (hc : c.Genuine) :
    (b.least c).Genuine := by
  rw [Bound.least]
  split
  · exact hb
  · exact hc

end Bound

namespace Predicate

/-- The predicate that is read back: where no number ends the range, nothing limits it. -/
def restored : Predicate Float → Predicate Float
  | text s => text s
  | range low high => range (if low.isUnlimited then .lowest else low)
      (if high.isUnlimited then .highest else high)

/-- Limits stand on their own sides. -/
def Sided : Predicate Float → Prop
  | text _ => True
  | range low high => low ≠ .highest ∧ high ≠ .lowest

theorem restored_eq_iff {p : Predicate Float} : p.restored = p ↔ p.Sided := by
  cases p with
  | text s => simp [restored, Sided]
  | range low high => cases low <;> cases high <;> simp [restored, Sided, Bound.isUnlimited]

/-- The ends of a range. -/
def bounds : Predicate Float → List (Bound Float)
  | text _ => []
  | range low high => [low, high]

/-- Numbers at the ends stand for no infinity. -/
def Genuine (p : Predicate Float) : Prop := ∀ b ∈ p.bounds, b.Genuine

theorem genuine_text (s : String) : (text s).Genuine := by simp [Genuine, bounds]

theorem genuine_range {low high : Bound Float} :
    (range low high).Genuine ↔ low.Genuine ∧ high.Genuine := by simp [Genuine, bounds]

theorem genuine_between {low high : Bound Float} {p : Predicate Float} (hlow : low.Genuine)
    (hhigh : high.Genuine) (h : between low high = .ok p) : p.Genuine := by
  rw [between] at h
  split at h
  · cases h
  · cases h
    exact genuine_range.mpr ⟨hlow, hhigh⟩

theorem genuine_merge {p p' merged : Predicate Float} (hp : p.Genuine) (hp' : p'.Genuine)
    (h : p.merge p' = .ok merged) : merged.Genuine := by
  cases p with
  | text s =>
    cases p' with
    | text s' =>
      rw [merge] at h
      split at h
      · cases h
        exact genuine_text s
      · cases h
    | range low high => cases h
  | range low high =>
    cases p' with
    | text s => cases h
    | range low' high' =>
      obtain ⟨hlow, hhigh⟩ := genuine_range.mp hp
      obtain ⟨hlow', hhigh'⟩ := genuine_range.mp hp'
      exact genuine_between (hlow.greatest hlow') (hhigh.least hhigh') h

/-- Every number at the ends is read back from its text. -/
def Survives (p : Predicate Float) : Prop := ∀ x, .number x ∈ p.bounds → Json.Survives (.float x)

theorem legible_toJson {p : Predicate Float} (h : p.Survives) : Legible p.toJson := by
  have hend : ∀ name, ∀ b ∈ p.bounds, ∀ m ∈ endMember name b, Legible m.2 := by
    intro name b hb m hm
    cases b with
    | lowest => cases hm
    | highest => cases hm
    | number x =>
      obtain rfl := List.mem_singleton.mp hm
      exact h x hb
  cases p with
  | text s => simp [toJson, Legible, LegibleMembers]
  | range low high =>
    simp only [toJson, Legible, LegibleMembers, legibleMembers_iff, and_true]
    intro m hm
    rcases List.mem_append.mp hm with hm | hm
    · exact hend "low" low (by simp [bounds]) m hm
    · exact hend "high" high (by simp [bounds]) m hm

/-- What is written for an end, and read again for it. -/
def written? : Bound Float → Option Json
  | .number x => some (.float x)
  | _ => none

theorem asRecord?_ends (low high : Bound Float) :
    asRecord? ["low", "high"] (.object (endMember "low" low ++ endMember "high" high)) =
      some [written? low, written? high] := by
  cases low <;> cases high <;> simp [asRecord?, endMember, written?]

theorem ofJson?_toJson {p : Predicate Float} (h : p.Genuine) :
    ofJson? p.toJson = some p.restored := by
  cases p with
  | text s => rfl
  | range low high =>
    have hread : ∀ b : Bound Float, b.Genuine → ∀ default : Bound Float,
        defaulted? default (fun j => (asFloat? j).map Double.toBound) (written? b) =
          some (if b.isUnlimited then default else b) := by
      intro b hb default
      cases b with
      | lowest => rfl
      | highest => rfl
      | number x => exact congrArg some (hb x rfl)
    obtain ⟨hlow, hhigh⟩ := genuine_range.mp h
    simp [ofJson?, ofJsonBy?, toJson, asCase?, asRecord?_ends, hread low hlow, hread high hhigh,
      restored]

end Predicate

section Patterns

theorem NodeVariable.ofJson?_toJson (n : NodeVariable) : NodeVariable.ofJson? n.toJson = some n := by
  have hlabels : asList? asText? (.array (n.labels.toList.map .text)) =
      some (n.labels.toList.map id) := asList?_map (fun _ _ => rfl)
  simp [NodeVariable.ofJson?, NodeVariable.toJson, asRecord?, required?, defaulted?, asText?, hlabels,
    OrderedSet.ofList_toList]

theorem Relationship.ofJson?_toJson (r : Relationship) :
    Relationship.ofJson? r.toJson = some r := by
  obtain ⟨source, target, type, directed⟩ := r
  cases type <;>
    simp [Relationship.ofJson?, Relationship.toJson, asRecord?, required?, defaulted?, asText?,
      asOptional?, asBool?]

theorem Pattern.ofJson?_toJson (p : Pattern) : Pattern.ofJson? p.toJson = some p := by
  have hnodes := asList?_map (g := id) (l := p.nodes) (fun n _ => NodeVariable.ofJson?_toJson n)
  have hrelationships :=
    asList?_map (g := id) (l := p.relationships) (fun r _ => Relationship.ofJson?_toJson r)
  simp [Pattern.ofJson?, Pattern.toJson, asRecord?, defaulted?, hnodes, hrelationships]

theorem Pattern.legible_toJson (p : Pattern) : Legible p.toJson := by
  have htype : ∀ r : Relationship, Legible (r.type.elim .null .text) := by
    intro r
    cases r.type <;> simp [Legible]
  simp [Pattern.toJson, Legible, LegibleMembers, legibleItems_iff, NodeVariable.toJson,
    Relationship.toJson, htype]

end Patterns

namespace Predicate

/-- Predicates that are made of a text, of two numbers or of a comparison with a number. -/
inductive Made : Predicate Float → Prop
  | value (s : String) : Made (text s)
  | range {low high p} (made : between (Double.toBound low) (Double.toBound high) = .ok p) : Made p
  | equalTo {x p} (made : equalTo (Double.toBound x) = .ok p) : Made p
  | compared {op x p} (made : compared op (Double.toBound x) = .ok p) : Made p

theorem Made.genuine {p : Predicate Float} (h : Made p) : p.Genuine := by
  have hlowest : Bound.lowest.Genuine := fun x hx => by cases hx
  have hhighest : Bound.highest.Genuine := fun x hx => by cases hx
  cases h with
  | value s => exact genuine_text s
  | range made => exact genuine_between (Bound.genuine_toBound _) (Bound.genuine_toBound _) made
  | equalTo made => exact genuine_between (Bound.genuine_toBound _) (Bound.genuine_toBound _) made
  | @compared op x _ made =>
    have hx := Bound.genuine_toBound x
    rw [Predicate.compared] at made
    split at made
    · exact genuine_between hlowest hx made
    · split at made
      · exact genuine_between hx hhighest made
      · split at made
        · exact genuine_between hx hx made
        · cases made

end Predicate

namespace Query

/-- Queries that are read from texts, or made of a pattern, with predicates added to them. -/
inductive Assembled : Query Float → Prop
  | parsed {pattern conditions q} (read : Query.parse pattern conditions = .ok q) : Assembled q
  | ofPattern (p : Pattern) : Assembled (ofPattern p)
  | nodePredicate {q q' name property predicate} (before : Assembled q)
      (made : Predicate.Made predicate)
      (added : q.addNodePredicate name property predicate = .ok q') : Assembled q'
  | relationshipPredicate {q q' name property predicate} (before : Assembled q)
      (made : Predicate.Made predicate)
      (added : q.addRelationshipPredicate name property predicate = .ok q') : Assembled q'

/-- The predicates in a table. -/
def storedIn (table : OrderedMap String (Predicates Float)) : List (Predicate Float) :=
  table.values.flatMap OrderedMap.values

/-- The predicates of a query. -/
def stored (q : Query Float) : List (Predicate Float) :=
  storedIn q.nodePredicates ++ storedIn q.relationshipPredicates

def restoredTable (table : OrderedMap String (Predicates Float)) :
    OrderedMap String (Predicates Float) :=
  table.mapValues (fun _ predicates => predicates.mapValues (fun _ p => p.restored))

/-- The query that is read back. -/
def restored (q : Query Float) : Query Float :=
  ⟨q.pattern, restoredTable q.nodePredicates, restoredTable q.relationshipPredicates⟩

variable {table table' : OrderedMap String (Predicates Float)} {owner property : String}
  {predicate p : Predicate Float} {q q' : Query Float}

theorem mem_storedIn_iff : p ∈ storedIn table ↔
    ∃ owner predicates property, table.get? owner = some predicates ∧
      predicates.get? property = some p := by
  simp only [storedIn, OrderedMap.values, List.mem_flatMap, List.mem_map, Prod.exists,
    ← OrderedMap.mem_entries_iff]
  constructor
  · rintro ⟨_, ⟨owner, predicates, hentry, rfl⟩, property, _, hp, rfl⟩
    exact ⟨owner, predicates, property, hentry, hp⟩
  · rintro ⟨owner, predicates, property, hentry, hp⟩
    exact ⟨predicates, ⟨owner, predicates, hentry, rfl⟩, property, p, hp, rfl⟩

/-- What holds of all predicates, and of both at once where it holds of two, holds after one more is
added. -/
theorem forall_storedIn_added {P : Predicate Float → Prop}
    (hmerge : ∀ a b c, P a → P b → a.merge b = .ok c → P c)
    (h : added table owner property predicate = .ok table') (htable : ∀ p ∈ storedIn table, P p)
    (hnew : P predicate) : ∀ p ∈ storedIn table', P p := by
  have hold : ∀ o predicates, table.get? o = some predicates →
      ∀ name q, predicates.get? name = some q → P q :=
    fun o predicates ho name q hq => htable q (mem_storedIn_iff.mpr ⟨o, predicates, name, ho, hq⟩)
  have hbefore : ∀ name q, (table.getD owner ∅).get? name = some q → P q := by
    intro name q hq
    rw [OrderedMap.getD] at hq
    cases howner : table.get? owner with
    | none => simp [howner] at hq
    | some predicates =>
      rw [howner] at hq
      exact hold owner predicates howner name q hq
  have hinsert : ∀ merged, P merged → ∀ p ∈ storedIn
      (table.insert owner ((table.getD owner ∅).insert property merged)), P p := by
    intro merged hmerged p hp
    obtain ⟨o, predicates, name, ho, hname⟩ := mem_storedIn_iff.mp hp
    rw [OrderedMap.get?_insert] at ho
    split at ho
    · cases ho
      rw [OrderedMap.get?_insert] at hname
      split at hname
      · cases hname
        exact hmerged
      · exact hbefore name p hname
    · exact hold o predicates ho name p hname
  obtain ⟨merged, rfl, rfl | ⟨existing, hexisting, hmerged⟩⟩ := added_eq_ok h
  · exact hinsert merged hnew
  · exact hinsert merged (hmerge _ _ _ (hbefore property existing hexisting) hnew hmerged)

/-- The predicates of a query have numbers at their ends that stand for no infinity. -/
def Genuine (q : Query Float) : Prop := ∀ p ∈ q.stored, p.Genuine

theorem genuine_ofPattern (p : Pattern) : Genuine (ofPattern p) := by
  intro c hc
  cases hc

theorem Genuine.addNodePredicate (h : q.Genuine) (hnew : predicate.Genuine)
    (hadd : q.addNodePredicate owner property predicate = .ok q') : q'.Genuine := by
  obtain ⟨hnodes, hrelationships⟩ := List.forall_mem_append.mp h
  obtain ⟨-, table, htable, rfl⟩ := addNodePredicate_eq_ok hadd
  refine List.forall_mem_append.mpr ⟨?_, hrelationships⟩
  exact forall_storedIn_added (fun _ _ _ => Predicate.genuine_merge) htable hnodes hnew

theorem Genuine.addRelationshipPredicate (h : q.Genuine) (hnew : predicate.Genuine)
    (hadd : q.addRelationshipPredicate owner property predicate = .ok q') : q'.Genuine := by
  obtain ⟨hnodes, hrelationships⟩ := List.forall_mem_append.mp h
  obtain ⟨-, table, htable, rfl⟩ := addRelationshipPredicate_eq_ok hadd
  refine List.forall_mem_append.mpr ⟨hnodes, ?_⟩
  exact forall_storedIn_added (fun _ _ _ => Predicate.genuine_merge) htable hrelationships hnew

theorem Genuine.addCondition {v : PropertyValue} (h : q.Genuine)
    (hadd : q.addCondition owner property v = .ok q') : q'.Genuine := by
  obtain ⟨predicate, hpredicate, hadd⟩ := Outcome.bind_eq_ok.mp hadd
  have hmade : predicate.Made := by
    cases v with
    | text s =>
      cases hpredicate
      exact .value s
    | number x => exact .equalTo hpredicate
  split at hadd
  · exact h.addNodePredicate hmade.genuine hadd
  · exact h.addRelationshipPredicate hmade.genuine hadd

theorem genuine_of_parse {pattern : String} {conditions : Option String}
    (h : Query.parse pattern conditions = .ok q) : q.Genuine :=
  parse_invariant h (fun p _ => genuine_ofPattern p) (fun _ _ _ _ _ hq hadd => hq.addCondition hadd)

theorem Assembled.genuine (h : Assembled q) : q.Genuine := by
  induction h with
  | parsed read => exact genuine_of_parse read
  | ofPattern p => exact genuine_ofPattern p
  | nodePredicate _ made added ih => exact ih.addNodePredicate made.genuine added
  | relationshipPredicate _ made added ih => exact ih.addRelationshipPredicate made.genuine added

theorem legible_tableToJson (h : ∀ p ∈ storedIn table, p.Survives) :
    Legible (tableToJson table) := by
  simp only [tableToJson, Predicates.toJson, Legible, legibleMembers_iff, List.mem_map]
  rintro _ ⟨⟨owner, predicates⟩, howner, rfl⟩
  simp only [Legible, legibleMembers_iff, List.mem_map]
  rintro _ ⟨⟨property, p⟩, hproperty, rfl⟩
  refine Predicate.legible_toJson (h p (mem_storedIn_iff.mpr ?_))
  exact ⟨owner, predicates, property, OrderedMap.mem_entries_iff.mp howner,
    OrderedMap.mem_entries_iff.mp hproperty⟩

theorem legible_toJson (h : ∀ p ∈ q.stored, p.Survives) : Legible q.toJson := by
  obtain ⟨hnodes, hrelationships⟩ := List.forall_mem_append.mp h
  simp [toJson, Legible, LegibleMembers, Pattern.legible_toJson, legible_tableToJson hnodes,
    legible_tableToJson hrelationships]

theorem asTable?_tableToJson (h : ∀ p ∈ storedIn table, p.Genuine) :
    asTable? (asTable? Predicate.ofJson?) (tableToJson table) = some (restoredTable table) := by
  refine asTable?_map (fun e he => asTable?_map (fun e' he' => Predicate.ofJson?_toJson ?_))
  refine h e'.2 (mem_storedIn_iff.mpr ⟨e.1, e.2, e'.1, ?_, ?_⟩)
  · exact OrderedMap.mem_entries_iff.mp he
  · exact OrderedMap.mem_entries_iff.mp he'

theorem ofJsonBy?_toJson (h : q.Genuine) :
    ofJsonBy? Predicate.ofJson? q.toJson = some q.restored := by
  obtain ⟨hnodes, hrelationships⟩ := List.forall_mem_append.mp h
  simp [ofJsonBy?, toJson, asRecord?, required?, defaulted?, Pattern.ofJson?_toJson,
    asTable?_tableToJson hnodes, asTable?_tableToJson hrelationships, restored]

/-- A query whose numbers survive is read back, with the limits of ranges on their own sides. -/
theorem read?_oneLine (h : q.Genuine) (hs : ∀ p ∈ q.stored, p.Survives) :
    read? q.toJson.oneLine = some q.restored := by
  rw [read?, Json.read?_oneLine (legible_toJson hs), Option.bind_some, ofJsonBy?_toJson h]

theorem restoredTable_eq_iff :
    restoredTable table = table ↔ ∀ p ∈ storedIn table, p.restored = p := by
  simp only [restoredTable, OrderedMap.mapValues_eq_self_iff, storedIn, List.mem_flatMap]
  constructor
  · rintro h p ⟨predicates, hpredicates, hp⟩
    exact h predicates hpredicates p hp
  · exact fun h predicates hpredicates p hp => h p ⟨predicates, hpredicates, hp⟩

theorem restored_eq_iff : q.restored = q ↔ ∀ p ∈ q.stored, p.Sided := by
  simp only [stored, List.forall_mem_append, ← Predicate.restored_eq_iff, ← restoredTable_eq_iff]
  obtain ⟨pattern, nodes, relationships⟩ := q
  simp [restored]

/-- A query that was assembled is read back from its JSON, if the numbers in it are, except that
limits change to their own sides. It is the same query exactly if all of them stand there. -/
theorem read?_oneLine_iff (h : Assembled q) (hs : ∀ p ∈ q.stored, p.Survives) :
    read? q.toJson.oneLine = some q.restored ∧
      (read? q.toJson.oneLine = some q ↔ ∀ p ∈ q.stored, p.Sided) := by
  have hread := read?_oneLine h.genuine hs
  refine ⟨hread, ?_⟩
  rw [hread, Option.some.injEq]
  exact restored_eq_iff

def named : Query Float :=
  ⟨⟨[⟨"a", ∅⟩], []⟩, .singleton "a" (.singleton "name" (.text "Ann")), ∅⟩

def aged : Query Float :=
  ⟨⟨[⟨"a", ∅⟩], []⟩, .singleton "a" ⟨[("age", .range (.number 30) .highest), ("name", .text "Ann")],
    by decide⟩, ∅⟩

theorem survives_thirty : Survives (.float 30) := by
  have htext : oneLine (.float 30) = "30.0" := by decide +kernel
  have hread : Json.read? "30.0" =
      some (ofLiteral Decimal.Literal.scaled ⟨false, [3, 0], [0], 0⟩) := by rfl
  have hscaled : Decimal.Literal.scaled ⟨false, [3, 0], [0], 0⟩ = 30 := by decide +kernel
  have hfinite : (30 : Float).isInf = false := by decide +kernel
  rw [Survives, htext, hread, ofLiteral, hscaled, hfinite]
  rfl

theorem read?_oneLine_iff_of_aged : Assembled aged ∧ (∀ p ∈ aged.stored, p.Survives) ∧
    read? aged.toJson.oneLine = some aged.restored ∧
      (read? aged.toJson.oneLine = some aged ↔ ∀ p ∈ aged.stored, p.Sided) := by
  have hparsed : Query.parse "(a)" (some "`a`.`name`=\"Ann\"") = .ok named := by rfl
  have hmade : Predicate.compared ">" (Double.toBound 30) =
      .ok (.range (.number 30) .highest) := by rfl
  have hadded : named.addNodePredicate "a" "age" (.range (.number 30) .highest) = .ok aged := by
    rfl
  have h : Assembled aged := .nodePredicate (.parsed hparsed) (.compared hmade) hadded
  have hs : ∀ p ∈ aged.stored, p.Survives := by
    have hstored : aged.stored = [.range (.number 30) .highest, .text "Ann"] := by rfl
    rw [hstored]
    simp [Predicate.Survives, Predicate.bounds, survives_thirty]
  exact ⟨h, hs, read?_oneLine_iff h hs⟩

/-- A condition of equality with infinity is read back as one that every number satisfies. -/
theorem read?_loses_infinity : ∃ q q' : Query Float,
    Query.parse "(a)" (some "`a`.`x`=inf") = .ok q ∧ read? q.toJson.oneLine = some q' ∧ q' ≠ q ∧
      q.stored = [.range .highest .highest] ∧ q'.stored = [.range .lowest .highest] := by
  have hparsed : Query.parse "(a)" (some "`a`.`x`=inf") =
      .ok ⟨⟨[⟨"a", ∅⟩], []⟩, .singleton "a" (.singleton "x" (.range .highest .highest)), ∅⟩ := by
    rfl
  refine ⟨_, _, hparsed, read?_oneLine (genuine_of_parse hparsed) ?_, ?_, rfl, rfl⟩
  · intro p hp
    obtain rfl : p = .range .highest .highest := List.mem_singleton.mp hp
    simp [Predicate.Survives, Predicate.bounds]
  · intro heq
    have hsided := restored_eq_iff.mp heq (.range .highest .highest) (List.mem_singleton.mpr rfl)
    exact hsided.1 rfl

end Query

end PatternCardinality
