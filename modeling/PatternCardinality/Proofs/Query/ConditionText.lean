import PatternCardinality.Proofs.Outcome
import PatternCardinality.Proofs.Text.Pieces
import PatternCardinality.Query.Condition

/-!
# Texts made of conditions

What a text of conditions is made of, and that reading finds exactly the conditions that it is made
of, in their order.
-/

namespace PatternCardinality

open Text

/-- What a property of a node variable or of a relationship is asked to be. -/
structure Condition where
  owner : String
  property : String
  value : PropertyValue

namespace Conditions

/-- A text, and how it stands in quotes, up to the closing one. -/
inductive Quoted : List Char → List Char → Prop
  | close : Quoted [] ['"']
  | plain {c t s} (quote : c ≠ '"') (slash : c ≠ '\\') (more : Quoted t s) :
      Quoted (c :: t) (c :: s)
  | escaped {c t s} (more : Quoted t s) : Quoted (c :: t) ('\\' :: c :: s)

/-- A text in quotes with blanks behind it, or a number with blanks around it. -/
inductive ValueText : PropertyValue → List Char → Prop
  | text {t s gap} (quoted : Quoted t s) (blank : ∀ c ∈ gap, isBlank c = true) :
      ValueText (.text (String.ofList t)) ('"' :: (s ++ gap))
  | number {s x} (quote : s.head? ≠ some '"') (comma : ',' ∉ s)
      (read : Decimal.number? (trim s) = some x) : ValueText (.number x) s

/-- An owner and a property between backticks, and a value. -/
def conditionText (c : Condition) (value : List Char) : List Char :=
  '\x60' :: (c.owner.toList ++ '\x60' :: '.' :: '\x60' ::
    (c.property.toList ++ '\x60' :: '=' :: value))

structure Spelled (c : Condition) (value : List Char) : Prop where
  owner : '\x60' ∉ c.owner.toList
  property : '\x60' ∉ c.property.toList
  value : ValueText c.value value

/-- What goes on behind a text: nothing, or more behind a comma and blanks. -/
inductive Follows : List Char → List Char → List Char → Prop
  | nothing {s} : Follows s s []
  | comma {s gap next} (blank : ∀ c ∈ gap, isBlank c = true)
      (trimmed : ∀ c ∈ next.head?, isBlank c = false) : Follows s (s ++ ',' :: (gap ++ next)) next

/-- The text is made of the conditions, in their order. -/
inductive Listing : List Condition → List Char → Prop
  | nil : Listing [] []
  | cons {c l value s next} (spelled : Spelled c value)
      (follows : Follows (conditionText c value) s next) (more : Listing l next) :
      Listing (c :: l) s

/-- Puts conditions in one after the other. -/
def putAll (all : Conditions) (l : List Condition) : Conditions :=
  l.foldl (fun all c => all.put c.owner c.property c.value) all

variable {s t rest next : List Char} {v : PropertyValue}

theorem quoted?_eq_some_iff : quoted? s = some (t, rest) ↔ ∃ q, Quoted t q ∧ s = q ++ rest := by
  constructor
  · intro h
    fun_induction quoted? s generalizing t with
    | case1 => cases h
    | case2 s =>
      cases h
      exact ⟨_, .close, rfl⟩
    | case3 c s ih =>
      obtain ⟨⟨u, rest'⟩, hu, heq⟩ := Option.map_eq_some_iff.mp h
      cases heq
      obtain ⟨q, hq, rfl⟩ := ih hu
      exact ⟨_, .escaped hq, rfl⟩
    | case4 => cases h
    | case5 c s hquote hslash hend ih =>
      obtain ⟨⟨u, rest'⟩, hu, heq⟩ := Option.map_eq_some_iff.mp h
      cases heq
      obtain ⟨q, hq, rfl⟩ := ih hu
      refine ⟨_, .plain hquote ?_ hq, rfl⟩
      rintro rfl
      cases hq' : q ++ rest' with
      | nil => exact hend rfl hq'
      | cons d r => exact hslash d r rfl hq'
  · rintro ⟨q, hq, rfl⟩
    induction hq with
    | close => rfl
    | plain hquote hslash _ ih =>
      rw [List.cons_append, quoted?, ih]
      · rfl
      · exact hquote
      · exact fun _ _ h => (hslash h).elim
      · exact fun h => (hslash h).elim
    | escaped _ ih =>
      rw [List.cons_append, List.cons_append, quoted?, ih]
      rfl

theorem name_eq_ok_iff {n : List Char} :
    name s = .ok (n, rest) ↔ '\x60' ∉ n ∧ s = '\x60' :: (n ++ '\x60' :: rest) := by
  unfold name
  split
  · next body =>
    rw [List.cons.injEq, and_iff_right rfl, ← cut?_eq_some_iff]
    cases cut? '\x60' body <;> simp [fault]
  · next hs =>
    simp only [fault, reduceCtorEq, false_iff, not_and]
    exact fun _ h => hs _ h

theorem dropWhile_eq_iff {p : Char → Bool} :
    s.dropWhile p = next ↔
      ∃ gap, (∀ c ∈ gap, p c = true) ∧ s = gap ++ next ∧ ∀ c ∈ next.head?, p c = false := by
  constructor
  · rintro rfl
    refine ⟨s.takeWhile p, fun c hc => List.all_eq_true.mp List.all_takeWhile c hc,
      List.takeWhile_append_dropWhile.symm, fun c hc => ?_⟩
    simpa [Option.mem_def.mp hc] using List.head?_dropWhile_not p s
  · rintro ⟨gap, hgap, rfl, hnext⟩
    rw [List.dropWhile_append_of_pos hgap]
    cases next with
    | nil => rfl
    | cons c next => rw [List.dropWhile_cons_of_neg (by simp [hnext c rfl])]

theorem afterComma_eq_ok_iff : afterComma rest = .ok next ↔
    ∃ gap, (∀ c ∈ gap, isBlank c = true) ∧ Follows gap rest next := by
  rw [afterComma]
  constructor
  · intro h
    split at h
    · next hrest =>
      cases h
      exact ⟨rest, fun c hc => List.dropWhile_eq_nil_iff.mp hrest c hc, .nothing⟩
    · next s hrest =>
      obtain ⟨gap, hgap, hs, -⟩ := dropWhile_eq_iff.mp hrest
      obtain ⟨gap', hgap', hs', hnext⟩ := dropWhile_eq_iff.mp (Except.ok.inj h)
      subst hs hs'
      exact ⟨gap, hgap, .comma hgap' hnext⟩
    · cases h
  · rintro ⟨gap, hgap, hfollows⟩
    cases hfollows with
    | nothing =>
      have hrest : trimStart rest = [] := List.dropWhile_eq_nil_iff.mpr hgap
      rw [hrest]
    | @comma gap' _ hgap' hnext =>
      have hrest : trimStart (gap ++ ',' :: (gap' ++ next)) = ',' :: (gap' ++ next) :=
        dropWhile_eq_iff.mpr ⟨gap, hgap, rfl, by simp; decide⟩
      have hnext : trimStart (gap' ++ next) = next := dropWhile_eq_iff.mpr ⟨gap', hgap', rfl, hnext⟩
      rw [hrest]
      exact congrArg _ hnext

/-- What stands before the next comma, or up to the end. -/
theorem takeWhile_comma_iff {lit : List Char} :
    s.takeWhile (· ≠ ',') = lit ∧ s.dropWhile (· ≠ ',') = rest ↔
      ',' ∉ lit ∧ s = lit ++ rest ∧ ∀ c ∈ rest.head?, c = ',' := by
  constructor
  · rintro ⟨rfl, rfl⟩
    obtain ⟨gap, -, -, hrest⟩ := dropWhile_eq_iff.mp (rfl : s.dropWhile (· ≠ ',') = _)
    refine ⟨fun h => ?_, List.takeWhile_append_dropWhile.symm, fun c hc => ?_⟩
    · simpa using List.all_eq_true.mp List.all_takeWhile ',' h
    · simpa using hrest c hc
  · rintro ⟨hlit, rfl, hrest⟩
    have hall : ∀ c ∈ lit, decide (c ≠ ',') = true := fun c hc =>
      decide_eq_true (fun h => hlit (h ▸ hc))
    rw [List.takeWhile_append_of_pos hall, List.dropWhile_append_of_pos hall]
    cases rest with
    | nil => simp
    | cons c rest => simp [hrest c rfl]

theorem value_eq_ok_iff {owner property : String} : value owner property s = .ok (v, rest) ↔
    (∃ t q, Quoted t q ∧ s = '"' :: (q ++ rest) ∧ v = .text (String.ofList t)) ∨
      ∃ x lit, s.head? ≠ some '"' ∧ ',' ∉ lit ∧ s = lit ++ rest ∧ (∀ c ∈ rest.head?, c = ',') ∧
        Decimal.number? (trim lit) = some x ∧ v = .number x := by
  unfold value
  split
  · next body =>
    have hquoted : (∃ t, quoted? body = some (t, rest) ∧ v = .text (String.ofList t)) ↔
        ∃ t q, Quoted t q ∧ '"' :: body = '"' :: (q ++ rest) ∧ v = .text (String.ofList t) := by
      simp only [quoted?_eq_some_iff, List.cons.injEq, true_and]
      exact exists_congr (fun t => by rw [exists_and_right.symm]; simp only [and_assoc])
    simp only [List.head?_cons, ne_eq, not_true_eq_false, false_and, exists_false, or_false,
      ← hquoted]
    cases quoted? body with
    | none => simp [fault]
    | some p =>
      obtain ⟨t, r⟩ := p
      simp [and_comm, eq_comm]
  · next hs =>
    have hhead : s.head? ≠ some '"' := by
      intro h
      cases s with
      | nil => cases h
      | cons c body => exact hs body (by simpa using h)
    dsimp only
    constructor
    · intro h
      split at h
      · next x hx =>
        cases h
        obtain ⟨hlit, heq, hrest⟩ := takeWhile_comma_iff.mp ⟨rfl, rfl⟩
        exact .inr ⟨x, _, hhead, hlit, heq, hrest, hx, rfl⟩
      · cases h
    · rintro (⟨t, q, -, rfl, -⟩ | ⟨x, lit, -, hlit, heq, hrest, hx, rfl⟩)
      · exact absurd rfl hhead
      · obtain ⟨hlit, hrest⟩ := takeWhile_comma_iff.mpr ⟨hlit, heq, hrest⟩
        rw [hlit, hrest, hx]

private theorem head?_of_append {a : Char} {s t : List Char} (h : (s ++ t).head? ≠ some a) :
    s.head? ≠ some a := by
  cases s with
  | nil => simp
  | cons b s => exact h

/-- The value of a condition is read, and what stands between it and the next one. -/
theorem value_afterComma_iff {owner property : String} :
    (∃ rest, value owner property s = .ok (v, rest) ∧ afterComma rest = .ok next) ↔
      ∃ text, ValueText v text ∧ Follows text s next := by
  simp only [value_eq_ok_iff, afterComma_eq_ok_iff]
  constructor
  · rintro ⟨rest, ⟨t, q, hq, rfl, rfl⟩ | ⟨x, lit, hhead, hlit, rfl, hrest, hx, rfl⟩,
      gap, hgap, hfollows⟩
    · refine ⟨_, .text hq hgap, ?_⟩
      cases hfollows with
      | nothing => exact .nothing
      | comma hgap' hnext => simpa using Follows.comma (s := '"' :: (q ++ gap)) hgap' hnext
    · -- the blanks behind a number belong to it
      have hnil : gap = [] := by
        cases gap with
        | nil => rfl
        | cons c gap =>
          have hc : c = ',' := hrest c (by cases hfollows <;> rfl)
          have hblank := hgap c List.mem_cons_self
          rw [hc] at hblank
          exact absurd hblank (by decide)
      subst hnil
      refine ⟨lit, .number (head?_of_append hhead) hlit hx, ?_⟩
      cases hfollows with
      | nothing => simpa using Follows.nothing
      | comma hgap' hnext => exact .comma hgap' hnext
  · rintro ⟨text, htext, hfollows⟩
    cases htext with
    | @text t q gap hq hgap =>
      cases hfollows with
      | nothing => exact ⟨gap, .inl ⟨t, q, hq, rfl, rfl⟩, gap, hgap, .nothing⟩
      | @comma gap' _ hgap' hnext =>
        exact ⟨gap ++ ',' :: (gap' ++ next), .inl ⟨t, q, hq, by simp, rfl⟩, gap, hgap,
          .comma hgap' hnext⟩
    | @number _ x hhead hlit hx =>
      cases hfollows with
      | nothing =>
        exact ⟨[], .inr ⟨x, s, hhead, hlit, by simp, by simp, hx, rfl⟩, [], by simp, .nothing⟩
      | @comma gap' _ hgap' hnext =>
        refine ⟨',' :: (gap' ++ next), .inr ⟨x, text, ?_, hlit, rfl, by simp, hx, rfl⟩, [], by simp,
          .comma (s := []) hgap' hnext⟩
        cases text with
        | nil => simp
        | cons c text => exact hhead

theorem condition_eq_ok_iff {owner property : String} :
    condition s = .ok (owner, property, v, rest) ↔
      '\x60' ∉ owner.toList ∧ '\x60' ∉ property.toList ∧
        ∃ t, s = conditionText ⟨owner, property, v⟩ t ∧ value owner property t = .ok (v, rest) := by
  constructor
  · intro hread
    obtain ⟨⟨o, s₁⟩, ho, h⟩ := Outcome.bind_eq_ok.mp hread
    obtain ⟨howner, hs⟩ := name_eq_ok_iff.mp ho
    dsimp only at h
    split at h
    · next s₁ =>
      obtain ⟨⟨p, s₂⟩, hp, h⟩ := Outcome.bind_eq_ok.mp h
      obtain ⟨hproperty, hs₁⟩ := name_eq_ok_iff.mp hp
      dsimp only at h
      split at h
      · next s₂ =>
        obtain ⟨⟨w, rest'⟩, hw, h⟩ := Outcome.bind_eq_ok.mp h
        cases h
        exact ⟨by simpa using howner, by simpa using hproperty, s₂,
          by simp [hs, hs₁, conditionText], hw⟩
      · cases h
    · cases h
  · rintro ⟨howner, hproperty, t, rfl, hv⟩
    have ho : name (conditionText ⟨owner, property, v⟩ t) = .ok (owner.toList,
        '.' :: '\x60' :: (property.toList ++ '\x60' :: '=' :: t)) :=
      name_eq_ok_iff.mpr ⟨howner, rfl⟩
    have hp : name ('\x60' :: (property.toList ++ '\x60' :: '=' :: t)) =
        .ok (property.toList, '=' :: t) := name_eq_ok_iff.mpr ⟨hproperty, rfl⟩
    refine Outcome.bind_eq_ok.mpr ⟨_, ho, Outcome.bind_eq_ok.mpr ⟨_, hp, ?_⟩⟩
    dsimp only
    rw [String.ofList_toList, String.ofList_toList]
    exact Outcome.bind_eq_ok.mpr ⟨_, hv, rfl⟩

/-- A condition is read, and what stands between it and the next one. -/
theorem condition_afterComma_iff {c : Condition} :
    (∃ rest, condition s = .ok (c.owner, c.property, c.value, rest) ∧
        afterComma rest = .ok next) ↔
      ∃ text, Spelled c text ∧ Follows (conditionText c text) s next := by
  simp only [condition_eq_ok_iff]
  constructor
  · rintro ⟨rest, ⟨howner, hproperty, t, rfl, hv⟩, hrest⟩
    obtain ⟨text, htext, hfollows⟩ := value_afterComma_iff.mp ⟨rest, hv, hrest⟩
    refine ⟨text, ⟨howner, hproperty, htext⟩, ?_⟩
    cases hfollows with
    | nothing => exact .nothing
    | comma hgap hnext =>
      simpa [conditionText] using Follows.comma (s := conditionText c text) hgap hnext
  · rintro ⟨text, ⟨howner, hproperty, htext⟩, hfollows⟩
    cases hfollows with
    | nothing =>
      obtain ⟨rest, hv, hrest⟩ := value_afterComma_iff.mpr ⟨text, htext, .nothing⟩
      exact ⟨rest, ⟨howner, hproperty, text, rfl, hv⟩, hrest⟩
    | comma hgap hnext =>
      obtain ⟨rest, hv, hrest⟩ := value_afterComma_iff.mpr ⟨text, htext, .comma hgap hnext⟩
      exact ⟨rest, ⟨howner, hproperty, _, by simp [conditionText], hv⟩, hrest⟩

theorem Follows.length_lt {c : Condition} {text : List Char}
    (h : Follows (conditionText c text) s next) : next.length < s.length := by
  cases h with
  | nothing => simp [conditionText]
  | comma => simp [conditionText]; omega

/-- With fuel for the length of a text, the conditions that it is made of are put in, and nothing
else is read. -/
theorem readFrom_eq_ok_iff {fuel : ℕ} (h : s.length < fuel) {all all' : Conditions} :
    readFrom fuel all s = .ok all' ↔ ∃ l, Listing l s ∧ all' = all.putAll l := by
  induction fuel generalizing all s with
  | zero => cases h
  | succ fuel ih =>
    rw [readFrom]
    cases s with
    | nil =>
      constructor
      · rintro ⟨⟩
        exact ⟨[], .nil, rfl⟩
      · rintro ⟨l, hl, rfl⟩
        cases hl with
        | nil => rfl
        | cons hc hfollows => cases hfollows.length_lt
    | cons d s =>
      constructor
      · intro hread
        obtain ⟨⟨owner, property, v, rest⟩, hc, hread⟩ := Outcome.bind_eq_ok.mp hread
        obtain ⟨next, hnext, hread⟩ := Outcome.bind_eq_ok.mp hread
        obtain ⟨text, hspelled, hfollows⟩ :=
          condition_afterComma_iff (c := ⟨owner, property, v⟩).mp ⟨rest, hc, hnext⟩
        have hlt := hfollows.length_lt
        obtain ⟨l, hl, rfl⟩ := (ih (by omega)).mp hread
        exact ⟨_, .cons hspelled hfollows hl, rfl⟩
      · rintro ⟨l, hl, rfl⟩
        cases hl with
        | @cons c l _ _ next hspelled hfollows hl =>
          have hlt := hfollows.length_lt
          obtain ⟨rest, hc, hnext⟩ := condition_afterComma_iff.mpr ⟨_, hspelled, hfollows⟩
          refine Outcome.bind_eq_ok.mpr ⟨_, hc, Outcome.bind_eq_ok.mpr ⟨_, hnext, ?_⟩⟩
          exact (ih (by omega)).mpr ⟨l, hl, rfl⟩

/-- A text is read as the conditions that it is made of, put in one after the other. -/
theorem parse_eq_ok_iff {s : String} {all : Conditions} :
    parse s = .ok all ↔ ∃ l, Listing l (trim s.toList) ∧ all = putAll ∅ l :=
  readFrom_eq_ok_iff (Nat.lt_succ_self _)

end Conditions

end PatternCardinality
