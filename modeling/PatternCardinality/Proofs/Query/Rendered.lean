import PatternCardinality.Proofs.Decimal.Spelling
import PatternCardinality.Proofs.Query.Conditions

/-!
# Conditions as they are written

A collection of conditions is written with its entries between commas, in any order and with any
blanks around them. A text stands in quotes, with a backslash before quotes and backslashes; a
number is written in decimal. The collection itself is read from every such text.
-/

namespace PatternCardinality.Conditions

open Text

/-- A text with a backslash before every quote and every backslash. -/
def escaped (s : List Char) : List Char :=
  s.flatMap fun c => if c = '"' ∨ c = '\\' then ['\\', c] else [c]

/-- How a value is written. -/
inductive Written : PropertyValue → List Char → Prop
  | text (s : String) : Written (.text s) ('"' :: (escaped s.toList ++ ['"']))
  | number {d : Decimal.Literal} {x s} (denotes : d.Denotes x) (spelled : d.SpelledBy s) :
      Written (.number x) s

/-- A condition with blanks around it. -/
inductive Entry (c : Condition) : List Char → Prop
  | mk {before value after} (blankBefore : ∀ a ∈ before, isBlank a = true)
      (written : Written c.value value) (blankAfter : ∀ a ∈ after, isBlank a = true) :
      Entry c (before ++ (conditionText c value ++ after))

/-- A text with an entry for each condition, in their order, and commas between them. -/
def Joined (l : List Condition) (s : List Char) : Prop :=
  ∃ entries, List.Forall₂ Entry l entries ∧ s = [','].intercalate entries

/-- Names that can stand between backticks. -/
structure Nameable (c : Condition) : Prop where
  owner : '\x60' ∉ c.owner.toList
  property : '\x60' ∉ c.property.toList

/-- Each owner has a condition, the names can stand between backticks, and the numbers are
finite. -/
structure Expressible (all : Conditions) : Prop where
  filled : all.Filled
  nameable : ∀ c ∈ all.listed, Nameable c
  finite : ∀ c ∈ all.listed, ∀ x, c.value = .number x → x.isFinite = true

variable {all : Conditions} {l : List Condition} {c : Condition} {v : PropertyValue}
  {s after : List Char} {entries : List (List Char)}

theorem quoted_escaped (t : List Char) : Quoted t (escaped t ++ ['"']) := by
  induction t with
  | nil => exact .close
  | cons c t ih =>
    rw [escaped, List.flatMap_cons, ← escaped]
    split
    · exact .escaped ih
    · next hc =>
      obtain ⟨hquote, hslash⟩ := not_or.mp hc
      exact .plain hquote hslash ih

/-- A written value may have blanks behind it. -/
theorem Written.valueText (h : Written v s) (blank : ∀ a ∈ after, isBlank a = true) :
    ValueText v (s ++ after) := by
  cases h with
  | text t =>
    have htext := ValueText.text (quoted_escaped t.toList) blank
    rwa [String.ofList_toList] at htext
  | number denotes spelled =>
    have hread := denotes.number?_eq spelled
    obtain ⟨hne, hfigures⟩ := Decimal.isFigure_of_number? hread
    refine .number ?_ ?_ ?_
    · obtain ⟨a, s, rfl⟩ := List.exists_cons_of_ne_nil hne
      intro hquote
      obtain rfl : a = '"' := by simpa using hquote
      cases hfigures '"' List.mem_cons_self
    · refine List.not_mem_append (not_mem_of_figures hfigures rfl) (fun hcomma => ?_)
      cases blank ',' hcomma
    · rw [trim_append_right blank, trim_figures hfigures, hread]

theorem Written.exists_last (h : Written v s) :
    ∃ front last, s = front ++ [last] ∧ isBlank last = false := by
  cases h with
  | text t => exact ⟨'"' :: escaped t.toList, '"', rfl, by decide⟩
  | number denotes spelled =>
    obtain ⟨hne, hfigures⟩ := Decimal.isFigure_of_number? (denotes.number?_eq spelled)
    exact ⟨s.dropLast, s.getLast hne, (List.dropLast_append_getLast hne).symm,
      isBlank_of_isFigure (hfigures _ (List.getLast_mem hne))⟩

theorem exists_written (h : ∀ x, v = .number x → x.isFinite = true) : ∃ s, Written v s := by
  cases v with
  | text s => exact ⟨_, .text s⟩
  | number x =>
    obtain ⟨d, hspelled, hdenotes⟩ := Decimal.exists_spelledBy_text (h x rfl)
    exact ⟨_, .number hdenotes hspelled⟩

theorem exists_joined (h : ∀ c ∈ l, ∀ x, c.value = .number x → x.isFinite = true) :
    ∃ s, Joined l s := by
  suffices hentries : ∃ entries, List.Forall₂ Entry l entries by
    obtain ⟨entries, hentries⟩ := hentries
    exact ⟨_, entries, hentries, rfl⟩
  induction l with
  | nil => exact ⟨[], .nil⟩
  | cons c l ih =>
    obtain ⟨hc, hl⟩ := List.forall_mem_cons.mp h
    obtain ⟨value, hwritten⟩ := exists_written hc
    obtain ⟨entries, hentries⟩ := ih hl
    exact ⟨_, .cons (.mk (List.forall_mem_nil _) hwritten (List.forall_mem_nil _)) hentries⟩

theorem trimmed_conditionText (hne : s ≠ []) (hlast : ∀ a ∈ s.getLast?, isBlank a = false)
    (value : List Char) : Trimmed (conditionText c value ++ s) where
  head a ha := by
    cases ha
    decide
  last a ha := by
    rw [List.getLast?_append_of_ne_nil _ hne] at ha
    exact hlast a ha

/-- Without the blanks at its ends a text of entries is made of their conditions. The blanks between
them count as those behind a value or behind a comma. -/
theorem exists_listing (hentries : List.Forall₂ Entry l entries) (hne : l ≠ [])
    (hnames : ∀ c ∈ l, Nameable c) :
    ∃ before s after, (∀ a ∈ before, isBlank a = true) ∧ (∀ a ∈ after, isBlank a = true) ∧
      [','].intercalate entries = before ++ (s ++ after) ∧ s ≠ [] ∧ Trimmed s ∧ Listing l s := by
  induction hentries with
  | nil => exact absurd rfl hne
  | @cons c e l entries hentry hentries ih =>
    obtain ⟨⟨howner, hproperty⟩, hnames⟩ := List.forall_mem_cons.mp hnames
    obtain @⟨before, value, after, hbefore, hwritten, hafter⟩ := hentry
    have hspelled : ∀ gap, (∀ a ∈ gap, isBlank a = true) → Spelled c (value ++ gap) :=
      fun gap hgap => ⟨howner, hproperty, hwritten.valueText hgap⟩
    cases hentries with
    | nil =>
      obtain ⟨front, last, rfl, hlast⟩ := hwritten.exists_last
      have hend : conditionText c (front ++ [last]) = conditionText c front ++ [last] := by
        simp [conditionText]
      have htrimmed : Trimmed (conditionText c front ++ [last]) :=
        trimmed_conditionText (by simp) (by simpa using hlast) front
      have hlisting := Listing.cons (hspelled [] (by simp)) .nothing .nil
      rw [List.append_nil] at hlisting
      exact ⟨before, _, after, hbefore, hafter, List.intercalate_singleton, by simp [conditionText],
        hend ▸ htrimmed, hlisting⟩
    | @cons d e' l entries hnext hrest =>
      obtain ⟨before', s, after', hbefore', hafter', htext, hsome, htrimmed, hlisting⟩ :=
        ih (List.cons_ne_nil _ _) hnames
      refine ⟨before, conditionText c (value ++ after) ++ ',' :: (before' ++ s), after', hbefore,
        hafter', ?_, by simp, ?_,
        .cons (hspelled after hafter) (.comma hbefore' htrimmed.head) hlisting⟩
      · rw [List.intercalate_cons_cons, htext]
        simp [conditionText]
      · refine trimmed_conditionText (by simp) (fun a ha => htrimmed.last a ?_) _
        rwa [← List.cons_append, List.getLast?_append_of_ne_nil _ hsome] at ha

theorem Joined.listing (h : Joined l s) (hnames : ∀ c ∈ l, Nameable c) : Listing l (trim s) := by
  obtain ⟨entries, hentries, rfl⟩ := h
  by_cases hne : l = []
  · subst hne
    cases hentries
    exact .nil
  · obtain ⟨before, s, after, hbefore, hafter, htext, -, htrimmed, hlisting⟩ :=
      exists_listing hentries hne hnames
    rwa [htext, trim_append_left hbefore, trim_append_right hafter, trim_of_trimmed htrimmed]

/-- Conditions are collected in any order. -/
theorem putAll_of_perm (h : all.Filled) (hl : l.Perm all.listed) : putAll ∅ l = all := by
  have hkeys : (l.map Condition.key).Nodup :=
    (hl.map Condition.key).nodup_iff.mpr (nodup_keys_listed all)
  refine Filled.ext (filled_empty.putAll l) h (fun k => Option.ext (fun v => ?_))
  rw [value?_putAll_of_nodup hkeys, hl.mem_iff, mem_listed]
  simp [Condition.key]

/-- Every collection of conditions can be written, with its conditions in any order, and it is read
from each text of them. -/
theorem parse_joined (h : Expressible all) (hl : l.Perm all.listed) :
    (∃ s : String, Joined l s.toList) ∧
      ∀ s : String, Joined l s.toList → parse s = .ok all := by
  constructor
  · obtain ⟨s, hs⟩ := exists_joined (fun c hc => h.finite c (hl.mem_iff.mp hc))
    exact ⟨String.ofList s, by rwa [String.toList_ofList]⟩
  · intro s hs
    have hlisting := hs.listing (fun c hc => h.nameable c (hl.mem_iff.mp hc))
    exact parse_eq_ok_iff.mpr ⟨l, hlisting, (putAll_of_perm h.filled hl).symm⟩

/-- A text with backslashes in front of a quote and at its end, and a property without a name. -/
def textEntry : Condition := ⟨"a", "", .text "\\\\\",=`é\\"⟩

def numberEntry : Condition := ⟨"é,=\"", "n", .number (-2.5)⟩

/-- The number with an exponent comes first, with a blank behind it. -/
theorem parse_joined_pair :
    Expressible (putAll ∅ [textEntry, numberEntry]) ∧
      [numberEntry, textEntry].Perm (putAll ∅ [textEntry, numberEntry]).listed ∧
      Joined [numberEntry, textEntry]
        "`é,=\"`.`n`=-25e-1 ,\t`a`.``=\"\\\\\\\\\\\",=`é\\\\\"".toList ∧
      parse "`é,=\"`.`n`=-25e-1 ,\t`a`.``=\"\\\\\\\\\\\",=`é\\\\\"" =
        .ok (putAll ∅ [textEntry, numberEntry]) := by
  have hlisted : (putAll ∅ [textEntry, numberEntry]).listed = [textEntry, numberEntry] := rfl
  have hperm : [numberEntry, textEntry].Perm (putAll ∅ [textEntry, numberEntry]).listed := by
    rw [hlisted]
    exact .swap _ _ _
  have hexpressible : Expressible (putAll ∅ [textEntry, numberEntry]) := by
    refine ⟨filled_empty.putAll _, ?_, ?_⟩
    · rw [hlisted, List.forall_mem_cons, List.forall_mem_singleton]
      exact ⟨⟨by decide, by decide⟩, ⟨by decide, by decide⟩⟩
    · rw [hlisted, List.forall_mem_cons, List.forall_mem_singleton]
      refine ⟨nofun, fun x hx => ?_⟩
      cases hx
      decide +kernel
  have hnumber : Written numberEntry.value "-25e-1".toList := by
    have hdenotes : Decimal.Literal.Denotes ⟨true, [2, 5], [], -1⟩ (-2.5) :=
      ⟨by decide +kernel, by decide +kernel, by decide +kernel⟩
    have hexponent := Decimal.ExponentText.present (.inl rfl : 'e' = 'e' ∨ 'e' = 'E') .minus
      (List.cons_ne_nil 1 []) (by decide)
    exact .number hdenotes (.whole .minus (List.cons_ne_nil _ _) (by decide) hexponent)
  have hjoined : Joined [numberEntry, textEntry]
      "`é,=\"`.`n`=-25e-1 ,\t`a`.``=\"\\\\\\\\\\\",=`é\\\\\"".toList := by
    have hfirst : Entry numberEntry _ := .mk (List.forall_mem_nil _) hnumber
      (List.forall_mem_singleton.mpr (by decide : isBlank ' ' = true))
    have hsecond : Entry textEntry _ := .mk
      (List.forall_mem_singleton.mpr (by decide : isBlank '\t' = true)) (.text _)
      (List.forall_mem_nil _)
    exact ⟨_, .cons hfirst (.cons hsecond .nil), by decide⟩
  exact ⟨hexpressible, hperm, hjoined, (parse_joined hexpressible hperm).2 _ hjoined⟩

end PatternCardinality.Conditions
