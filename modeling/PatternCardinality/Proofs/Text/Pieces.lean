import Mathlib.Data.List.TakeWhile
import PatternCardinality.Text.Blank

/-! How a text is made up again of what it is cut into: what stands before and after a mark, the
pieces between marks, and the blanks that are trimmed. -/

namespace PatternCardinality.Text

/-- A text is cut at the first mark in it. -/
theorem cut?_eq_some_iff {c : Char} {s l r : List Char} :
    cut? c s = some (l, r) ↔ c ∉ l ∧ s = l ++ c :: r := by
  induction s generalizing l with
  | nil => simp [cut?]
  | cons d s ih =>
    by_cases hd : d = c
    · subst hd
      cases l with
      | nil => simp [cut?, eq_comm]
      | cons e l => simp +contextual [cut?, eq_comm]
    · cases l with
      | nil => simp [cut?, hd]
      | cons e l =>
        simp only [cut?, hd, ↓reduceIte, Option.map_eq_some_iff, Prod.exists, Prod.mk.injEq,
          List.cons.injEq, List.mem_cons, not_or, List.cons_append]
        constructor
        · rintro ⟨l', r', h, ⟨rfl, rfl⟩, rfl⟩
          obtain ⟨hl, rfl⟩ := ih.mp h
          exact ⟨⟨fun h => hd h.symm, hl⟩, rfl, rfl⟩
        · rintro ⟨⟨-, hl⟩, rfl, rfl⟩
          exact ⟨l, r, ih.mpr ⟨hl, rfl⟩, ⟨rfl, rfl⟩, rfl⟩

section Pieces

variable {d : Char} {s l : List Char} {ls : List (List Char)}

theorem pieces_of_not_mem (h : d ∉ l) : pieces (· = d) l = [l] := by
  induction l with
  | nil => rfl
  | cons c l ih =>
    rw [List.mem_cons, not_or] at h
    simp [pieces, Ne.symm h.1, ih h.2]

theorem pieces_append (h : d ∉ l) : pieces (· = d) (l ++ d :: s) = l :: pieces (· = d) s := by
  induction l with
  | nil => simp [pieces]
  | cons c l ih =>
    rw [List.mem_cons, not_or] at h
    simp [pieces, Ne.symm h.1, ih h.2]

theorem exists_pieces (p : Char → Bool) (s : List Char) : ∃ l ls, pieces p s = l :: ls := by
  cases s with
  | nil => exact ⟨[], [], rfl⟩
  | cons c s =>
    rw [pieces]
    split
    · exact ⟨_, _, rfl⟩
    · split <;> exact ⟨_, _, rfl⟩

/-- The pieces of a text are free of the mark, and with marks between them they are the text. -/
theorem of_pieces_eq_cons (h : pieces (· = d) s = l :: ls) :
    (d ∉ l ∧ ∀ m ∈ ls, d ∉ m) ∧ s = l ++ ls.flatMap (d :: ·) := by
  induction s generalizing l ls with
  | nil =>
    cases h
    simp
  | cons c s ih =>
    obtain ⟨m, ms, hs⟩ := exists_pieces (· = d) s
    obtain ⟨⟨hm, hms⟩, rfl⟩ := ih hs
    rw [pieces, hs] at h
    split at h
    · next hc =>
      obtain rfl : c = d := by simpa using hc
      cases h
      simpa using ⟨hm, hms⟩
    · next hc =>
      have hc : d ≠ c := by simpa [eq_comm] using hc
      cases h
      simpa [hc, hm] using hms

theorem pieces_eq_cons_iff :
    pieces (· = d) s = l :: ls ↔ (d ∉ l ∧ ∀ m ∈ ls, d ∉ m) ∧ s = l ++ ls.flatMap (d :: ·) := by
  refine ⟨of_pieces_eq_cons, ?_⟩
  rintro ⟨⟨hl, hls⟩, rfl⟩
  induction ls generalizing l with
  | nil => simpa using pieces_of_not_mem hl
  | cons m ms ih =>
    have hms : ∀ n ∈ ms, d ∉ n := fun n hn => hls n (List.mem_cons_of_mem _ hn)
    rw [List.flatMap_cons, List.cons_append, pieces_append hl, ih (hls m List.mem_cons_self) hms]

end Pieces

section Blanks

/-- Neither end of a text is a blank. -/
structure Trimmed (s : List Char) : Prop where
  head : ∀ c ∈ s.head?, isBlank c = false
  last : ∀ c ∈ s.getLast?, isBlank c = false

variable {s before after : List Char}

theorem trimEnd_append (h : ∀ c ∈ after, isBlank c = true) :
    trimEnd (s ++ after) = trimEnd s := by
  rw [trimEnd, List.reverse_append, List.dropWhile_append_of_pos (by simpa using h), trimEnd]

theorem trim_append_left (h : ∀ c ∈ before, isBlank c = true) : trim (before ++ s) = trim s := by
  rw [trim, trimStart, List.dropWhile_append_of_pos h]
  rfl

theorem trim_append_right (h : ∀ c ∈ after, isBlank c = true) : trim (s ++ after) = trim s := by
  rw [trim, trimStart, List.dropWhile_append]
  split
  · next hs =>
    have hafter : after.dropWhile isBlank = [] := List.dropWhile_eq_nil_iff.mpr h
    rw [hafter, trim, trimStart, List.isEmpty_iff.mp hs]
  · rw [trimEnd_append h]
    rfl

theorem trim_of_trimmed (h : Trimmed s) : trim s = s := by
  have hkeep : ∀ l : List Char, (∀ c ∈ l.head?, isBlank c = false) → l.dropWhile isBlank = l := by
    intro l hl
    cases l with
    | nil => rfl
    | cons c l => simp [hl c rfl]
  rw [trim, trimStart, hkeep s h.head, trimEnd, hkeep s.reverse (by simpa using h.last),
    List.reverse_reverse]

/-- Trimming takes blanks away on both sides. -/
theorem exists_trim (s : List Char) : ∃ before after, (∀ c ∈ before, isBlank c = true) ∧
    (∀ c ∈ after, isBlank c = true) ∧ s = before ++ trim s ++ after := by
  refine ⟨s.takeWhile isBlank, ((trimStart s).reverse.takeWhile isBlank).reverse, ?_, ?_, ?_⟩
  · exact fun c hc => List.all_eq_true.mp List.all_takeWhile c hc
  · intro c hc
    exact List.all_eq_true.mp List.all_takeWhile c (List.mem_reverse.mp hc)
  · rw [List.append_assoc, trim, trimEnd, ← List.reverse_append, List.takeWhile_append_dropWhile,
      List.reverse_reverse, trimStart, List.takeWhile_append_dropWhile]

/-- Blanks at the ends of a text stay in its first and last piece, where they are trimmed. -/
theorem map_trim_pieces_trim {d : Char} (hd : isBlank d = false) (s : List Char) :
    (pieces (· = d) (trim s)).map trim = (pieces (· = d) s).map trim := by
  obtain ⟨before, after, hbefore, hafter, hs⟩ := exists_trim s
  have hfree : ∀ l : List Char, (∀ c ∈ l, isBlank c = true) → d ∉ l := by
    intro l hl hmem
    rw [hl d hmem] at hd
    cases hd
  obtain ⟨l, ls, hpieces⟩ := exists_pieces (· = d) (trim s)
  obtain ⟨⟨hl, hls⟩, htext⟩ := of_pieces_eq_cons hpieces
  rw [htext] at hs
  rw [hpieces]
  rcases List.eq_nil_or_concat ls with rfl | ⟨ls, m, rfl⟩
  · have hpiece : d ∉ before ++ l ++ after := by
      simp [hfree before hbefore, hl, hfree after hafter]
    have hs : s = before ++ l ++ after := by simpa using hs
    rw [hs, pieces_of_not_mem hpiece, List.map_singleton, List.map_singleton,
      trim_append_right hafter, trim_append_left hbefore]
  · have hs : s = (before ++ l) ++ (ls ++ [m ++ after]).flatMap (d :: ·) := by simpa using hs
    have hsplit : pieces (· = d) s = (before ++ l) :: (ls ++ [m ++ after]) := by
      refine pieces_eq_cons_iff.mpr ⟨⟨?_, ?_⟩, hs⟩
      · simp [hfree before hbefore, hl]
      · intro n hn
        rcases List.mem_append.mp hn with hn | hn
        · exact hls n (by simp [hn])
        · obtain rfl := List.mem_singleton.mp hn
          simpa [hfree after hafter] using hls m (by simp)
    rw [hsplit]
    simp [trim_append_left hbefore, trim_append_right hafter]

end Blanks

end PatternCardinality.Text
