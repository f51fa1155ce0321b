import Mathlib
import PatternCardinality.Decimal.Layout
import PatternCardinality.Proofs.Decimal.Nearest
import PatternCardinality.Proofs.Text.Numeral

/-!
# Decimals and their texts

The grammar of numbers in decimal: a sign, digits with a point among or around them, and an
exponent. What the grammar derives from a decimal is read as the double nearest to it, and the plain
text of a finite double is derived from a decimal that stands for it. So a double is read back from
its text.
-/

namespace PatternCardinality.Decimal

open Text

/-- Digits as characters. -/
def figures (ds : List ℕ) : List Char := ds.map Nat.digitChar

/-- The number that digits stand for. -/
def ofFigures (ds : List ℕ) : ℕ := ds.foldl (fun n k => n * 10 + k) 0

/-- A sign, and whether it is a minus. -/
inductive SignText : Bool → List Char → Prop
  | absent : SignText false []
  | plus : SignText false ['+']
  | minus : SignText true ['-']

/-- A power of ten in scientific form; the first power is left out. -/
inductive ExponentText : ℤ → List Char → Prop
  | absent : ExponentText 0 []
  | present {mark negative s ds} (letter : mark = 'e' ∨ mark = 'E') (sign : SignText negative s)
      (some : ds ≠ []) (decimal : ∀ k ∈ ds, k < 10) :
      ExponentText (if negative then -(ofFigures ds : ℤ) else ofFigures ds)
        (mark :: (s ++ figures ds))

/-- The texts of a decimal. There is a digit on one side of a point at least. -/
inductive Literal.SpelledBy : Literal → List Char → Prop
  | whole {negative s whole e t} (sign : SignText negative s) (some : whole ≠ [])
      (decimal : ∀ k ∈ whole, k < 10) (exponent : ExponentText e t) :
      SpelledBy ⟨negative, whole, [], e⟩ (s ++ (figures whole ++ t))
  | pointed {negative s whole fraction e t} (sign : SignText negative s)
      (some : whole ++ fraction ≠ []) (decimal : ∀ k ∈ whole ++ fraction, k < 10)
      (exponent : ExponentText e t) :
      SpelledBy ⟨negative, whole, fraction, e⟩
        (s ++ (figures whole ++ '.' :: (figures fraction ++ t)))

section Reading

variable {ds : List ℕ} {s t : List Char} {negative : Bool} {e : ℤ} {d : Literal} {x : Float}

theorem isAlpha_of_isDigit {c : Char} (h : c.isDigit = true) : c.isAlpha = false := by
  refine Bool.eq_false_iff.mpr (fun halpha => ?_)
  simp [Char.isAlpha, Char.isLower, Char.isUpper, Char.isDigit, UInt32.le_iff_toNat_le] at *
  omega

theorem isDigit_of_mem_figures (h : ∀ k ∈ ds, k < 10) : ∀ c ∈ figures ds, c.isDigit = true := by
  simpa [figures, Nat.isDigit_digitChar] using h

theorem digitsFrom_figures (h : ∀ k ∈ ds, k < 10) (n : ℕ) :
    digitsFrom 10 n (figures ds) = some (ds.foldl (fun n k => n * 10 + k) n) := by
  induction ds generalizing n with
  | nil => rfl
  | cons k ds ih =>
    obtain ⟨hk, hds⟩ := List.forall_mem_cons.mp h
    have hdigit : digit? k.digitChar = some k := digit?_digitChar (by omega)
    simp only [figures, List.map_cons, digitsFrom, hdigit, hk, ↓reduceIte]
    exact ih hds _

theorem digits?_figures (hne : ds ≠ []) (h : ∀ k ∈ ds, k < 10) :
    digits? 10 (figures ds) = some (ofFigures ds) := by
  rw [digits?_of_ne_nil (by simpa [figures] using hne), digitsFrom_figures h]
  rfl

/-- Digits are split off up to a character that is none. -/
theorem spanDigits_figures (h : ∀ k ∈ ds, k < 10) (ht : ∀ c ∈ t.head?, c.isDigit = false) :
    spanDigits (figures ds ++ t) = (ds, t) := by
  have hvalue : ∀ k < 10, (Nat.digitChar k).toNat - '0'.toNat = k := by decide
  have hstop : t.takeWhile Char.isDigit = [] ∧ t.dropWhile Char.isDigit = t := by
    cases t with
    | nil => exact ⟨rfl, rfl⟩
    | cons c t => simp [ht c rfl]
  rw [spanDigits, List.takeWhile_append_of_pos (isDigit_of_mem_figures h),
    List.dropWhile_append_of_pos (isDigit_of_mem_figures h), hstop.1, hstop.2, List.append_nil,
    figures, List.map_map]
  have hvalues := List.map_congr_left (fun k hk => hvalue k (h k hk))
  exact congrArg (·, t) (hvalues.trans (List.map_id ds))

theorem ExponentText.head_isAlpha (h : ExponentText e t) : ∀ c ∈ t.head?, c.isAlpha = true := by
  cases h with
  | absent => simp
  | present letter =>
    rcases letter with rfl | rfl <;> simp [Char.isAlpha, Char.isLower, Char.isUpper]

theorem ExponentText.head_isDigit (h : ExponentText e t) : ∀ c ∈ t.head?, c.isDigit = false := by
  intro c hc
  refine Bool.eq_false_iff.mpr (fun hdigit => ?_)
  have halpha := h.head_isAlpha c hc
  rw [isAlpha_of_isDigit hdigit] at halpha
  cases halpha

theorem ExponentText.exponent?_eq (h : ExponentText e t) : exponent? t = some e := by
  cases h with
  | absent => rfl
  | @present mark negative s ds letter sign hne hds =>
    have hdigits := digits?_figures hne hds
    cases sign with
    | plus => simp [exponent?, letter, hdigits]
    | minus => simp [exponent?, letter, hdigits]
    | absent =>
      -- the first digit is no sign
      obtain ⟨k, ds, rfl⟩ := List.exists_cons_of_ne_nil hne
      have hdigit := isDigit_of_mem_figures hds k.digitChar List.mem_cons_self
      rw [exponent?.eq_def]
      simp only [letter, ↓reduceIte, List.nil_append]
      split
      · next hminus =>
        rw [(List.cons.inj hminus).1] at hdigit
        cases hdigit
      · next hplus =>
        rw [(List.cons.inj hplus).1] at hdigit
        cases hdigit
      · rw [hdigits]
        rfl

/-- Only a letter begins the name of a number. -/
theorem named?_eq_none {c : Char} (h : c.isAlpha = false) : named? (c :: s) = none := by
  have hlower : c.toLower.isAlpha = false := by rw [Char.isAlpha_toLower_eq_isAlpha, h]
  have hname : ∀ (name : List Char) (b : Char), name.head? = some b → b.isAlpha = true →
      String.ofList ((c :: s).map Char.toLower) ≠ String.ofList name := by
    rintro name b hb halpha heq
    rw [← String.ofList_injective heq, List.map_cons, List.head?_cons, Option.some.injEq] at hb
    rw [hb, halpha] at hlower
    cases hlower
  rw [named?, if_neg (not_or.mpr ⟨hname _ 'i' rfl rfl, hname _ 'i' rfl rfl⟩),
    if_neg (hname _ 'n' rfl rfl)]

/-- A sign is read if no other one stands behind it. -/
theorem number?_signed (sign : SignText negative s) {c : Char} (hc : c.isDigit = true ∨ c = '.')
    (h : unsignedLiteral? negative (c :: t) = some d) :
    number? (s ++ c :: t) = some d.nearest := by
  have hsome : c.isAlpha = false ∧ c ≠ '-' ∧ c ≠ '+' := by
    rcases hc with hc | rfl
    · refine ⟨isAlpha_of_isDigit hc, ?_, ?_⟩ <;> rintro rfl <;> cases hc
    · decide
  have hname : named? (c :: t) = none := named?_eq_none hsome.1
  cases sign with
  | plus => simp [number?, hname, h]
  | minus => simp [number?, hname, h]
  | absent => simp [number?, hname, h, hsome]

theorem unsignedLiteral?_whole (hne : ds ≠ []) (hds : ∀ k ∈ ds, k < 10)
    (exponent : ExponentText e t) :
    unsignedLiteral? negative (figures ds ++ t) = some ⟨negative, ds, [], e⟩ := by
  have hpoint : ∀ r, t ≠ '.' :: r := by
    rintro r rfl
    cases exponent.head_isAlpha '.' rfl
  rw [unsignedLiteral?, spanDigits_figures hds exponent.head_isDigit]
  simp [hne, exponent.exponent?_eq]

theorem unsignedLiteral?_pointed {fraction : List ℕ} (hne : ds ++ fraction ≠ [])
    (h : ∀ k ∈ ds ++ fraction, k < 10) (exponent : ExponentText e t) :
    unsignedLiteral? negative (figures ds ++ '.' :: (figures fraction ++ t)) =
      some ⟨negative, ds, fraction, e⟩ := by
  obtain ⟨hds, hfraction⟩ := List.forall_mem_append.mp h
  have hsome : ¬(ds.isEmpty && fraction.isEmpty) = true := by simpa using hne
  rw [unsignedLiteral?, spanDigits_figures hds (by simp [Char.isDigit])]
  simp only [spanDigits_figures hfraction exponent.head_isDigit, if_neg hsome,
    exponent.exponent?_eq]
  rfl

/-- What the grammar derives from a decimal is read as the double nearest to it. -/
theorem Literal.SpelledBy.number?_eq (h : d.SpelledBy s) : number? s = some d.nearest := by
  cases h with
  | @whole negative s whole e t sign hne hds exponent =>
    obtain ⟨k, ds, rfl⟩ := List.exists_cons_of_ne_nil hne
    have hdigit := isDigit_of_mem_figures hds k.digitChar List.mem_cons_self
    exact number?_signed sign (.inl hdigit) (unsignedLiteral?_whole hne hds exponent)
  | @pointed negative s whole fraction e t sign hne hds exponent =>
    cases whole with
    | nil => exact number?_signed sign (.inr rfl) (unsignedLiteral?_pointed hne hds exponent)
    | cons k ds =>
      have hdigit := isDigit_of_mem_figures (List.forall_mem_append.mp hds).1 k.digitChar
        List.mem_cons_self
      exact number?_signed sign (.inl hdigit) (unsignedLiteral?_pointed hne hds exponent)

/-- A double is read from each text of each decimal that stands for it. -/
theorem Literal.Denotes.number?_eq (h : d.Denotes x) (spelled : d.SpelledBy s) :
    number? s = some x := by
  rw [spelled.number?_eq, h.nearest_eq]

end Reading

section Writing

variable {ds : List ℕ} {s : List Char} {negative : Bool} {d : Numeral} {x : Float}

theorem length_figures (ds : List ℕ) : (figures ds).length = ds.length := List.length_map _

theorem figures_append (ds es : List ℕ) : figures (ds ++ es) = figures ds ++ figures es :=
  List.map_append

theorem figures_zeros (n : ℕ) : figures (List.replicate n 0) = zeros n := List.map_replicate

theorem ofFigures_append (ds es : List ℕ) :
    ofFigures (ds ++ es) = ofFigures ds * 10 ^ es.length + ofFigures es := by
  induction es using List.reverseRecOn with
  | nil => simp [ofFigures]
  | append_singleton es k ih =>
    have hlast : ∀ l : List ℕ, ofFigures (l ++ [k]) = ofFigures l * 10 + k := fun l =>
      List.foldl_append ..
    rw [← List.append_assoc, hlast, hlast, ih, List.length_append, List.length_singleton]
    ring

theorem ofFigures_zeros (n : ℕ) : ofFigures (List.replicate n 0) = 0 := by
  induction n with
  | zero => rfl
  | succ n ih => exact ih

/-- A natural number is written with its digits. -/
theorem exists_figures (n : ℕ) : ∃ ds, (toString n).toList = figures ds ∧ (∀ k ∈ ds, k < 10) ∧
    ds ≠ [] ∧ ofFigures ds = n := by
  rw [Nat.toString_eq_repr, Nat.toList_repr]
  induction n using Nat.strong_induction_on with
  | _ n ih =>
    by_cases hn : n < 10
    · exact ⟨[n], Nat.toDigits_of_lt_base hn, by simpa using hn, List.cons_ne_nil _ _, by
        simp [ofFigures]⟩
    · have hten : 10 ≤ n := Nat.le_of_not_lt hn
      obtain ⟨ds, hds, hdecimal, -, hvalue⟩ := ih (n / 10) (Nat.div_lt_self (by omega) (by decide))
      refine ⟨ds ++ [n % 10], ?_, ?_, by simp, ?_⟩
      · rw [Nat.toDigits_of_base_le (by decide) hten, hds, figures, figures, List.map_append]
        rfl
      · exact List.forall_mem_append.mpr
          ⟨hdecimal, List.forall_mem_singleton.mpr (Nat.mod_lt n (by decide))⟩
      · rw [ofFigures_append, hvalue]
        simpa [ofFigures] using Nat.div_add_mod' n 10

theorem Literal.value_numeral (negative : Bool) (whole fraction : List ℕ) (e : ℤ) :
    (Literal.mk negative whole fraction e).numeral.value =
      ofFigures (whole ++ fraction) * 10 ^ (e - fraction.length) := rfl

/-- Digits with a point at some place among or around them. -/
theorem exists_spelledBy_inPlace (sign : SignText negative s) (hne : ds ≠ [])
    (hds : ∀ k ∈ ds, k < 10) (point : ℤ) : ∃ l : Literal,
      l.SpelledBy (s ++ inPlace Layout.positional (figures ds) point) ∧ l.negative = negative ∧
        l.numeral.value = ofFigures ds * 10 ^ (point - ds.length) := by
  have hzero : ∀ n, ∀ k ∈ List.replicate n 0, k < 10 := fun n k hk => by
    rw [List.eq_of_mem_replicate hk]
    decide
  rw [inPlace, length_figures]
  split
  · next hpoint =>
    -- all digits are behind the point
    have hall : ∀ k ∈ [0] ++ (List.replicate (-point).toNat 0 ++ ds), k < 10 :=
      List.forall_mem_append.mpr ⟨by decide, List.forall_mem_append.mpr ⟨hzero _, hds⟩⟩
    refine ⟨⟨negative, [0], List.replicate (-point).toNat 0 ++ ds, 0⟩, ?_, rfl, ?_⟩
    · have hspelled := Literal.SpelledBy.pointed sign (List.cons_ne_nil _ _) hall .absent
      rwa [List.append_nil, figures_append, figures_zeros] at hspelled
    · have hscale : (0 : ℤ) - (List.replicate (-point).toNat 0 ++ ds).length =
          point - ds.length := by
        rw [List.length_append, List.length_replicate]
        push_cast
        omega
      rw [Literal.value_numeral, hscale, ofFigures_append, ofFigures_append, ofFigures_zeros]
      simp [ofFigures]
  · next hpoint =>
    obtain ⟨n, rfl⟩ := Int.eq_ofNat_of_zero_le (not_le.mp hpoint).le
    rw [Int.toNat_natCast]
    split
    · next hshort =>
      -- all digits are before the point
      refine ⟨⟨negative, ds ++ List.replicate (n - ds.length) 0, [], 0⟩, ?_, rfl, ?_⟩
      · have hspelled := Literal.SpelledBy.whole sign (List.append_ne_nil_of_left_ne_nil hne _)
          (List.forall_mem_append.mpr ⟨hds, hzero (n - ds.length)⟩) .absent
        rwa [figures_append, figures_zeros] at hspelled
      · rw [Literal.value_numeral, List.append_nil, ofFigures_append, ofFigures_zeros,
          List.length_replicate, ← Nat.cast_sub hshort, zpow_natCast]
        simp
    · next hlong =>
      have hsplit : ds.take n ++ ds.drop n = ds := List.take_append_drop n ds
      refine ⟨⟨negative, ds.take n, ds.drop n, 0⟩, ?_, rfl, ?_⟩
      · have hspelled : Literal.SpelledBy ⟨negative, ds.take n, ds.drop n, 0⟩ _ :=
          .pointed sign (by rwa [hsplit]) (by rwa [hsplit]) .absent
        simpa only [figures, List.map_take, List.map_drop, List.append_nil] using hspelled
      · have hscale : (0 : ℤ) - (ds.drop n).length = n - ds.length := by
          rw [List.length_drop]
          omega
        rw [Literal.value_numeral, hscale, hsplit]

/-- With every digit in place a decimal is written as one of the same value. -/
theorem exists_spelledBy_decimal (sign : SignText negative s) (d : Numeral) : ∃ l : Literal,
    l.SpelledBy (s ++ Layout.positional.decimal d) ∧ l.negative = negative ∧
      l.numeral.value = d.value := by
  obtain ⟨ds, htext, hds, hne, hvalue⟩ := exists_figures d.digits
  obtain ⟨l, hspelled, hnegative, hl⟩ :=
    exists_spelledBy_inPlace sign hne hds ((figures ds).length + d.exponent)
  refine ⟨l, ?_, hnegative, ?_⟩
  · rw [Layout.decimal, htext]
    exact hspelled
  · rw [hl, hvalue, length_figures, add_sub_cancel_left, Numeral.value]

/-- A finite double is written as a decimal that stands for it. -/
theorem exists_spelledBy_text (h : x.isFinite = true) :
    ∃ l : Literal, l.SpelledBy (text x).toList ∧ l.Denotes x := by
  obtain ⟨hnan, hinf⟩ := Double.not_isNaN_of_isFinite h
  obtain ⟨s, hsign, htext⟩ : ∃ s, SignText (Double.isNegative x) s ∧
      (text x).toList = s ++ Layout.positional.finite x.toBits := by
    rw [text, Layout.text, signedText, hnan, hinf]
    cases Double.isNegative x with
    | false => exact ⟨[], .absent, by simp⟩
    | true => exact ⟨['-'], .minus, by simp⟩
  have hexact := identifiedBy_exact (Binary.ofBits x.toBits)
  have hshortest := identifiedBy_shortest (Binary.ofBits x.toBits) .up
  rw [htext, Layout.finite]
  split
  · next hzero =>
    have hspelled : Literal.SpelledBy ⟨Double.isNegative x, [0], [], 0⟩ _ :=
      .whole hsign (List.cons_ne_nil _ _) (by decide) .absent
    refine ⟨_, hspelled, h, rfl, ?_⟩
    rw [← hexact]
    refine identifiedBy_congr ?_
    rw [value_exact, hzero, Literal.value_numeral]
    simp [ofFigures]
  · obtain ⟨l, hspelled, hnegative, hvalue⟩ := exists_spelledBy_decimal hsign
      ((Binary.ofBits x.toBits).shortest .up)
    exact ⟨l, hspelled, h, hnegative, (identifiedBy_congr hvalue).trans hshortest⟩

/-- A finite double is read back from its text. -/
theorem number?_text (h : x.isFinite = true) : number? (text x).toList = some x := by
  obtain ⟨l, hspelled, hdenotes⟩ := exists_spelledBy_text h
  exact hdenotes.number?_eq hspelled

end Writing

end PatternCardinality.Decimal
