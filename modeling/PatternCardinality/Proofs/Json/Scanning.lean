import PatternCardinality.Json.Reader
import PatternCardinality.Json.Writer

/-!
# Strings and numbers in front of a text

A quoted string is read back whatever follows it. A number is read as it is read alone if what
follows it could not continue it.
-/

namespace PatternCardinality.Json

section Strings

variable (c : Char) (s rest : List Char) (fuel : Nat)

theorem hexDigit?_hexLetter : ∀ n < 16, hexDigit? (hexLetter n) = some n := by decide

/-- The escape of a control character is its number. -/
theorem unit?_hexLetter {n : Nat} (h : n < 256) :
    unit? ('0' :: '0' :: hexLetter (n / 16) :: hexLetter (n % 16) :: s) = some (n, s) := by
  have hzero : hexDigit? '0' = some 0 := by decide
  have hhigh := hexDigit?_hexLetter (n / 16) (by omega)
  have hlow := hexDigit?_hexLetter (n % 16) (by omega)
  have hsum : n / 16 * 16 + n % 16 = n := Nat.div_add_mod' n 16
  simp [unit?, hzero, hhigh, hlow, hsum]

theorem stringRest?_escaped :
    stringRest? (fuel + 1) (escaped c ++ s) =
      (stringRest? fuel s).map (fun p => (p.1.map (c :: ·), p.2)) := by
  have hshort : ∀ d, shortEscape? d = some c →
      stringRest? (fuel + 1) ('\\' :: d :: s) =
        (stringRest? fuel s).map (fun p => (p.1.map (c :: ·), p.2)) := by
    intro d hd
    have hu : d ≠ 'u' := by
      rintro rfl
      cases hd
    rw [stringRest?.eq_def]
    cases hs : stringRest? fuel s <;> simp [hd, hs]
  rw [escaped]
  split
  · next h => exact hshort '"' (by rw [h]; rfl)
  split
  · next h => exact hshort '\\' (by rw [h]; rfl)
  split
  · next h => exact hshort 'b' (h ▸ rfl)
  split
  · next h => exact hshort 'f' (h ▸ rfl)
  split
  · next h => exact hshort 'n' (h ▸ rfl)
  split
  · next h => exact hshort 'r' (h ▸ rfl)
  split
  · next h => exact hshort 't' (h ▸ rfl)
  split
  · next h =>
    have hunit := unit?_hexLetter s (show c.toNat < 256 by omega)
    have hlow : c.toNat < 0xD800 := by omega
    rw [List.cons_append, List.cons_append, stringRest?]
    cases hs : stringRest? fuel s <;> simp [hunit, hlow, hs, Char.ofNat_toNat]
  · next hquote hslash _ _ _ _ _ hcontrol =>
    rw [List.singleton_append, stringRest?.eq_def]
    cases hs : stringRest? fuel s <;> simp [hslash, hcontrol, hs]

theorem stringRest?_quoted (h : s.length < fuel) :
    stringRest? fuel (s.flatMap escaped ++ '"' :: rest) = some (some s, rest) := by
  induction s generalizing fuel with
  | nil =>
    obtain ⟨fuel, rfl⟩ := Nat.exists_eq_succ_of_ne_zero (Nat.ne_zero_of_lt h)
    simp [stringRest?]
  | cons c s ih =>
    obtain ⟨fuel, rfl⟩ := Nat.exists_eq_succ_of_ne_zero (Nat.ne_zero_of_lt h)
    rw [List.flatMap_cons, List.append_assoc, stringRest?_escaped,
      ih fuel (by simpa using h)]
    rfl

theorem escaped_ne_nil : escaped c ≠ [] := by
  unfold escaped
  repeat' split
  all_goals simp

theorem string?_quoted (name : String) :
    string? (name.toList.flatMap escaped ++ '"' :: rest) = some (some name, rest) := by
  have hlength : ∀ s : List Char, s.length ≤ (s.flatMap escaped).length := by
    intro s
    induction s with
    | nil => simp
    | cons c s ih =>
      have hc := List.length_pos_iff.mpr (escaped_ne_nil c)
      simp only [List.flatMap_cons, List.length_cons, List.length_append]
      omega
  have h := hlength name.toList
  rw [string?, stringRest?_quoted _ _ _ (by simp only [List.length_append]; omega)]
  simp

end Strings

section Numbers

variable {toFloat : Decimal.Literal → Float} {s rest r : List Char}

/-- A number is at its end when this follows. -/
def EndsNumber (rest : List Char) : Prop :=
  ∀ c ∈ rest.head?, c.isDigit = false ∧ c ≠ '.' ∧ c ≠ 'e' ∧ c ≠ 'E'

/-- What is read stands in front, and what ends a number leaves it as it is. -/
structure Scans {β : Type} (read? : List Char → Option (β × List Char)) : Prop where
  suffix : ∀ {s b r}, read? s = some (b, r) → r <:+ s
  append : ∀ {s b r rest}, EndsNumber rest → read? s = some (b, r) →
    read? (s ++ rest) = some (b, r ++ rest)

theorem Scans.pure {β : Type} (b : β) : Scans (fun s => some (b, s)) where
  suffix h := by
    cases h
    exact List.suffix_refl _
  append _ h := by
    cases h
    rfl

theorem Scans.bind {β γ : Type} {f : List Char → Option (β × List Char)}
    {g : β → List Char → Option (γ × List Char)} (hf : Scans f) (hg : ∀ b, Scans (g b)) :
    Scans (fun s => (f s).bind (fun p => g p.1 p.2)) where
  suffix h := by
    obtain ⟨p, hp, h⟩ := Option.bind_eq_some_iff.mp h
    exact ((hg p.1).suffix h).trans (hf.suffix hp)
  append hrest h := by
    obtain ⟨p, hp, h⟩ := Option.bind_eq_some_iff.mp h
    exact Option.bind_eq_some_iff.mpr ⟨_, hf.append hrest hp, (hg p.1).append hrest h⟩

/-- Reads on in one way behind a sign, and in another way where it is missing. -/
def signed? {β : Type} (sign : Char) (f g : List Char → Option (β × List Char)) :
    List Char → Option (β × List Char)
  | [] => none
  | c :: s => if c = sign then f s else g (c :: s)

theorem Scans.signed {β : Type} {f g : List Char → Option (β × List Char)} (sign : Char)
    (hf : Scans f) (hg : Scans g) : Scans (signed? sign f g) where
  suffix {s b r} hs := by
    cases s with
    | nil => cases hs
    | cons c s =>
      rw [signed?] at hs
      split at hs
      · exact (hf.suffix hs).trans (List.suffix_cons _ _)
      · exact hg.suffix hs
  append {s b r rest} hrest hs := by
    cases s with
    | nil => cases hs
    | cons c s =>
      rw [signed?] at hs
      rw [List.cons_append, signed?]
      split at hs
      · next hc =>
        rw [if_pos hc]
        exact hf.append hrest hs
      · next hc =>
        rw [if_neg hc, ← List.cons_append]
        exact hg.append hrest hs

theorem span_append {p : Char → Bool} (h : ∀ c ∈ rest.head?, p c = false) (s : List Char) :
    (s ++ rest).takeWhile p = s.takeWhile p ∧ (s ++ rest).dropWhile p = s.dropWhile p ++ rest := by
  induction s with
  | nil =>
    cases rest with
    | nil => simp
    | cons c rest => simp [h c rfl]
  | cons c s ih =>
    by_cases hc : p c = true <;> simp [hc, ih]

theorem spanDigits_append (h : EndsNumber rest) (s : List Char) :
    Decimal.spanDigits (s ++ rest) =
      ((Decimal.spanDigits s).1, (Decimal.spanDigits s).2 ++ rest) := by
  obtain ⟨htake, hdrop⟩ := span_append (p := Char.isDigit) (fun c hc => (h c hc).1) s
  rw [Decimal.spanDigits, htake, hdrop, Decimal.spanDigits]

theorem spanDigits_suffix {digits : List Nat} (h : Decimal.spanDigits s = (digits, r)) :
    r <:+ s := by
  cases h
  exact List.dropWhile_suffix _

theorem scans_wholePart? : Scans wholePart? where
  suffix {s b r} h := by
    rw [wholePart?] at h
    split at h
    · cases h
    · next hspan =>
      cases h
      exact spanDigits_suffix hspan
    · cases h
    · exact spanDigits_suffix (Option.some.inj h)
  append {s b r rest} hrest h := by
    rw [wholePart?] at h ⊢
    rw [spanDigits_append hrest]
    generalize Decimal.spanDigits s = p at h ⊢
    obtain ⟨digits, after⟩ := p
    split at h
    · cases h
    · next heq =>
      cases heq
      cases h
      rfl
    · cases h
    · cases h
      split <;> simp_all

theorem fractionPart?_of_ne (h : ∀ c ∈ s.head?, c ≠ '.') :
    fractionPart? s = some (none, s) := by
  cases s with
  | nil => rfl
  | cons c s =>
    have hc : c ≠ '.' := h c rfl
    simp [fractionPart?, hc]

theorem scans_fractionPart? : Scans fractionPart? where
  suffix {s b r} h := by
    unfold fractionPart? at h
    split at h
    · split at h
      · cases h
      · next hspan =>
        cases h
        exact (spanDigits_suffix hspan).trans (List.suffix_cons _ _)
    · cases h
      exact List.suffix_refl _
  append {s b r rest} hrest h := by
    cases s with
    | nil =>
      cases h
      exact fractionPart?_of_ne (fun c hc => (hrest c hc).2.1)
    | cons c s =>
      by_cases hc : c = '.'
      · subst hc
        rw [List.cons_append, fractionPart?, spanDigits_append hrest]
        rw [fractionPart?] at h
        generalize Decimal.spanDigits s = p at h ⊢
        obtain ⟨digits, after⟩ := p
        cases digits <;> simp_all
      · have hne : ∀ l, ∀ d ∈ (c :: l).head?, d ≠ '.' := by simpa using hc
        rw [fractionPart?_of_ne (hne s)] at h
        cases h
        exact fractionPart?_of_ne (hne (s ++ rest))

/-- The digits of an exponent whose sign has been read. -/
def exponentDigits? (negative : Bool) (s : List Char) : Option (Option Int × List Char) :=
  (Text.digits? 10 (s.takeWhile Char.isDigit)).map
    (fun n => (some (if negative then -(n : Int) else (n : Int)), s.dropWhile Char.isDigit))

theorem scans_exponentDigits? (negative : Bool) : Scans (exponentDigits? negative) where
  suffix h := by
    obtain ⟨n, -, heq⟩ := Option.map_eq_some_iff.mp h
    cases heq
    exact List.dropWhile_suffix _
  append {s b r rest} hrest h := by
    obtain ⟨htake, hdrop⟩ := span_append (p := Char.isDigit) (fun c hc => (hrest c hc).1) s
    obtain ⟨n, hn, heq⟩ := Option.map_eq_some_iff.mp h
    cases heq
    rw [exponentDigits?, htake, hdrop, hn]
    rfl

theorem exponentPart?_of_ne (h : ∀ c ∈ s.head?, c ≠ 'e' ∧ c ≠ 'E') :
    exponentPart? s = some (none, s) := by
  cases s with
  | nil => rfl
  | cons c s =>
    obtain ⟨he, hE⟩ := h c rfl
    simp [exponentPart?, he, hE]

/-- The exponent behind its letter. -/
def exponent? : List Char → Option (Option Int × List Char) :=
  signed? '-' (exponentDigits? true) (signed? '+' (exponentDigits? false) (exponentDigits? false))

theorem scans_exponent? : Scans exponent? :=
  .signed '-' (scans_exponentDigits? true)
    (.signed '+' (scans_exponentDigits? false) (scans_exponentDigits? false))

theorem exponentPart?_of_letter {c : Char} (hc : c = 'e' ∨ c = 'E') (s : List Char) :
    exponentPart? (c :: s) = exponent? s := by
  cases s with
  | nil => simp [exponentPart?, exponent?, signed?, hc, Text.digits?]
  | cons d s =>
    by_cases hminus : d = '-'
    · simp [exponentPart?, exponent?, signed?, exponentDigits?, hc, hminus]
    · by_cases hplus : d = '+'
      · simp [exponentPart?, exponent?, signed?, exponentDigits?, hc, hplus]
      · simp [exponentPart?, exponent?, signed?, exponentDigits?, hc, hminus, hplus]

theorem scans_exponentPart? : Scans exponentPart? where
  suffix {s b r} h := by
    cases s with
    | nil =>
      cases h
      exact List.suffix_refl _
    | cons c s =>
      by_cases hc : c = 'e' ∨ c = 'E'
      · rw [exponentPart?_of_letter hc] at h
        exact (scans_exponent?.suffix h).trans (List.suffix_cons _ _)
      · have hne : ∀ d ∈ (c :: s).head?, d ≠ 'e' ∧ d ≠ 'E' := by simpa using hc
        rw [exponentPart?_of_ne hne] at h
        cases h
        exact List.suffix_refl _
  append {s b r rest} hrest h := by
    cases s with
    | nil =>
      cases h
      exact exponentPart?_of_ne (fun c hc => (hrest c hc).2.2)
    | cons c s =>
      by_cases hc : c = 'e' ∨ c = 'E'
      · rw [exponentPart?_of_letter hc] at h
        rw [List.cons_append, exponentPart?_of_letter hc]
        exact scans_exponent?.append hrest h
      · have hne : ∀ l, ∀ d ∈ (c :: l).head?, d ≠ 'e' ∧ d ≠ 'E' := by simpa using hc
        rw [exponentPart?_of_ne (hne s)] at h
        cases h
        exact exponentPart?_of_ne (hne (s ++ rest))

/-- The rest of a number whose sign has been read. -/
def unsigned? (toFloat : Decimal.Literal → Float) (negative : Bool) (s : List Char) :
    Option (Json × List Char) := do
  let (whole, s) ← wholePart? s
  let (fraction, s) ← fractionPart? s
  let (exponent, s) ← exponentPart? s
  if fraction.isNone ∧ exponent.isNone then some (ofInteger toFloat negative whole, s)
  else some (ofLiteral toFloat ⟨negative, whole, fraction.getD [], exponent.getD 0⟩, s)

/-- The value of a number of which all parts have been read. -/
def ofParts (toFloat : Decimal.Literal → Float) (negative : Bool) (whole : List Nat)
    (fraction : Option (List Nat)) (exponent : Option Int) : Json :=
  if fraction.isNone ∧ exponent.isNone then ofInteger toFloat negative whole
  else ofLiteral toFloat ⟨negative, whole, fraction.getD [], exponent.getD 0⟩

theorem unsigned?_eq (negative : Bool) : unsigned? toFloat negative = fun s =>
    (wholePart? s).bind (fun w => (fractionPart? w.2).bind (fun f => (exponentPart? f.2).bind
      (fun e => some (ofParts toFloat negative w.1 f.1 e.1, e.2)))) := by
  funext s
  refine Option.bind_congr (fun w _ => Option.bind_congr (fun f _ => ?_))
  refine Option.bind_congr (fun e _ => ?_)
  rw [ofParts]
  dsimp only
  split <;> rfl

theorem scans_unsigned? (negative : Bool) : Scans (unsigned? toFloat negative) := by
  have hexponent (whole : List Nat) (fraction : Option (List Nat)) :=
    scans_exponentPart?.bind (g := fun e s => some (ofParts toFloat negative whole fraction e, s))
      (fun _ => .pure _)
  rw [unsigned?_eq]
  exact scans_wholePart?.bind (fun whole => scans_fractionPart?.bind (hexponent whole))

theorem number?_eq : number? toFloat = signed? '-' (unsigned? toFloat true)
    (unsigned? toFloat false) := by
  funext s
  cases s with
  | nil => rfl
  | cons c s =>
    by_cases hc : c = '-'
    · simp [number?, signed?, unsigned?, hc]
    · simp [number?, signed?, unsigned?, hc]

theorem scans_number? : Scans (number? toFloat) :=
  number?_eq ▸ .signed '-' (scans_unsigned? true) (scans_unsigned? false)

theorem head_of_number? {c : Char} {p : Json × List Char}
    (h : number? toFloat (c :: s) = some p) : c = '-' ∨ c.isDigit = true := by
  rw [number?_eq, signed?] at h
  split at h
  · next hc => exact .inl hc
  · obtain ⟨⟨whole, s₁⟩, hwhole, -⟩ := Option.bind_eq_some_iff.mp h
    cases hc : c.isDigit with
    | true => exact .inr rfl
    | false => simp [wholePart?, Decimal.spanDigits, hc] at hwhole

end Numbers

section Blanks

/-- No blank stands in the text. -/
def Unspaced (l : List Char) : Prop := ∀ c ∈ l, isSpace c = false

theorem unspaced_nil : Unspaced [] := by simp [Unspaced]

theorem unspaced_cons {c : Char} {l : List Char} :
    Unspaced (c :: l) ↔ isSpace c = false ∧ Unspaced l := List.forall_mem_cons

theorem unspaced_append {l m : List Char} : Unspaced (l ++ m) ↔ Unspaced l ∧ Unspaced m :=
  List.forall_mem_append

theorem Unspaced.subset {l m : List Char} (h : Unspaced l) (hsub : m ⊆ l) : Unspaced m :=
  fun c hc => h c (hsub hc)

theorem unspaced_of_isDigit {l : List Char} (h : ∀ c ∈ l, c.isDigit = true) : Unspaced l := by
  intro c hc
  have hne : ∀ d : Char, d.isDigit = false → c ≠ d := by
    rintro d hd rfl
    rw [h c hc] at hd
    cases hd
  simp [isSpace, hne]

theorem unspaced_nat (n : Nat) : Unspaced (toString n).toList := by
  rw [Nat.toString_eq_repr, Nat.toList_repr]
  exact unspaced_of_isDigit (fun c hc => Nat.isDigit_of_mem_toDigits (by decide) (by decide) hc)

theorem unspaced_int (n : Int) : Unspaced (toString n).toList := by
  rw [Int.toString_eq_repr, Int.repr_eq_if]
  split
  · exact unspaced_nat n.toNat
  · rw [String.toList_append, unspaced_append]
    exact ⟨by simp [Unspaced, isSpace], unspaced_nat (-n).toNat⟩

theorem unspaced_zeros (n : Nat) : Unspaced (Decimal.zeros n) :=
  unspaced_of_isDigit (fun _ hc => List.eq_of_mem_replicate hc ▸ rfl)

theorem unspaced_inPlace {layout : Decimal.Layout} {digits : List Char} (h : Unspaced digits)
    (point : Int) : Unspaced (Decimal.inPlace layout digits point) := by
  rw [Decimal.inPlace]
  split
  · simp only [unspaced_cons, unspaced_append]
    exact ⟨rfl, rfl, unspaced_zeros _, h⟩
  · split
    · simp only [unspaced_append]
      refine ⟨⟨h, unspaced_zeros _⟩, ?_⟩
      split <;> simp [Unspaced, isSpace]
    · simp only [unspaced_append, unspaced_cons]
      exact ⟨h.subset (List.take_subset _ _), rfl, h.subset (List.drop_subset _ _)⟩

theorem unspaced_withExponent {layout : Decimal.Layout} {digits : List Char} (h : Unspaced digits)
    (e : Int) : Unspaced (Decimal.withExponent layout digits e) := by
  rw [Decimal.withExponent]
  simp only [unspaced_append, unspaced_cons]
  refine ⟨⟨⟨h.subset (List.take_subset _ _), ?_⟩, rfl, ?_⟩, unspaced_int e⟩
  · split
    · exact unspaced_nil
    · exact unspaced_cons.mpr ⟨rfl, h.subset (List.drop_subset _ _)⟩
  · split <;> simp [Unspaced, isSpace]

theorem unspaced_finite (layout : Decimal.Layout) (bits : UInt64) :
    Unspaced (layout.finite bits) := by
  rw [Decimal.Layout.finite]
  split
  · split <;> simp [Unspaced, isSpace]
  · rw [Decimal.Layout.decimal]
    split
    · exact unspaced_inPlace (unspaced_nat _) _
    · exact unspaced_withExponent (unspaced_nat _) _

/-- Blanks stand in no number. -/
theorem unspaced_text (layout : Decimal.Layout) (x : Float) : Unspaced (layout.text x).toList := by
  rw [Decimal.Layout.text, Decimal.signedText]
  split
  · simp [Unspaced, isSpace]
  · have hmagnitude : Unspaced (if x.isInf then ['i', 'n', 'f'] else layout.finite x.toBits) := by
      split
      · simp [Unspaced, isSpace]
      · exact unspaced_finite layout x.toBits
    rw [String.toList_ofList]
    split
    · exact unspaced_cons.mpr ⟨rfl, hmagnitude⟩
    · exact hmagnitude

end Blanks

end PatternCardinality.Json
