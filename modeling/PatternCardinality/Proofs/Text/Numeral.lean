import Mathlib
import PatternCardinality.Decimal.Literal
import PatternCardinality.Proofs.Text.Pieces

/-! Numbers written out and read back: natural numbers and 32-bit integers in decimal, 32 bits in
hexadecimal. A text that is read as a decimal number consists of letters, digits, signs and points,
so it survives among tabs, lines and equals signs. -/

namespace PatternCardinality.Text

/-- The characters of numbers. -/
def isFigure (c : Char) : Bool := c.isAlphanum || c = '+' || c = '-' || c = '.'

theorem isFigure_of_isAlphanum {c : Char} (h : c.isAlphanum = true) : isFigure c = true := by
  simp [isFigure, h]

theorem isBlank_of_isFigure {c : Char} (h : isFigure c = true) : isBlank c = false := by
  simp only [isFigure, Bool.or_eq_true, decide_eq_true_eq] at h
  rcases h with ((h | rfl) | rfl) | rfl
  · simp [Char.isAlphanum, Char.isAlpha, Char.isUpper, Char.isLower, Char.isDigit, isBlank,
      blankRanges, UInt32.le_iff_toNat_le] at *
    omega
  · rfl
  · rfl
  · rfl

/-- Figures stand apart from every character that is none. -/
theorem not_mem_of_figures {s : List Char} (h : ∀ c ∈ s, isFigure c = true) {c : Char}
    (hc : isFigure c = false) : c ∉ s := by
  intro hmem
  rw [h c hmem] at hc
  cases hc

/-- There is nothing to trim around figures. -/
theorem trim_figures {s : List Char} (h : ∀ c ∈ s, isFigure c = true) : trim s = s :=
  trim_of_trimmed ⟨fun c hc => isBlank_of_isFigure (h c (List.mem_of_mem_head? hc)),
    fun c hc => isBlank_of_isFigure (h c (List.mem_of_getLast? hc))⟩

section Digits

variable {base : ℕ} {s : List Char}

theorem isAlphanum_of_digit? {c : Char} {d : ℕ} (h : digit? c = some d) : c.isAlphanum = true := by
  have hrange : ('0' ≤ c ∧ c ≤ '9') ∨ ('a' ≤ c ∧ c ≤ 'z') ∨ ('A' ≤ c ∧ c ≤ 'Z') := by
    rw [digit?] at h
    split at h
    · exact .inl ‹_›
    · split at h
      · exact .inr (.inl ‹_›)
      · split at h
        · exact .inr (.inr ‹_›)
        · cases h
  simp only [Char.isAlphanum, Char.isAlpha, Char.isUpper, Char.isLower, Char.isDigit,
    Bool.or_eq_true, decide_eq_true_eq, Bool.and_eq_true]
  rcases hrange with hr | hr | hr
  · exact .inr hr
  · exact .inl (.inr hr)
  · exact .inl (.inl hr)

theorem isAlphanum_of_digitsFrom {n m : ℕ} (h : digitsFrom base n s = some m) :
    ∀ c ∈ s, c.isAlphanum = true := by
  induction s generalizing n with
  | nil => simp
  | cons c s ih =>
    rw [digitsFrom] at h
    split at h
    · next d hd =>
      split at h
      · exact List.forall_mem_cons.mpr ⟨isAlphanum_of_digit? hd, ih h⟩
      · cases h
    · cases h

theorem isAlphanum_of_digits? {n : ℕ} (h : digits? base s = some n) :
    ∀ c ∈ s, c.isAlphanum = true := by
  cases s with
  | nil => cases h
  | cons c s => exact isAlphanum_of_digitsFrom h

theorem digits?_of_ne_nil (h : s ≠ []) : digits? base s = digitsFrom base 0 s := by
  cases s with
  | nil => exact absurd rfl h
  | cons c s => rfl

/-- One more digit multiplies by the base. -/
theorem digitsFrom_concat {n m d : ℕ} {c : Char} (h : digitsFrom base n s = some m)
    (hc : digit? c = some d) (hd : d < base) :
    digitsFrom base n (s ++ [c]) = some (m * base + d) := by
  induction s generalizing n with
  | nil =>
    cases h
    simp [digitsFrom, hc, hd]
  | cons e s ih =>
    rw [digitsFrom] at h
    split at h
    · next k hk =>
      split at h
      · next hlt => simp [digitsFrom, hk, hlt, ih h]
      · cases h
    · cases h

theorem digit?_digitChar {d : ℕ} (h : d < 16) : digit? (Nat.digitChar d) = some d := by
  have hall : ∀ d < 16, digit? (Nat.digitChar d) = some d := by decide
  exact hall d h

/-- A text without a sign in front is read as digits. -/
theorem unsigned?_of_digits? {limit n : ℕ} (h : digits? base s = some n) (hn : n ≤ limit) :
    unsigned? base limit s = some n := by
  cases s with
  | nil => cases h
  | cons c s =>
    have hc : c ≠ '+' := by
      rintro rfl
      have hplus := isAlphanum_of_digits? h '+' List.mem_cons_self
      cases hplus
    simp [unsigned?, h, hn, hc]

/-- A text without a sign in front is read as digits of a number below the limit. -/
theorem signed?_of_digits? {limit n : ℕ} (h : digits? base s = some n) :
    signed? base limit s = if n < limit then some (n : ℤ) else none := by
  cases s with
  | nil => cases h
  | cons c s =>
    have hplus : c ≠ '+' := by
      rintro rfl
      have hsign := isAlphanum_of_digits? h '+' List.mem_cons_self
      cases hsign
    have hminus : c ≠ '-' := by
      rintro rfl
      have hsign := isAlphanum_of_digits? h '-' List.mem_cons_self
      cases hsign
    have hvalue : signed? base limit (c :: s) =
        ((digits? base (c :: s)).filter (· < limit)).map (fun n => (n : ℤ)) := by
      rw [signed?.eq_def]
      split
      · next heq => exact absurd (List.cons.inj heq).1 hminus
      · next heq => exact absurd (List.cons.inj heq).1 hplus
      · rfl
    rw [hvalue, h, Option.filter_some]
    split
    · next hn => exact (if_pos (of_decide_eq_true hn)).symm
    · next hn => exact (if_neg fun hlt => hn (decide_eq_true hlt)).symm

end Digits

section Decimal

theorem digitsFrom_toDigits (n : ℕ) : digitsFrom 10 0 (Nat.toDigits 10 n) = some n := by
  induction n using Nat.strong_induction_on with
  | _ n ih =>
    by_cases hn : n < 10
    · rw [Nat.toDigits_of_lt_base hn]
      simp [digitsFrom, digit?_digitChar (Nat.lt_trans hn (by decide)), hn]
    · have hten : 10 ≤ n := Nat.le_of_not_lt hn
      have hlast : n % 10 < 10 := Nat.mod_lt n (by decide)
      rw [Nat.toDigits_of_base_le (by decide) hten,
        digitsFrom_concat (ih (n / 10) (Nat.div_lt_self (by omega) (by decide)))
          (digit?_digitChar (Nat.lt_trans hlast (by decide))) hlast]
      exact congrArg some (Nat.div_add_mod' n 10)

theorem digits?_toString (n : ℕ) : digits? 10 (toString n).toList = some n := by
  rw [Nat.toString_eq_repr, Nat.toList_repr, digits?_of_ne_nil Nat.toDigits_ne_nil,
    digitsFrom_toDigits]

theorem isFigure_toString_nat (n : ℕ) : ∀ c ∈ (toString n).toList, isFigure c = true :=
  fun c hc => isFigure_of_isAlphanum (isAlphanum_of_digits? (digits?_toString n) c hc)

theorem unsigned?_toString {n limit : ℕ} (h : n ≤ limit) :
    unsigned? 10 limit (toString n).toList = some n :=
  unsigned?_of_digits? (digits?_toString n) h

/-- An integer in decimal is a natural number, with a minus sign in front if it is negative. -/
theorem toString_int32 (n : Int32) : (toString n).toList =
    if 0 ≤ n.toInt then (toString n.toInt.toNat).toList
    else '-' :: (toString (-n.toInt).toNat).toList := by
  change n.toInt.repr.toList = _
  rw [Int.repr_eq_if]
  split <;> simp [Nat.toString_eq_repr]

theorem isFigure_toString_int32 (n : Int32) : ∀ c ∈ (toString n).toList, isFigure c = true := by
  rw [toString_int32]
  split
  · exact isFigure_toString_nat _
  · exact List.forall_mem_cons.mpr ⟨rfl, isFigure_toString_nat _⟩

/-- Every 32-bit integer is read back from its decimal text. -/
theorem int32?_toString (n : Int32) : int32? (toString n).toList = some n := by
  have hlow : -2 ^ 31 ≤ n.toInt := n.le_toInt
  have hhigh : n.toInt < 2 ^ 31 := n.toInt_lt
  have hsigned : signed? 10 (Nat.pow 2 31) (toString n).toList = some n.toInt := by
    rw [toString_int32]
    split
    · next hsign =>
      have hlt : n.toInt.toNat < Nat.pow 2 31 := by
        change n.toInt.toNat < 2147483648
        omega
      rw [signed?_of_digits? (digits?_toString _), if_pos hlt, Int.toNat_of_nonneg hsign]
    · next hsign =>
      have hle : (-n.toInt).toNat ≤ Nat.pow 2 31 := by
        change (-n.toInt).toNat ≤ 2147483648
        omega
      rw [signed?, digits?_toString, Option.filter_some, if_pos (decide_eq_true hle)]
      change some (-((-n.toInt).toNat : ℤ)) = some n.toInt
      rw [Option.some.injEq]
      omega
  rw [int32?, hsigned, Option.map_some, Int32.ofInt_toInt]

/-- A natural number that fits 32 bits with a sign is one of them, not negative. -/
theorem exists_int32_of_lt {n : ℕ} (h : n < 2 ^ 31) : ∃ m : Int32,
    toString m = toString n ∧ ¬m < 0 ∧ m.toInt.toNat = n := by
  have hvalue : (Int32.ofNat n).toInt = n := Int32.toInt_ofNat_of_lt h
  refine ⟨Int32.ofNat n, ?_, ?_, ?_⟩
  · change (Int32.ofNat n).toInt.repr = n.repr
    rw [hvalue]
    rfl
  · rw [Int32.lt_iff_toInt_lt, hvalue]
    exact Int.not_lt.mpr (Int.natCast_nonneg n)
  · rw [hvalue, Int.toNat_natCast]

end Decimal

section Hexadecimal

/-- The last `k` hexadecimal digits of a number. -/
def hexDigits : ℕ → ℕ → List Char
  | 0, _ => []
  | k + 1, n => hexDigits k (n / 16) ++ [Nat.digitChar (n % 16)]

theorem digitsFrom_hexDigits (k n : ℕ) : digitsFrom 16 0 (hexDigits k n) = some (n % 16 ^ k) := by
  induction k generalizing n with
  | zero => simp [hexDigits, digitsFrom, Nat.mod_one]
  | succ k ih =>
    have hlast : n % 16 < 16 := Nat.mod_lt n (by decide)
    rw [hexDigits, digitsFrom_concat (ih (n / 16)) (digit?_digitChar hlast) hlast,
      Option.some.injEq, Nat.pow_succ', Nat.mod_mul, Nat.add_comm, Nat.mul_comm]

theorem isFigure_hexDigits (k n : ℕ) : ∀ c ∈ hexDigits k n, isFigure c = true :=
  fun c hc => isFigure_of_isAlphanum (isAlphanum_of_digitsFrom (digitsFrom_hexDigits k n) c hc)

/-- The bits of a 32-bit integer, with its two's complement if it is negative. -/
def hexText (h : Int32) : List Char := hexDigits 8 h.toUInt32.toNat

theorem hexText_ne_nil (h : Int32) : hexText h ≠ [] := by
  simp [hexText, hexDigits]

theorem digits?_hexText (h : Int32) : digits? 16 (hexText h) = some h.toUInt32.toNat := by
  rw [digits?_of_ne_nil (hexText_ne_nil h), hexText, digitsFrom_hexDigits, Option.some.injEq]
  exact Nat.mod_eq_of_lt h.toUInt32.toNat_lt

end Hexadecimal

end PatternCardinality.Text

namespace PatternCardinality.Decimal

open Text

theorem isFigure_of_named? {s : List Char} {x : Float} (h : named? s = some x) :
    s ≠ [] ∧ ∀ c ∈ s, isFigure c = true := by
  have hname : ∃ name : List Char, s.map Char.toLower = name ∧ name ≠ [] ∧
      name.all Char.isAlpha = true := by
    rw [named?] at h
    split at h
    · next hinf =>
      rcases hinf with hinf | hinf
      · exact ⟨_, String.ofList_injective hinf, List.cons_ne_nil _ _, rfl⟩
      · exact ⟨_, String.ofList_injective hinf, List.cons_ne_nil _ _, rfl⟩
    · split at h
      · next hnan => exact ⟨_, String.ofList_injective hnan, List.cons_ne_nil _ _, rfl⟩
      · cases h
  obtain ⟨name, hmap, hne, hletters⟩ := hname
  constructor
  · rintro rfl
    exact hne hmap.symm
  · intro c hc
    have hlower := List.all_eq_true.mp hletters c.toLower (hmap ▸ List.mem_map_of_mem hc)
    rw [Char.isAlpha_toLower_eq_isAlpha] at hlower
    exact isFigure_of_isAlphanum (by rw [Char.isAlphanum, hlower, Bool.true_or])

theorem isFigure_of_exponent? {s : List Char} {n : ℤ} (h : exponent? s = some n) :
    ∀ c ∈ s, isFigure c = true := by
  have hdigits : ∀ {r : List Char}, digits? 10 r ≠ none → ∀ c ∈ r, isFigure c = true := by
    intro r hr c hc
    obtain ⟨m, hm⟩ := Option.ne_none_iff_exists'.mp hr
    exact isFigure_of_isAlphanum (isAlphanum_of_digits? hm c hc)
  cases s with
  | nil => simp
  | cons e s =>
    rw [exponent?.eq_def] at h
    dsimp only at h
    split at h
    · next he =>
      have he : isFigure e = true := by
        rcases he with rfl | rfl <;> rfl
      refine List.forall_mem_cons.mpr ⟨he, ?_⟩
      split at h
      · exact List.forall_mem_cons.mpr ⟨rfl, hdigits (fun hnone => by simp [hnone] at h)⟩
      · exact List.forall_mem_cons.mpr ⟨rfl, hdigits (fun hnone => by simp [hnone] at h)⟩
      · exact hdigits (fun hnone => by simp [hnone] at h)
    · cases h

theorem isFigure_takeWhile (s : List Char) : ∀ c ∈ s.takeWhile Char.isDigit, isFigure c = true := by
  intro c hc
  have hdigit := List.all_eq_true.mp List.all_takeWhile c hc
  exact isFigure_of_isAlphanum (by rw [Char.isAlphanum, hdigit, Bool.or_true])

theorem isFigure_of_unsignedLiteral? {negative : Bool} {s : List Char} {d : Literal}
    (h : unsignedLiteral? negative s = some d) : s ≠ [] ∧ ∀ c ∈ s, isFigure c = true := by
  constructor
  · rintro rfl
    simp [unsignedLiteral?, spanDigits] at h
  · rw [← List.takeWhile_append_dropWhile (p := Char.isDigit) (l := s), List.forall_mem_append]
    refine ⟨isFigure_takeWhile s, ?_⟩
    rw [unsignedLiteral?] at h
    dsimp only [spanDigits] at h
    split at h
    · next r hr =>
      rw [Option.ite_none_left_eq_some] at h
      obtain ⟨-, h⟩ := h
      obtain ⟨n, hn, -⟩ := Option.bind_eq_some_iff.mp h
      rw [hr, ← List.takeWhile_append_dropWhile (p := Char.isDigit) (l := r)]
      exact List.forall_mem_cons.mpr ⟨rfl, List.forall_mem_append.mpr
        ⟨isFigure_takeWhile r, isFigure_of_exponent? hn⟩⟩
    · rw [Option.ite_none_left_eq_some] at h
      obtain ⟨-, h⟩ := h
      obtain ⟨n, hn, -⟩ := Option.bind_eq_some_iff.mp h
      exact isFigure_of_exponent? hn

/-- What is read as a number is made of figures. -/
theorem isFigure_of_number? {s : List Char} {x : Float} (h : number? s = some x) :
    s ≠ [] ∧ ∀ c ∈ s, isFigure c = true := by
  rw [number?.eq_def] at h
  split at h
  next negative r hr =>
  have hunsigned : r ≠ [] ∧ ∀ c ∈ r, isFigure c = true := by
    split at h
    · next hname => exact isFigure_of_named? hname
    · obtain ⟨d, hd, -⟩ := Option.map_eq_some_iff.mp h
      exact isFigure_of_unsignedLiteral? hd
  split at hr
  · cases hr
    exact ⟨List.cons_ne_nil _ _, List.forall_mem_cons.mpr ⟨rfl, hunsigned.2⟩⟩
  · cases hr
    exact ⟨List.cons_ne_nil _ _, List.forall_mem_cons.mpr ⟨rfl, hunsigned.2⟩⟩
  · cases hr
    exact hunsigned

end PatternCardinality.Decimal
