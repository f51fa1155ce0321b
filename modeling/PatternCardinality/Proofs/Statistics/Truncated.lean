import PatternCardinality.Proofs.Ordered.Map
import PatternCardinality.Proofs.Statistics.Transcript
import PatternCardinality.Proofs.Statistics.Written

/-!
# Hashes of 64 bits in statistics

Frequent values are listed with hashes of up to 64 bits, of which the lower 32 are kept. A hash may
be written as its bits, or as a magnitude with its sign. Both are read, and give the same 32 bits,
but for the magnitude of the least integer: it has a sign in front, and is no integer without it.
-/

namespace PatternCardinality

namespace Text

variable {base n : ℕ} {s : List Char}

/-- A number in hexadecimal: its digits, letters among them in either case, behind any number of
zeros. -/
def IsHexadecimal (n : ℕ) (s : List Char) : Prop :=
  ∃ k, 0 < k ∧ n < 16 ^ k ∧ s.map Char.toLower = hexDigits k n

/-- Letters are digits in either case. -/
theorem digit?_toLower (c : Char) : digit? c.toLower = digit? c := by
  have hdigit : ∀ c : Char, digit? c = if 48 ≤ c.toNat ∧ c.toNat ≤ 57 then some (c.toNat - 48)
      else if 97 ≤ c.toNat ∧ c.toNat ≤ 122 then some (c.toNat - 97 + 10)
      else if 65 ≤ c.toNat ∧ c.toNat ≤ 90 then some (c.toNat - 65 + 10) else none := by
    intro c
    simp only [digit?, Char.le_def, UInt32.le_iff_toNat_le]
    rfl
  by_cases hupper : 65 ≤ c.toNat ∧ c.toNat ≤ 90
  · have hlower : c.toLower.toNat = c.toNat + 32 := by
      have hval : c.val ≥ 'A'.val ∧ c.val ≤ 'Z'.val := by
        simpa [UInt32.le_iff_toNat_le] using hupper
      rw [Char.toLower, dif_pos hval]
      change (c.toNat + 32) % 4294967296 = c.toNat + 32
      omega
    obtain ⟨hlow, hhigh⟩ := hupper
    rw [hdigit, hdigit, hlower, if_neg (by omega), if_pos (by omega), if_neg (by omega),
      if_neg (by omega), if_pos ⟨hlow, hhigh⟩, Option.some.injEq]
    omega
  · have hval : ¬(c.val ≥ 'A'.val ∧ c.val ≤ 'Z'.val) := by
      simpa [UInt32.le_iff_toNat_le] using hupper
    rw [Char.toLower, dif_neg hval]

theorem digitsFrom_map_toLower : digitsFrom base n (s.map Char.toLower) = digitsFrom base n s := by
  induction s generalizing n with
  | nil => rfl
  | cons c s ih => simp only [List.map_cons, digitsFrom, digit?_toLower, ih]

theorem IsHexadecimal.digits? (h : IsHexadecimal n s) : digits? 16 s = some n := by
  obtain ⟨k, hk, hn, htext⟩ := h
  have hne : s ≠ [] := by
    rintro rfl
    cases k with
    | zero => exact Nat.lt_irrefl 0 hk
    | succ k => simp [hexDigits] at htext
  rw [digits?_of_ne_nil hne, ← digitsFrom_map_toLower, htext, digitsFrom_hexDigits,
    Nat.mod_eq_of_lt hn]

/-- Digits are letters and figures. -/
theorem IsHexadecimal.isFigure (h : IsHexadecimal n s) : ∀ c ∈ s, isFigure c = true :=
  fun c hc => isFigure_of_isAlphanum (isAlphanum_of_digits? h.digits? c hc)

theorem IsHexadecimal.head?_ne (h : IsHexadecimal n s) : s.head? ≠ some '-' := by
  intro hminus
  have hletter := isAlphanum_of_digits? h.digits? '-' (List.mem_of_mem_head? hminus)
  cases hletter

end Text

namespace Statistics

open Text (IsHexadecimal)

/-- How a hash of 64 bits is written: as its bits, which are the two's complement of a negative one,
or as its magnitude, with a minus sign in front of that of a negative one. -/
inductive HashText (v : Int64) : List Char → Prop
  | bits {s : List Char} (h : IsHexadecimal v.toUInt64.toNat s) : HashText v s
  | magnitude {s : List Char} (hv : 0 ≤ v) (h : IsHexadecimal v.toInt.natAbs s) : HashText v s
  | negative {s : List Char} (hv : v < 0) (h : IsHexadecimal v.toInt.natAbs s) :
    HashText v ('-' :: s)

/-- The text of the least integer as a magnitude, which is beyond the greatest. -/
def Overflows (v : Int64) (s : List Char) : Prop := v = Int64.minValue ∧ s.head? = some '-'

instance (v : Int64) (s : List Char) : Decidable (Overflows v s) :=
  inferInstanceAs (Decidable (_ ∧ _))

namespace Reading

variable {v : Int64} {s : List Char}

theorem hash?_bits (h : IsHexadecimal v.toUInt64.toNat s) : hash? s = some v.toInt32 := by
  have hvalue : Int64.ofNat v.toUInt64.toNat = v := by
    cases v
    simp [Int64.ofNat]
  rw [hash?_of_digits? h.digits? v.toUInt64.toNat_lt, ← Int64.toInt32_ofNat', hvalue]

theorem hash?_magnitude (hv : 0 ≤ v) (h : IsHexadecimal v.toInt.natAbs s) :
    hash? s = some v.toInt32 := by
  have hnonneg : 0 ≤ v.toInt := Int64.le_iff_toInt_le.mp hv
  have hlt : v.toInt < 2 ^ 63 := v.toInt_lt
  have hvalue : Int32.ofNat v.toInt.natAbs = Int32.ofInt v.toInt := by
    rw [← Int32.ofInt_eq_ofNat, Int.natAbs_of_nonneg hnonneg]
  rw [hash?_of_digits? h.digits? (by omega), hvalue, Int32.ofInt_int64ToInt]

/-- The magnitude behind a minus sign must be one that a positive integer has too. -/
theorem hash?_negative (hv : v < 0) (h : IsHexadecimal v.toInt.natAbs s) :
    hash? ('-' :: s) = if v = Int64.minValue then none else some v.toInt32 := by
  have hneg : v.toInt < 0 := Int64.lt_iff_toInt_lt.mp hv
  have hle : -2 ^ 63 ≤ v.toInt := v.le_toInt
  have hleast : v.toInt.natAbs < Nat.pow 2 63 ↔ v ≠ Int64.minValue := by
    rw [Ne, ← Int64.toInt_inj]
    change v.toInt.natAbs < 9223372036854775808 ↔ ¬v.toInt = -9223372036854775808
    omega
  rw [hash?, Text.trim_figures (List.forall_mem_cons.mpr ⟨rfl, h.isFigure⟩)]
  change (Text.signed? 16 (Nat.pow 2 63) s).map (fun n => Int32.ofInt (-n)) = _
  rw [Text.signed?_of_digits? h.digits?]
  by_cases hmin : v = Int64.minValue
  · rw [if_neg (fun hlt => hleast.mp hlt hmin), if_pos hmin]
    rfl
  · rw [if_pos (hleast.mpr hmin), if_neg hmin, Option.map_some, Int.ofNat_natAbs_of_nonpos hneg.le,
      neg_neg, Int32.ofInt_int64ToInt]

/-- Either text of a hash is read, and gives the lower half, unless it overflows. -/
theorem hash?_hashText (h : HashText v s) :
    hash? s = if Overflows v s then none else some v.toInt32 := by
  cases h with
  | bits h => rw [hash?_bits h, if_neg fun hover => h.head?_ne hover.2]
  | magnitude hv h => rw [hash?_magnitude hv h, if_neg fun hover => h.head?_ne hover.2]
  | negative hv h =>
    rw [hash?_negative hv h]
    exact if_congr (and_iff_left rfl).symm rfl rfl

end Reading

theorem HashText.isFigure {v : Int64} {s : List Char} (h : HashText v s) :
    ∀ c ∈ s, Text.isFigure c = true := by
  cases h with
  | bits h | magnitude _ h => exact h.isFigure
  | negative _ h => exact List.forall_mem_cons.mpr ⟨rfl, h.isFigure⟩

/-- A hash ends where the equals sign is. -/
theorem HashText.cut? {v : Int64} {s : List Char} (h : HashText v s) (share : List Char) :
    Text.cut? '=' (s ++ '=' :: share) = some (s, share) :=
  Text.cut?_eq_some_iff.mpr ⟨Text.not_mem_of_figures h.isFigure rfl, rfl⟩

/-- A frequent value as a field: a hash of 64 bits, in a text that does not overflow, and a share,
with an equals sign between them. -/
def IsHashed (f : List Char) (e : Int64 × Float) : Prop :=
  ∃ s share, f = s ++ '=' :: share ∧ HashText e.1 s ∧ ¬Overflows e.1 s ∧ IsNumber share e.2

theorem IsHashed.isFrequent {f : List Char} {e : Int64 × Float} (h : IsHashed f e) :
    IsFrequent f (e.1.toInt32, e.2) := by
  obtain ⟨s, share, rfl, htext, hover, hshare⟩ := h
  exact ⟨s, share, htext.cut? share, by rw [Reading.hash?_hashText htext, if_neg hover], hshare⟩

/-- A summary of the values of a property whose frequent values have hashes of 64 bits. -/
structure WideSummary where
  key : PropertyKey
  count : Float
  unique : Float
  numeric : Float
  frequent : List (Int64 × Float)
  quantiles : List Float

namespace WideSummary

/-- The summary with the lower 32 bits of each hash. -/
def truncated (w : WideSummary) : PropertySummary Float :=
  ⟨w.count, w.unique, w.numeric, OrderedMap.ofList (w.frequent.map fun e => (e.1.toInt32, e.2)),
    w.quantiles⟩

/-- A record of the summary, field by field. -/
def IsRecord (w : WideSummary) (l : List Char) : Prop :=
  ∃ owner property count unique numeric number entries quantiles n,
    fieldsOf l = owner :: property :: count :: unique :: numeric :: number ::
      (entries ++ quantiles) ∧
    IsInteger owner w.key.owner ∧ IsInteger property w.key.property ∧ IsNumber count w.count ∧
    IsNumber unique w.unique ∧ IsNumber numeric w.numeric ∧ IsInteger number n ∧
    n.toInt = entries.length ∧ List.Forall₂ IsHashed entries w.frequent ∧
    List.Forall₂ IsNumber quantiles w.quantiles

variable {w : WideSummary} {l : List Char}

theorem IsRecord.isSummary (h : w.IsRecord l) : IsSummary l (w.key, w.truncated) := by
  obtain ⟨owner, property, count, unique, numeric, number, entries, quantiles, n, hfields, howner,
    hproperty, hcount, hunique, hnumeric, hnumber, hn, hentries, hquantiles⟩ := h
  have hlength : n.toInt.toNat = entries.length := by rw [hn, Int.toNat_natCast]
  have hnonneg : 0 ≤ n := by
    rw [Int32.le_iff_toInt_le, hn]
    exact Int.natCast_nonneg _
  have hfrequent : List.Forall₂ IsFrequent entries
      (w.frequent.map fun e => (e.1.toInt32, e.2)) :=
    List.forall₂_map_right_iff.mpr (hentries.imp fun _ _ he => he.isFrequent)
  rw [IsSummary, hfields]
  refine ⟨by simp, _, _, _, _, _, n, howner, hproperty, hcount, hunique, hnumeric, hnumber, hnonneg,
    ?_, _, _, ?_, ?_, rfl⟩
  · simp only [hlength, List.length_cons, List.length_append]
    omega
  · simpa [hlength] using hfrequent
  · simpa [hlength, Nat.add_comm] using hquantiles

end WideSummary

/-- A hash is truncated, in whichever way it is written: its text gives the lower 32 bits, unless it
is the magnitude of the least integer, which is refused like the entry that it is in. A record of
hashes in texts that are not refused is read, and in its table each hash of 32 bits has the share of
the last value whose hash ends in it. -/
theorem Reading.hash?_truncates {v : Int64} {s : List Char} (h : HashText v s) :
    (hash? s = if Overflows v s then none else some v.toInt32) ∧
    (∀ (share : List Char) (c : Cursor), Overflows v s →
      frequent (s ++ '=' :: share) c =
        .error (.badStatistics c.asked (.badHash (String.ofList s)))) ∧
    ∀ (w : WideSummary) (l : List Char) (rest : List (List Char)) (asked : ℕ), w.IsRecord l →
      summary ⟨l :: rest, asked⟩ = .ok ((w.key, w.truncated), ⟨rest, asked + 1⟩) ∧
      ∀ hash : Int32, w.truncated.frequency? hash =
        ((w.frequent.filter (fun e => e.1.toInt32 = hash)).getLast?).map Prod.snd := by
  refine ⟨hash?_hashText h, fun share c hover => ?_, fun w l rest asked hrecord =>
    ⟨?_, fun hash => ?_⟩⟩
  · rw [frequent, h.cut?]
    simp only [hash?_hashText h, if_pos hover]
    rfl
  · exact (accepts_summary _ _ _ _).mpr ⟨[l], rfl, rfl, l, rfl, hrecord.isSummary⟩
  · rw [PropertySummary.frequency?, WideSummary.truncated, OrderedMap.get?_ofList, List.filter_map,
      List.getLast?_map, Option.map_map]
    rfl

/-- Two values of one property, with hashes of which the lower halves are negative. -/
def halves : WideSummary := ⟨⟨1, 0⟩, 60, 50, 0, [(0x7FFFFFFF80000000, 0.5), (-1, 0.25)], []⟩

/-- One hash is written as its bits, in capitals, and the other one with its sign. -/
def halvesRecord : List Char := "1\t0\t60\t50\t0\t2\t7FFFFFFF80000000=0.5\t-01=0.25".toList

theorem isRecord_halves : halves.IsRecord halvesRecord := by
  refine ⟨['1'], ['0'], ['6', '0'], ['5', '0'], ['0'], ['2'],
    ["7FFFFFFF80000000=0.5".toList, "-01=0.25".toList], [], 2, by decide +kernel, by decide +kernel,
    by decide +kernel, by decide +kernel, by decide +kernel, by decide +kernel, by decide +kernel,
    by decide +kernel, ?_, .nil⟩
  have hbits : HashText 0x7FFFFFFF80000000 "7FFFFFFF80000000".toList :=
    .bits ⟨16, by decide, by decide +kernel, by decide +kernel⟩
  have hnegative : HashText (-1) "-01".toList :=
    .negative (by decide) ⟨2, by decide, by decide +kernel, by decide +kernel⟩
  exact .cons ⟨_, "0.5".toList, by decide +kernel, hbits, by decide +kernel, by decide +kernel⟩
    (.cons ⟨_, "0.25".toList, by decide +kernel, hnegative, by decide +kernel, by decide +kernel⟩
      .nil)

theorem hashText_least : HashText Int64.minValue "-8000000000000000".toList :=
  .negative (by decide) ⟨16, by decide, by decide +kernel, by decide +kernel⟩

/-- Both values are found under the lower halves of their hashes, and the entry of the least integer
is refused. -/
theorem Reading.hash?_truncates_halves : HashText Int64.minValue "-8000000000000000".toList ∧
    hash? "-8000000000000000".toList = none ∧
    frequent "-8000000000000000=0.5".toList ⟨[], 7⟩ =
      .error (.badStatistics 7 (.badHash "-8000000000000000")) ∧
    halves.IsRecord halvesRecord ∧
    summary ⟨[halvesRecord], 0⟩ = .ok ((halves.key, halves.truncated), ⟨[], 1⟩) ∧
    halves.truncated.frequency? (-2147483648) = some 0.5 ∧
    halves.truncated.frequency? (-1) = some 0.25 := by
  obtain ⟨hhash, hfrequent, hsummary⟩ := hash?_truncates hashText_least
  obtain ⟨hread, hfound⟩ := hsummary halves halvesRecord [] 0 isRecord_halves
  refine ⟨hashText_least, hhash, hfrequent "0.5".toList ⟨[], 7⟩ ⟨rfl, by decide +kernel⟩,
    isRecord_halves, hread, ?_, ?_⟩
  · rw [hfound]
    decide +kernel
  · rw [hfound]
    decide +kernel

/-- The bits of the least integer are read as the hash that their lower half is, and its magnitude is
not read. -/
theorem Reading.hash?_refuses_least :
    HashText Int64.minValue "8000000000000000".toList ∧
    hash? "8000000000000000".toList = some Int64.minValue.toInt32 ∧
    HashText Int64.minValue "-8000000000000000".toList ∧
    hash? "-8000000000000000".toList = none := by
  refine ⟨.bits ⟨16, by decide, by decide +kernel, by decide +kernel⟩, by decide +kernel,
    hashText_least, by decide +kernel⟩

end Statistics

end PatternCardinality
