import PatternCardinality.Proofs.Outcome
import PatternCardinality.Statistics.Reader

/-! A reader of statistics goes through the lines in order and decides by the lines that it has
asked for. On every text it either takes some of the first lines, whatever follows them, or finds
the last line that it has asked for at fault, or lacks a line behind the last one. This is kept when
readers follow one another, so the number of lines asked for and the lines taken never drift apart,
and a text that is cut off is noticed at the first line that is missing. -/

namespace PatternCardinality.Statistics

namespace Reading

variable {β γ : Type}

/-- From any text that goes on with `used`, the reader takes these lines and gives `b`. -/
def Takes (r : Reading β) (used : List (List Char)) (b : β) : Prop :=
  ∀ rest n, r ⟨used ++ rest, n⟩ = .ok (b, ⟨rest, n + used.length⟩)

/-- In any text that goes on with `used`, the reader finds the last of these lines at fault. -/
def Refuses (r : Reading β) (used : List (List Char)) (fault : StatisticsFault) : Prop :=
  ∀ rest n, r ⟨used ++ rest, n⟩ = .error (.badStatistics (n + used.length) fault)

/-- The reader asks for one more line than `used`. -/
def Lacks (r : Reading β) (used : List (List Char)) : Prop :=
  ∀ n, r ⟨used, n⟩ = .error (.badStatistics (n + used.length + 1) .endOfFile)

/-- What the reader decides on a text, by the lines that it asks for. -/
inductive Settles (r : Reading β) (text : List (List Char)) : Prop
  | taken {used rest b} (split : text = used ++ rest) (takes : Takes r used b)
      (short : ∀ k < used.length, Lacks r (used.take k))
  | refused {used rest fault} (split : text = used ++ rest) (refuses : Refuses r used fault)
  | lacking (lacks : Lacks r text)

/-- Every text is settled by the lines that the reader asks for. -/
def Local (r : Reading β) : Prop := ∀ text, Settles r text

section Sequence

variable {r : Reading β} {f : β → Reading γ} {used more : List (List Char)} {b : β} {c : γ}
  {fault : StatisticsFault}

theorem bind_of_ok {s s' : Cursor} (h : r s = .ok (b, s')) : (r >>= f) s = f b s' := by
  change (r s >>= fun p => f p.1 p.2) = f b s'
  rw [h]
  rfl

theorem bind_of_error {s : Cursor} {e : Failure Float} (h : r s = .error e) :
    (r >>= f) s = .error e := by
  change (r s >>= fun p => f p.1 p.2) = .error e
  rw [h]
  rfl

theorem Takes.bind (h : Takes r used b) (hf : Takes (f b) more c) :
    Takes (r >>= f) (used ++ more) c := by
  intro rest n
  rw [List.append_assoc, bind_of_ok (h (more ++ rest) n), hf rest, List.length_append,
    Nat.add_assoc]

/-- A reader that follows and asks for no line leaves the lines as they are. -/
theorem Takes.bind_nil (h : Takes r used b) (hf : Takes (f b) [] c) : Takes (r >>= f) used c := by
  have htake := h.bind hf
  rwa [List.append_nil] at htake

theorem Takes.bind_refuses (h : Takes r used b) (hf : Refuses (f b) more fault) :
    Refuses (r >>= f) (used ++ more) fault := by
  intro rest n
  rw [List.append_assoc, bind_of_ok (h (more ++ rest) n), hf rest, List.length_append,
    Nat.add_assoc]

theorem Takes.bind_lacks (h : Takes r used b) (hf : Lacks (f b) more) :
    Lacks (r >>= f) (used ++ more) := by
  intro n
  rw [bind_of_ok (h more n), hf, List.length_append, Nat.add_assoc n]

theorem Refuses.bind (h : Refuses r used fault) : Refuses (r >>= f) used fault :=
  fun rest n => bind_of_error (h rest n)

theorem Lacks.bind (h : Lacks r used) : Lacks (r >>= f) used :=
  fun n => bind_of_error (h n)

/-- A text that is cut off among the lines of either reader is too short for both together. -/
theorem Takes.bind_short (h : Takes r used b) (short : ∀ k < used.length, Lacks r (used.take k))
    (hf : ∀ k < more.length, Lacks (f b) (more.take k)) {k : Nat}
    (hk : k < (used ++ more).length) : Lacks (r >>= f) ((used ++ more).take k) := by
  by_cases hused : k < used.length
  · rw [List.take_append_of_le_length (Nat.le_of_lt hused)]
    exact (short k hused).bind
  · rw [List.take_append, List.take_of_length_le (Nat.le_of_not_lt hused)]
    rw [List.length_append] at hk
    exact h.bind_lacks (hf (k - used.length) (by omega))

theorem Local.bind (h : Local r) (hf : ∀ b, Local (f b)) : Local (r >>= f) := by
  intro text
  cases h text with
  | taken split takes short =>
    rename_i used rest b
    subst split
    cases hf b rest with
    | taken split takes' short' =>
      subst split
      exact .taken (List.append_assoc ..).symm (takes.bind takes')
        fun k hk => takes.bind_short short short' hk
    | refused split refuses =>
      subst split
      exact .refused (List.append_assoc ..).symm (takes.bind_refuses refuses)
    | lacking lacks => exact .lacking (takes.bind_lacks lacks)
  | refused split refuses => exact .refused split refuses.bind
  | lacking lacks => exact .lacking lacks.bind

end Sequence

theorem takes_pure (b : β) : Takes (pure b) [] b := fun _ _ => rfl

theorem takes_line (l : List Char) : Takes line [l] l := fun _ _ => rfl

theorem local_pure (b : β) : Local (pure b) := fun _ => .taken rfl (takes_pure b) (by simp)

theorem local_fail (fault : StatisticsFault) : Local (fail fault : Reading β) :=
  fun _ => .refused (List.nil_append _).symm fun _ _ => rfl

theorem local_line : Local line := by
  intro text
  cases text with
  | nil => exact .lacking fun _ => rfl
  | cons l rest =>
    refine .taken (List.singleton_append ..).symm (takes_line l) ?_
    intro k hk
    obtain rfl : k = 0 := by simpa using hk
    exact fun _ => rfl

theorem Local.mapM {α : Type} {f : α → Reading β} (h : ∀ a, Local (f a)) (l : List α) :
    Local (l.mapM f) := by
  induction l with
  | nil => exact local_pure []
  | cons a l ih =>
    rw [List.mapM_cons]
    exact (h a).bind fun b => ih.bind fun rest => local_pure (b :: rest)

theorem Local.repeated {record : Reading β} (h : Local record) (n : Nat) :
    Local (repeated record n) := by
  induction n with
  | zero => exact local_pure []
  | succ n ih => exact h.bind fun first => ih.bind fun rest => local_pure (first :: rest)

theorem local_title (expected : String) : Local (title expected) := by
  refine local_line.bind fun l => ?_
  split
  · exact local_pure ()
  · exact local_fail _

theorem local_count : Local count := by
  refine local_line.bind fun l => ?_
  cases Text.unsigned? 10 (Nat.pow 2 64 - 1) (Text.trim l) with
  | none => exact local_fail _
  | some n => exact local_pure n

theorem local_fields (least : Nat) : Local (fields least) := by
  refine local_line.bind fun l => ?_
  dsimp only
  split
  · exact local_fail _
  · exact local_pure _

theorem local_integer (field : List Char) : Local (integer field) := by
  rw [integer]
  split
  · exact local_pure _
  · exact local_fail _

theorem local_number (field : List Char) : Local (number field) := by
  rw [number]
  split
  · exact local_pure _
  · exact local_fail _

theorem local_label : Local label :=
  (local_fields 3).bind fun _ => (local_integer _).bind fun _ => (local_number _).bind fun _ =>
    local_pure _

theorem local_type : Local type :=
  (local_fields 6).bind fun _ => (local_integer _).bind fun _ => (local_number _).bind fun _ =>
    (local_number _).bind fun _ => (local_number _).bind fun _ => (local_number _).bind fun _ =>
      local_pure _

theorem local_property : Local property :=
  (local_fields 2).bind fun _ => (local_integer _).bind fun _ => local_pure _

theorem local_relationships : Local relationships :=
  (local_fields 4).bind fun _ => (local_integer _).bind fun _ => (local_integer _).bind fun _ =>
    (local_integer _).bind fun _ => (local_number _).bind fun _ => local_pure _

theorem local_frequent (entry : List Char) : Local (frequent entry) := by
  rw [frequent]
  split
  · exact local_fail _
  · split
    · exact local_fail _
    · exact (local_number _).bind fun _ => local_pure _

theorem local_summary : Local summary := by
  refine (local_fields 6).bind fun f => (local_integer _).bind fun owner =>
    (local_integer _).bind fun property => (local_number _).bind fun count =>
    (local_number _).bind fun unique => (local_number _).bind fun numeric =>
    (local_integer _).bind fun n => ?_
  split
  · exact local_fail _
  · dsimp only
    split
    · exact local_fail _
    · exact (Local.mapM local_frequent _).bind fun entries =>
        (Local.mapM local_number _).bind fun quantiles => local_pure _

theorem local_labelProperty : Local labelProperty := local_summary.bind fun _ => local_pure _

theorem local_typeProperty : Local typeProperty := local_summary.bind fun _ => local_pure _

theorem Local.inSection {record : Reading β} (h : Local record) (heading : String) :
    Local (inSection heading record) :=
  (local_title heading).bind fun _ => local_count.bind fun n => h.repeated n

/-- The whole reader decides by the lines that it asks for. -/
theorem local_store : Local store :=
  (local_title _).bind fun _ => local_count.bind fun _ =>
    (local_label.inSection _).bind fun _ => (local_type.inSection _).bind fun _ =>
    (local_property.inSection _).bind fun _ => (local_relationships.inSection _).bind fun _ =>
    ((local_fields 10).inSection _).bind fun _ => (local_labelProperty.inSection _).bind fun _ =>
    (local_typeProperty.inSection _).bind fun _ => local_pure _

/-- No text is refused before a line was asked for. -/
theorem length_pos_of_refuses_store {used : List (List Char)} {fault : StatisticsFault}
    (h : Refuses store used fault) : 0 < used.length := by
  apply List.length_pos_iff.mpr
  rintro rfl
  have hempty : store ⟨[], 0⟩ = .error (.badStatistics 1 .endOfFile) := rfl
  have hline := (h [] 0).symm.trans hempty
  simp at hline

end Reading

/-- The first lines of a text, with the line feeds that end them. -/
def firstLines : Nat → List Char → List Char
  | 0, _ => []
  | _ + 1, [] => []
  | k + 1, c :: s => c :: firstLines (if c = '\n' then k else k + 1) s

/-- A line feed ends the line before it, whatever follows. -/
theorem exists_linesFrom_feed (line : List Char) :
    ∃ l, ∀ s, linesFrom line ('\n' :: s) = l :: linesFrom [] s :=
  ⟨_, fun _ => by rw [linesFrom.eq_def]; rfl⟩

theorem linesFrom_cons {c : Char} (hc : c ≠ '\n') (line s : List Char) :
    linesFrom line (c :: s) = linesFrom (c :: line) s := by
  rw [linesFrom.eq_def]
  simp [hc]

theorem linesFrom_firstLines (k : Nat) (line s : List Char) :
    linesFrom line (firstLines (k + 1) s) = (linesFrom line s).take (k + 1) := by
  induction s generalizing k line with
  | nil =>
    rw [firstLines, linesFrom]
    split <;> simp
  | cons c s ih =>
    by_cases hc : c = '\n'
    · subst hc
      obtain ⟨l, hl⟩ := exists_linesFrom_feed line
      rw [firstLines, if_pos rfl, hl, hl, List.take_succ_cons]
      cases k with
      | zero => simp [firstLines, linesFrom]
      | succ k => rw [ih]
    · rw [firstLines, if_neg hc, linesFrom_cons hc, linesFrom_cons hc, ih]

/-- Cut off behind so many lines, a text consists of these. -/
theorem lines_firstLines (k : Nat) (s : String) :
    lines (String.ofList (firstLines k s.toList)) = (lines s).take k := by
  cases k with
  | zero => simp [firstLines, lines, linesFrom]
  | succ k => rw [lines, String.toList_ofList, linesFrom_firstLines, lines]

section Decision

variable {s t : String} {used rest : List (List Char)} {b : Store Float} {fault : StatisticsFault}

theorem read_of_takes (split : lines s = used ++ rest) (h : Reading.Takes Reading.store used b) :
    read s = .ok b := by
  have hrun := h rest 0
  rw [← split] at hrun
  rw [read, StateT.run, hrun]
  rfl

theorem read_of_refuses (split : lines s = used ++ rest)
    (h : Reading.Refuses Reading.store used fault) :
    read s = .error (.badStatistics used.length fault) := by
  have hrun := h rest 0
  rw [← split, Nat.zero_add] at hrun
  rw [read, StateT.run, hrun]
  rfl

theorem read_of_lacks (h : Reading.Lacks Reading.store (lines s)) :
    read s = .error (.badStatistics ((lines s).length + 1) .endOfFile) := by
  have hrun := h 0
  rw [Nat.zero_add] at hrun
  rw [read, StateT.run, hrun]
  rfl

/-- An accepted text begins with lines that are taken, none of which may be missing. -/
theorem takes_of_read (h : read s = .ok b) : ∃ used rest, lines s = used ++ rest ∧
    Reading.Takes Reading.store used b ∧
    ∀ k < used.length, Reading.Lacks Reading.store (used.take k) := by
  cases Reading.local_store (lines s) with
  | taken split takes short =>
    obtain rfl := Except.ok.inj ((read_of_takes split takes).symm.trans h)
    exact ⟨_, _, split, takes, short⟩
  | refused split refuses => cases (read_of_refuses split refuses).symm.trans h
  | lacking lacks => cases (read_of_lacks lacks).symm.trans h

/-- A rejected text begins with lines of which the last is at fault, or it lacks a line. -/
theorem refuses_or_lacks_of_read {e : Failure Float} (h : read s = .error e) :
    (∃ used rest fault, lines s = used ++ rest ∧ Reading.Refuses Reading.store used fault ∧
      e = .badStatistics used.length fault) ∨
    (Reading.Lacks Reading.store (lines s) ∧
      e = .badStatistics ((lines s).length + 1) .endOfFile) := by
  cases Reading.local_store (lines s) with
  | taken split takes _ => cases (read_of_takes split takes).symm.trans h
  | refused split refuses =>
    obtain rfl := Except.error.inj ((read_of_refuses split refuses).symm.trans h)
    exact .inl ⟨_, _, _, split, refuses, rfl⟩
  | lacking lacks =>
    obtain rfl := Except.error.inj ((read_of_lacks lacks).symm.trans h)
    exact .inr ⟨lacks, rfl⟩

/-- Texts with the same first lines both go on with these. -/
theorem split_of_take_eq (split : lines s = used ++ rest)
    (h : (lines t).take used.length = (lines s).take used.length) :
    lines t = used ++ (lines t).drop used.length := by
  rw [split, List.take_left] at h
  calc lines t = (lines t).take used.length ++ (lines t).drop used.length :=
        (List.take_append_drop ..).symm
    _ = used ++ (lines t).drop used.length := by rw [h]

end Decision

/-- An accepted text has a number of lines that its parse consumes: cut off behind fewer lines it is
rejected at the first missing line, and what follows these lines changes nothing. A rejected text
is rejected at one of its lines or right behind the last one, and in the first case by the lines
up to there. -/
theorem read_decided_by_lines (s : String) :
    (∀ b, read s = .ok b → ∃ m ≤ (lines s).length,
      Reading.store.run ⟨lines s, 0⟩ = .ok (b, ⟨(lines s).drop m, m⟩) ∧
      (∀ k < m, read (String.ofList (firstLines k s.toList)) =
        .error (.badStatistics (k + 1) .endOfFile)) ∧
      ∀ t, (lines t).take m = (lines s).take m → read t = .ok b) ∧
    ∀ e, read s = .error e → ∃ j fault, e = .badStatistics j fault ∧
      1 ≤ j ∧ j ≤ (lines s).length + 1 ∧
      (j ≤ (lines s).length → ∀ t, (lines t).take j = (lines s).take j → read t = .error e) := by
  constructor
  · intro b hb
    obtain ⟨used, rest, split, takes, short⟩ := takes_of_read hb
    refine ⟨used.length, ?_, ?_, fun k hk => ?_, fun t ht => ?_⟩
    · simp [split]
    · rw [split, List.drop_left, StateT.run, takes rest, Nat.zero_add]
    · have hlines := lines_firstLines k s
      rw [split, List.take_append_of_le_length (Nat.le_of_lt hk)] at hlines
      have hlack := read_of_lacks (hlines ▸ short k hk)
      rwa [hlines, List.length_take, Nat.min_eq_left (Nat.le_of_lt hk)] at hlack
    · exact read_of_takes (split_of_take_eq split ht) takes
  · intro e he
    rcases refuses_or_lacks_of_read he with ⟨used, rest, fault, split, refuses, rfl⟩ | ⟨-, rfl⟩
    · refine ⟨used.length, fault, rfl, Reading.length_pos_of_refuses_store refuses, ?_, ?_⟩
      · simp [split, Nat.add_assoc]
      · exact fun _ t ht => read_of_refuses (split_of_take_eq split ht) refuses
    · refine ⟨(lines s).length + 1, .endOfFile, rfl, by omega, Nat.le_refl _, fun hj => ?_⟩
      omega

end PatternCardinality.Statistics
