import PatternCardinality.Proofs.Outcome
import PatternCardinality.Statistics.Reader

/-! The texts that are read as statistics, described apart from the reader: sections with a title,
a number and so many records, and a record as a line whose fields are of the right kind. A number is
all that a field needs to be where a count is asked for. -/

namespace PatternCardinality.Statistics

/-- The fields of a line stand between tabs, and those that are empty do not count. -/
def fieldsOf (l : List Char) : List (List Char) :=
  (Text.pieces (· = '\t') l).filter (fun f => !f.isEmpty)

def IsInteger (f : List Char) (n : Int32) : Prop := Text.int32? (Text.trim f) = some n

def IsNumber (f : List Char) (x : Float) : Prop := Decimal.number? (Text.trim f) = some x

instance (f : List Char) (n : Int32) : Decidable (IsInteger f n) :=
  inferInstanceAs (Decidable (_ = _))

instance (f : List Char) (x : Float) : Decidable (IsNumber f x) :=
  inferInstanceAs (Decidable (_ = _))

/-- How many records there are, in 64 bits. -/
def IsCount (l : List Char) (n : ℕ) : Prop :=
  Text.unsigned? 10 (Nat.pow 2 64 - 1) (Text.trim l) = some n

/-- A hash and a share, with the first equals sign between them. -/
def IsFrequent (f : List Char) (e : Int32 × Float) : Prop :=
  ∃ hash share, Text.cut? '=' f = some (hash, share) ∧ Reading.hash? hash = some e.1 ∧
    IsNumber share e.2

section Records

open Reading (field text)

def IsLabel (l : List Char) (e : Entry Float) : Prop :=
  3 ≤ (fieldsOf l).length ∧ ∃ id count, IsInteger (field (fieldsOf l) 1) id ∧
    IsNumber (field (fieldsOf l) 2) count ∧ .label (text (fieldsOf l) 0) id count = e

def IsType (l : List Char) (e : Entry Float) : Prop :=
  6 ≤ (fieldsOf l).length ∧ ∃ id outgoing incoming paths pairs,
    IsInteger (field (fieldsOf l) 1) id ∧ IsNumber (field (fieldsOf l) 2) outgoing ∧
    IsNumber (field (fieldsOf l) 3) incoming ∧ IsNumber (field (fieldsOf l) 4) paths ∧
    IsNumber (field (fieldsOf l) 5) pairs ∧
    .type (text (fieldsOf l) 0) id ⟨outgoing, incoming, paths, pairs⟩ = e

def IsProperty (l : List Char) (e : Entry Float) : Prop :=
  2 ≤ (fieldsOf l).length ∧ ∃ id, IsInteger (field (fieldsOf l) 1) id ∧
    .property (text (fieldsOf l) 0) id = e

def IsRelationships (l : List Char) (e : Entry Float) : Prop :=
  4 ≤ (fieldsOf l).length ∧ ∃ base type target count, IsInteger (field (fieldsOf l) 0) base ∧
    IsInteger (field (fieldsOf l) 1) type ∧ IsInteger (field (fieldsOf l) 2) target ∧
    IsNumber (field (fieldsOf l) 3) count ∧ .relationships ⟨base, type, target⟩ count = e

/-- Six fields in front, then as many frequent values as the sixth says, then quantiles. -/
def IsSummary (l : List Char) (s : PropertyKey × PropertySummary Float) : Prop :=
  6 ≤ (fieldsOf l).length ∧ ∃ owner property count unique numeric n,
    IsInteger (field (fieldsOf l) 0) owner ∧ IsInteger (field (fieldsOf l) 1) property ∧
    IsNumber (field (fieldsOf l) 2) count ∧ IsNumber (field (fieldsOf l) 3) unique ∧
    IsNumber (field (fieldsOf l) 4) numeric ∧ IsInteger (field (fieldsOf l) 5) n ∧ 0 ≤ n ∧
    6 + n.toInt.toNat ≤ (fieldsOf l).length ∧ ∃ frequent quantiles,
      List.Forall₂ IsFrequent (((fieldsOf l).drop 6).take n.toInt.toNat) frequent ∧
      List.Forall₂ IsNumber ((fieldsOf l).drop (6 + n.toInt.toNat)) quantiles ∧
      (⟨owner, property⟩, ⟨count, unique, numeric, OrderedMap.ofList frequent, quantiles⟩) = s

def IsLabelProperty (l : List Char) (e : Entry Float) : Prop :=
  ∃ s, IsSummary l s ∧ .labelProperty s.1 s.2 = e

def IsTypeProperty (l : List Char) (e : Entry Float) : Prop :=
  ∃ s, IsSummary l s ∧ .typeProperty s.1 s.2 = e

end Records

/-- A section: a title that begins with the heading, the number of records, and the records. -/
def IsSection {β : Type} (heading : String) (record : List Char → β → Prop)
    (ls : List (List Char)) (xs : List β) : Prop :=
  ∃ title count records, ls = title :: count :: records ∧
    (Text.after? heading.toList title).isSome = true ∧ IsCount count records.length ∧
    List.Forall₂ record records xs

/-- The lines of statistics, section by section, with the number of nodes and the entries that are
made of the records. -/
inductive Transcript : List (List Char) → ℕ → List (Entry Float) → Prop
  | sections {title count : List Char} {nodes : ℕ} {l₁ l₂ l₃ l₄ l₅ l₆ l₇ : List (List Char)}
      {labels types properties relationships labelProperties typeProperties : List (Entry Float)}
      {between : List (List (List Char))}
      (htitle : (Text.after? "# Nodes".toList title).isSome = true) (hcount : IsCount count nodes)
      (hlabels : IsSection "# Node Labels" IsLabel l₁ labels)
      (htypes : IsSection "# Edge Types" IsType l₂ types)
      (hproperties : IsSection "# Node Properties" IsProperty l₃ properties)
      (hrelationships : IsSection "# Label/Type Combinations" IsRelationships l₄ relationships)
      (hbetween : IsSection "# Type/Type Combinations"
        (fun l f => 10 ≤ (fieldsOf l).length ∧ fieldsOf l = f) l₅ between)
      (hlabelProperties : IsSection "# Label/Property Combinations" IsLabelProperty l₆
        labelProperties)
      (htypeProperties : IsSection "# Type/Property Combinations" IsTypeProperty l₇
        typeProperties) :
      Transcript (title :: count :: (l₁ ++ (l₂ ++ (l₃ ++ (l₄ ++ (l₅ ++ (l₆ ++ l₇))))))) nodes
        (labels ++ types ++ properties ++ relationships ++ labelProperties ++ typeProperties)

namespace Reading

variable {β γ : Type}

/-- The reader accepts the texts that begin with lines of a certain form, takes these lines, and
gives what they stand for. -/
def Accepts (r : Reading β) (form : List (List Char) → β → Prop) : Prop :=
  ∀ text n b s, r ⟨text, n⟩ = .ok (b, s) ↔
    ∃ used, text = used ++ s.rest ∧ s.asked = n + used.length ∧ form used b

section Sequence

variable {r : Reading β} {f : β → Reading γ} {form form' : List (List Char) → β → Prop}
  {more : β → List (List Char) → γ → Prop}

theorem Accepts.congr (h : Accepts r form) (hform : ∀ used b, form used b ↔ form' used b) :
    Accepts r form' := by
  intro text n b s
  simp only [h text n b s, hform]

theorem Accepts.bind (h : Accepts r form) (hf : ∀ b, Accepts (f b) (more b)) :
    Accepts (r >>= f) (fun used c => ∃ u v b, used = u ++ v ∧ form u b ∧ more b v c) := by
  intro text n c s
  change (r ⟨text, n⟩ >>= fun p => f p.1 p.2) = .ok (c, s) ↔ _
  rw [Outcome.bind_eq_ok]
  constructor
  · rintro ⟨⟨b, t⟩, hr, hrest⟩
    obtain ⟨u, rfl, hasked, hu⟩ := (h text n b t).mp hr
    obtain ⟨v, hsplit, hasked', hv⟩ := (hf b t.rest t.asked c s).mp hrest
    refine ⟨u ++ v, by rw [hsplit, List.append_assoc], ?_, u, v, b, rfl, hu, hv⟩
    rw [hasked', hasked, List.length_append, Nat.add_assoc]
  · rintro ⟨used, rfl, hasked, u, v, b, rfl, hu, hv⟩
    refine ⟨(b, ⟨v ++ s.rest, n + u.length⟩), (h _ _ _ _).mpr ⟨u, ?_, rfl, hu⟩,
      (hf b _ _ _ _).mpr ⟨v, rfl, ?_, hv⟩⟩
    · rw [List.append_assoc]
    · rw [hasked, List.length_append, Nat.add_assoc]

/-- A reader in front that takes no line only adds a condition. -/
theorem Accepts.bind_still {value : β → Prop}
    (h : Accepts r (fun used b => used = [] ∧ value b)) (hf : ∀ b, Accepts (f b) (more b)) :
    Accepts (r >>= f) (fun used c => ∃ b, value b ∧ more b used c) := by
  refine (h.bind hf).congr (fun used c => ?_)
  constructor
  · rintro ⟨_, v, b, rfl, ⟨rfl, hb⟩, hv⟩
    exact ⟨b, hb, hv⟩
  · rintro ⟨b, hb, hv⟩
    exact ⟨[], used, b, rfl, ⟨rfl, hb⟩, hv⟩

/-- Readers that take no line, one after the other. -/
theorem Accepts.bind_value {value : β → Prop} {value' : β → γ → Prop}
    (h : Accepts r (fun used b => used = [] ∧ value b))
    (hf : ∀ b, Accepts (f b) (fun used c => used = [] ∧ value' b c)) :
    Accepts (r >>= f) (fun used c => used = [] ∧ ∃ b, value b ∧ value' b c) := by
  refine (h.bind_still hf).congr (fun used c => ?_)
  constructor
  · rintro ⟨b, hb, rfl, hc⟩
    exact ⟨rfl, b, hb, hc⟩
  · rintro ⟨rfl, b, hb, hc⟩
    exact ⟨b, hb, rfl, hc⟩

/-- A reader in front that takes one line. -/
theorem Accepts.bind_line {record : List Char → β → Prop}
    (h : Accepts r (fun used b => ∃ l, used = [l] ∧ record l b))
    (hf : ∀ b, Accepts (f b) (more b)) :
    Accepts (r >>= f) (fun used c => ∃ l v b, used = l :: v ∧ record l b ∧ more b v c) := by
  refine (h.bind hf).congr (fun used c => ?_)
  constructor
  · rintro ⟨_, v, b, rfl, ⟨l, rfl, hb⟩, hv⟩
    exact ⟨l, v, b, rfl, hb, hv⟩
  · rintro ⟨l, v, b, rfl, hb, hv⟩
    exact ⟨[l], v, b, rfl, ⟨l, rfl, hb⟩, hv⟩

end Sequence

theorem accepts_pure (b : β) : Accepts (pure b) (fun used c => used = [] ∧ b = c) := by
  rintro text n c ⟨rest, asked⟩
  change (Except.ok (b, (⟨text, n⟩ : Cursor)) : Except (Failure Float) _) = .ok (c, ⟨rest, asked⟩) ↔ _
  constructor
  · intro h
    cases h
    exact ⟨[], rfl, rfl, rfl, rfl⟩
  · rintro ⟨_, rfl, rfl, rfl, rfl⟩
    rfl

theorem accepts_fail (fault : StatisticsFault) (form : List (List Char) → β → Prop)
    (h : ∀ used b, ¬form used b) : Accepts (fail fault) form := by
  intro text n b s
  constructor
  · intro hfail
    cases hfail
  · rintro ⟨used, -, -, hform⟩
    exact absurd hform (h used b)

theorem accepts_line : Accepts line (fun used l => used = [l]) := by
  rintro text n l ⟨rest, asked⟩
  cases text with
  | nil =>
    constructor
    · intro h
      cases h
    · rintro ⟨used, hsplit, -, rfl⟩
      cases hsplit
  | cons first more =>
    change (Except.ok (first, (⟨more, n + 1⟩ : Cursor)) : Except (Failure Float) _) =
      .ok (l, ⟨rest, asked⟩) ↔ _
    constructor
    · intro h
      cases h
      exact ⟨[l], rfl, rfl, rfl⟩
    · rintro ⟨_, hsplit, rfl, rfl⟩
      cases hsplit
      rfl

/-- A reader that asks for a line and decides on it takes this line if it has the form. -/
theorem accepts_of_line {f : List Char → Reading β} {record : List Char → β → Prop}
    (h : ∀ l, Accepts (f l) (fun used b => used = [] ∧ record l b)) :
    Accepts (line >>= f) (fun used b => ∃ l, used = [l] ∧ record l b) := by
  refine (accepts_line.bind h).congr (fun used b => ?_)
  constructor
  · rintro ⟨_, _, l, rfl, rfl, rfl, hl⟩
    exact ⟨l, rfl, hl⟩
  · rintro ⟨l, rfl, hl⟩
    exact ⟨[l], [], l, rfl, rfl, rfl, hl⟩

/-- A reader that looks a value up, and fails where there is none. -/
theorem accepts_of_option {r : Reading β} (o : Option β) {fault : StatisticsFault}
    (hsome : ∀ b, o = some b → r = pure b) (hnone : o = none → r = fail fault) :
    Accepts r (fun used b => used = [] ∧ o = some b) := by
  cases o with
  | none =>
    rw [hnone rfl]
    exact accepts_fail fault _ (by simp)
  | some c =>
    rw [hsome c rfl]
    exact (accepts_pure c).congr (by simp)

theorem accepts_integer (f : List Char) :
    Accepts (integer f) (fun used n => used = [] ∧ IsInteger f n) :=
  accepts_of_option (Text.int32? (Text.trim f)) (fun n h => by rw [integer, h])
    (fun h => by rw [integer, h])

theorem accepts_number (f : List Char) :
    Accepts (number f) (fun used x => used = [] ∧ IsNumber f x) :=
  accepts_of_option (Decimal.number? (Text.trim f)) (fun x h => by rw [number, h])
    (fun h => by rw [number, h])

theorem accepts_count : Accepts count (fun used n => ∃ l, used = [l] ∧ IsCount l n) :=
  accepts_of_line (fun l => accepts_of_option (Text.unsigned? 10 (Nat.pow 2 64 - 1) (Text.trim l))
    (fun n h => by rw [h]) (fun h => by rw [h]))

theorem accepts_title (heading : String) : Accepts (title heading)
    (fun used _ => ∃ l, used = [l] ∧ (Text.after? heading.toList l).isSome = true) := by
  refine accepts_of_line (fun l => ?_)
  split
  · next h => exact (accepts_pure ()).congr (by simp [h])
  · next h => exact accepts_fail _ _ (by simp [h])

theorem accepts_fields (least : ℕ) : Accepts (fields least)
    (fun used f => ∃ l, used = [l] ∧ least ≤ (fieldsOf l).length ∧ fieldsOf l = f) := by
  refine accepts_of_line (fun l => ?_)
  change Accepts (if (fieldsOf l).length < least then _ else _) _
  split
  · next h => exact accepts_fail _ _ (by simp [Nat.not_le.mpr h])
  · next h =>
    refine (accepts_pure (fieldsOf l)).congr (fun used f => ?_)
    rw [and_iff_right (Nat.not_lt.mp h)]

section Several

/-- Members that take no line and have a form each. -/
theorem accepts_mapM {α : Type} {f : α → Reading β} {form : α → β → Prop}
    (h : ∀ a, Accepts (f a) (fun used b => used = [] ∧ form a b)) (l : List α) :
    Accepts (l.mapM f) (fun used bs => used = [] ∧ List.Forall₂ form l bs) := by
  induction l with
  | nil => exact (accepts_pure []).congr (by simp [eq_comm])
  | cons a l ih =>
    rw [List.mapM_cons]
    refine ((h a).bind_still fun b => ih.bind_still fun bs => accepts_pure (b :: bs)).congr
      (fun used cs => ?_)
    constructor
    · rintro ⟨b, hb, bs, hbs, rfl, rfl⟩
      exact ⟨rfl, .cons hb hbs⟩
    · rintro ⟨rfl, h⟩
      obtain ⟨b, bs, hb, hbs, rfl⟩ := List.forall₂_cons_left_iff.mp h
      exact ⟨b, hb, bs, hbs, rfl, rfl⟩

variable {record : Reading β} {form : List Char → β → Prop}
  (h : Accepts record (fun used b => ∃ l, used = [l] ∧ form l b))

include h

theorem accepts_repeated (n : ℕ) : Accepts (repeated record n)
    (fun used bs => used.length = n ∧ List.Forall₂ form used bs) := by
  induction n with
  | zero => exact (accepts_pure []).congr (by simp +contextual [eq_comm])
  | succ n ih =>
    refine (h.bind_line fun b => ih.bind fun bs => accepts_pure (b :: bs)).congr
      (fun used cs => ?_)
    constructor
    · rintro ⟨l, _, b, rfl, hb, u, _, bs, rfl, ⟨rfl, hbs⟩, rfl, rfl⟩
      rw [List.append_nil]
      exact ⟨rfl, .cons hb hbs⟩
    · rintro ⟨hlength, hcs⟩
      obtain ⟨l, u, rfl⟩ := List.exists_cons_of_length_eq_add_one hlength
      obtain ⟨b, bs, hb, hbs, rfl⟩ := List.forall₂_cons_left_iff.mp hcs
      exact ⟨l, u, b, rfl, hb, u, [], bs, (List.append_nil u).symm, ⟨Nat.succ.inj hlength, hbs⟩,
        rfl, rfl⟩

theorem accepts_inSection (heading : String) :
    Accepts (inSection heading record) (IsSection heading form) := by
  refine ((accepts_title heading).bind_line fun _ => accepts_count.bind_line fun n =>
    accepts_repeated h n).congr (fun used xs => ?_)
  constructor
  · rintro ⟨title, _, _, rfl, htitle, count, records, n, rfl, hcount, rfl, hrecords⟩
    exact ⟨title, count, records, rfl, htitle, hcount, hrecords⟩
  · rintro ⟨title, count, records, rfl, htitle, hcount, hrecords⟩
    exact ⟨title, _, (), rfl, htitle, count, records, _, rfl, hcount, rfl, hrecords⟩

end Several

/-- A record is a line with enough fields, and what is made of these. -/
theorem accepts_record {least : ℕ} {f : List (List Char) → Reading β}
    {value : List (List Char) → β → Prop}
    (h : ∀ fs, Accepts (f fs) (fun used b => used = [] ∧ value fs b)) :
    Accepts (fields least >>= f)
      (fun used b => ∃ l, used = [l] ∧ least ≤ (fieldsOf l).length ∧ value (fieldsOf l) b) := by
  refine ((accepts_fields least).bind_line h).congr (fun used b => ?_)
  constructor
  · rintro ⟨l, _, _, rfl, ⟨hleast, rfl⟩, rfl, hvalue⟩
    exact ⟨l, rfl, hleast, hvalue⟩
  · rintro ⟨l, rfl, hleast, hvalue⟩
    exact ⟨l, [], _, rfl, ⟨hleast, rfl⟩, rfl, hvalue⟩

theorem accepts_label : Accepts label (fun used e => ∃ l, used = [l] ∧ IsLabel l e) := by
  refine (accepts_record fun f => (accepts_integer _).bind_value fun id =>
    (accepts_number _).bind_value fun count => accepts_pure _).congr (fun used e => ?_)
  simp only [IsLabel, exists_and_left]

theorem accepts_type : Accepts type (fun used e => ∃ l, used = [l] ∧ IsType l e) := by
  refine (accepts_record fun f => (accepts_integer _).bind_value fun id =>
    (accepts_number _).bind_value fun outgoing => (accepts_number _).bind_value fun incoming =>
    (accepts_number _).bind_value fun paths => (accepts_number _).bind_value fun pairs =>
    accepts_pure _).congr (fun used e => ?_)
  simp only [IsType, exists_and_left]

theorem accepts_property : Accepts property (fun used e => ∃ l, used = [l] ∧ IsProperty l e) :=
  accepts_record fun _ => (accepts_integer _).bind_value fun _ => accepts_pure _

theorem accepts_relationships :
    Accepts relationships (fun used e => ∃ l, used = [l] ∧ IsRelationships l e) := by
  refine (accepts_record fun f => (accepts_integer _).bind_value fun base =>
    (accepts_integer _).bind_value fun type => (accepts_integer _).bind_value fun target =>
    (accepts_number _).bind_value fun count => accepts_pure _).congr (fun used e => ?_)
  simp only [IsRelationships, exists_and_left]

theorem accepts_frequent (entry : List Char) :
    Accepts (frequent entry) (fun used e => used = [] ∧ IsFrequent entry e) := by
  rw [frequent]
  split
  · next h => exact accepts_fail _ _ (by simp [IsFrequent, h])
  · next hash share hcut =>
    split
    · next h => exact accepts_fail _ _ (by simp [IsFrequent, hcut, h])
    · next i h =>
      refine ((accepts_number share).bind_value fun x => accepts_pure (i, x)).congr
        (fun used e => and_congr_right (fun _ => ?_))
      constructor
      · rintro ⟨x, hx, rfl⟩
        exact ⟨hash, share, hcut, h, hx⟩
      · rintro ⟨hash', share', hcut', hhash, hx⟩
        cases hcut.symm.trans hcut'
        cases h.symm.trans hhash
        exact ⟨e.2, hx, rfl⟩

/-- A check in front that fails adds its contrary to the conditions. -/
theorem accepts_unless {c : Prop} [Decidable c] {fault : StatisticsFault} {r : Reading β}
    {value : β → Prop} (h : Accepts r (fun used b => used = [] ∧ value b)) :
    Accepts (if c then fail fault else r) (fun used b => used = [] ∧ ¬c ∧ value b) := by
  split
  · next hc => exact accepts_fail _ _ (by simp [hc])
  · next hc => exact h.congr (by simp [hc])

theorem accepts_summary : Accepts summary (fun used s => ∃ l, used = [l] ∧ IsSummary l s) := by
  refine (accepts_record fun f => (accepts_integer _).bind_value fun owner =>
    (accepts_integer _).bind_value fun property => (accepts_number _).bind_value fun count =>
    (accepts_number _).bind_value fun unique => (accepts_number _).bind_value fun numeric =>
    (accepts_integer _).bind_value fun n => accepts_unless (accepts_unless
      ((accepts_mapM accepts_frequent _).bind_value fun frequent =>
        (accepts_mapM accepts_number _).bind_value fun quantiles => accepts_pure _))).congr
    (fun used s => ?_)
  simp only [IsSummary, exists_and_left, Nat.not_lt, Int32.not_lt]

/-- What is made of a record alone has the form of the record. -/
theorem accepts_of_record {r : Reading β} {record : List Char → β → Prop} (make : β → γ)
    (h : Accepts r (fun used b => ∃ l, used = [l] ∧ record l b)) :
    Accepts (r >>= fun b => pure (make b))
      (fun used c => ∃ l, used = [l] ∧ ∃ b, record l b ∧ make b = c) := by
  refine (h.bind_line fun b => accepts_pure (make b)).congr (fun used c => ?_)
  constructor
  · rintro ⟨l, _, b, rfl, hb, rfl, hc⟩
    exact ⟨l, rfl, b, hb, hc⟩
  · rintro ⟨l, rfl, b, hb, hc⟩
    exact ⟨l, [], b, rfl, hb, rfl, hc⟩

theorem accepts_labelProperty :
    Accepts labelProperty (fun used e => ∃ l, used = [l] ∧ IsLabelProperty l e) :=
  accepts_of_record (fun s : PropertyKey × PropertySummary Float => Entry.labelProperty s.1 s.2)
    accepts_summary

theorem accepts_typeProperty :
    Accepts typeProperty (fun used e => ∃ l, used = [l] ∧ IsTypeProperty l e) :=
  accepts_of_record (fun s : PropertyKey × PropertySummary Float => Entry.typeProperty s.1 s.2)
    accepts_summary

/-- The reader accepts transcripts, and builds the store from their entries. -/
theorem accepts_store : Accepts store (fun used b => ∃ n entries, Transcript used n entries ∧
    Store.build (Float.ofNat n) entries = b) := by
  refine ((accepts_title _).bind_line fun _ => accepts_count.bind_line fun nodes =>
    (accepts_inSection accepts_label _).bind fun labels =>
    (accepts_inSection accepts_type _).bind fun types =>
    (accepts_inSection accepts_property _).bind fun properties =>
    (accepts_inSection accepts_relationships _).bind fun relationships =>
    (accepts_inSection (accepts_fields 10) _).bind fun _ =>
    (accepts_inSection accepts_labelProperty _).bind fun labelProperties =>
    (accepts_inSection accepts_typeProperty _).bind fun typeProperties =>
    accepts_pure _).congr (fun used b => ?_)
  constructor
  · rintro ⟨title, _, _, rfl, htitle, count, _, nodes, rfl, hcount, l₁, _, labels, rfl, hlabels,
      l₂, _, types, rfl, htypes, l₃, _, properties, rfl, hproperties, l₄, _, relationships, rfl,
      hrelationships, l₅, _, between, rfl, hbetween, l₆, _, labelProperties, rfl,
      hlabelProperties, l₇, _, typeProperties, rfl, htypeProperties, rfl, rfl⟩
    rw [List.append_nil]
    exact ⟨nodes, _, .sections htitle hcount hlabels htypes hproperties hrelationships hbetween
      hlabelProperties htypeProperties, rfl⟩
  · rintro ⟨n, entries, ⟨htitle, hcount, hlabels, htypes, hproperties, hrelationships, hbetween,
      hlabelProperties, htypeProperties⟩, rfl⟩
    exact ⟨_, _, (), rfl, htitle, _, _, n, rfl, hcount, _, _, _, rfl, hlabels, _, _, _, rfl, htypes,
      _, _, _, rfl, hproperties, _, _, _, rfl, hrelationships, _, _, _, rfl, hbetween, _, _, _, rfl,
      hlabelProperties, _, [], _, (List.append_nil _).symm, htypeProperties, rfl, rfl⟩

end Reading

/-- A text is read if it begins with a transcript, and then as the store of its entries. -/
theorem read_eq_ok_iff {s : String} {b : Store Float} : read s = .ok b ↔
    ∃ used rest n entries, lines s = used ++ rest ∧ Transcript used n entries ∧
      Store.build (Float.ofNat n) entries = b := by
  rw [read, StateT.run, Outcome.map_eq_ok]
  constructor
  · rintro ⟨⟨_, t⟩, hread, rfl⟩
    obtain ⟨used, hsplit, -, n, entries, htranscript, hbuild⟩ :=
      (Reading.accepts_store _ _ _ _).mp hread
    exact ⟨used, t.rest, n, entries, hsplit, htranscript, hbuild⟩
  · rintro ⟨used, rest, n, entries, hsplit, htranscript, hbuild⟩
    exact ⟨(b, ⟨rest, 0 + used.length⟩), (Reading.accepts_store _ _ _ _).mpr
      ⟨used, hsplit, rfl, n, entries, htranscript, hbuild⟩, rfl⟩

end PatternCardinality.Statistics
