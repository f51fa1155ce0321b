import PatternCardinality.Proofs.Statistics.Listing
import PatternCardinality.Proofs.Statistics.Reading
import PatternCardinality.Proofs.Text.Numeral

/-! Statistics written down as text: eight sections, each with a title, the number of its records
and a record a line. What was written is read back as the same store, whatever the store holds, if
every number in it is read back from its numeral. -/

namespace PatternCardinality.Statistics

/-- A field that stays one between tabs in a line. -/
structure IsField (f : List Char) : Prop where
  nonempty : f ≠ []
  tab : '\t' ∉ f
  feed : '\n' ∉ f
  carriage : '\r' ∉ f

instance (f : List Char) : Decidable (IsField f) :=
  decidable_of_iff (f ≠ [] ∧ '\t' ∉ f ∧ '\n' ∉ f ∧ '\r' ∉ f)
    ⟨fun ⟨hne, ht, hf, hc⟩ => ⟨hne, ht, hf, hc⟩, fun ⟨hne, ht, hf, hc⟩ => ⟨hne, ht, hf, hc⟩⟩

theorem isField_of_figures {f : List Char} (hne : f ≠ [])
    (h : ∀ c ∈ f, Text.isFigure c = true) : IsField f :=
  ⟨hne, Text.not_mem_of_figures h rfl, Text.not_mem_of_figures h rfl,
    Text.not_mem_of_figures h rfl⟩

/-- Fields with tabs between them. -/
def row : List (List Char) → List Char
  | [] => []
  | f :: more => f ++ more.flatMap ('\t' :: ·)

theorem pieces_row {fs : List (List Char)} (hne : fs ≠ []) (h : ∀ f ∈ fs, IsField f) :
    Text.pieces (· = '\t') (row fs) = fs := by
  cases fs with
  | nil => exact absurd rfl hne
  | cons f more =>
    obtain ⟨hf, hmore⟩ := List.forall_mem_cons.mp h
    exact Text.pieces_eq_cons_iff.mpr ⟨⟨hf.tab, fun g hg => (hmore g hg).tab⟩, rfl⟩

/-- A line that ends where it is ended. -/
structure IsLine (l : List Char) : Prop where
  feed : '\n' ∉ l
  carriage : '\r' ∉ l

theorem IsField.isLine {f : List Char} (h : IsField f) : IsLine f := ⟨h.feed, h.carriage⟩

theorem isLine_row {fs : List (List Char)} (h : ∀ f ∈ fs, IsField f) : IsLine (row fs) := by
  cases fs with
  | nil => exact ⟨List.not_mem_nil, List.not_mem_nil⟩
  | cons f more =>
    obtain ⟨hf, hmore⟩ := List.forall_mem_cons.mp h
    constructor
    · simpa [row, hf.feed] using fun g hg => (hmore g hg).feed
    · simpa [row, hf.carriage] using fun g hg => (hmore g hg).carriage

theorem linesFrom_append {l : List Char} (h : IsLine l) {line : List Char} (hline : '\r' ∉ line)
    (s : List Char) :
    linesFrom line (l ++ '\n' :: s) = (line.reverse ++ l) :: linesFrom [] s := by
  induction l generalizing line with
  | nil =>
    rw [List.nil_append, linesFrom.eq_def]
    cases line with
    | nil => rfl
    | cons c line =>
      have hc : c ≠ '\r' := fun hc => hline (hc ▸ List.mem_cons_self)
      simp [hc]
  | cons c l ih =>
    have hc : c ≠ '\n' := fun hc => h.feed (hc ▸ List.mem_cons_self)
    have hcarriage : '\r' ∉ c :: line := by
      rw [List.mem_cons, not_or]
      exact ⟨fun hc => h.carriage (hc ▸ List.mem_cons_self), hline⟩
    have hl : IsLine l := ⟨fun hmem => h.feed (List.mem_cons_of_mem _ hmem),
      fun hmem => h.carriage (List.mem_cons_of_mem _ hmem)⟩
    rw [List.cons_append, linesFrom_cons hc, ih hl hcarriage]
    simp

/-- Lines of which each is ended by a line feed are the lines of the text. -/
theorem lines_flatMap {ls : List (List Char)} (h : ∀ l ∈ ls, IsLine l) :
    lines (String.ofList (ls.flatMap (· ++ ['\n']))) = ls := by
  rw [lines, String.toList_ofList]
  induction ls with
  | nil => rfl
  | cons l ls ih =>
    obtain ⟨hl, hls⟩ := List.forall_mem_cons.mp h
    rw [List.flatMap_cons, List.append_assoc, List.singleton_append,
      linesFrom_append hl List.not_mem_nil, ih hls]
    rfl

def TypeTotals.numbers (t : TypeTotals Float) : List Float :=
  [t.outgoing, t.incoming, t.paths, t.pairs]

def PropertySummary.numbers (p : PropertySummary Float) : List Float :=
  p.count :: p.unique :: p.numeric :: (p.frequent.values ++ p.quantiles)

/-- All numbers in a store but the number of nodes. -/
def Store.numbers (s : Store Float) : List Float :=
  s.labelCounts.values ++ s.typeTotals.values.flatMap TypeTotals.numbers ++
    s.relationshipCounts.values ++
    (s.labelProperties.values ++ s.typeProperties.values).flatMap PropertySummary.numbers

/-- How statistics are written: the numerals, what follows the title on its line, and the order of
the frequent values of a property. -/
structure Spelling where
  numeral : Float → String
  remark : String → String
  frequent : OrderedMap Int32 Float → List (Int32 × Float)
  remark_line : ∀ heading, IsLine (remark heading).toList
  frequent_perm : ∀ table, (frequent table).Perm table.entries

namespace Spelling

variable (σ : Spelling)

def number (x : Float) : List Char := (σ.numeral x).toList

/-- The number is read back from its numeral. -/
def Faithful (x : Float) : Prop := Decimal.number? (σ.number x) = some x

instance (x : Float) : Decidable (σ.Faithful x) :=
  inferInstanceAs (Decidable (Decimal.number? (σ.number x) = some x))

/-- A frequent value: its hash and its share. -/
def pair (e : Int32 × Float) : List Char := Text.hexText e.1 ++ '=' :: σ.number e.2

def summary (key : PropertyKey) (p : PropertySummary Float) : List (List Char) :=
  [(toString key.owner).toList, (toString key.property).toList, σ.number p.count,
    σ.number p.unique, σ.number p.numeric, (toString (σ.frequent p.frequent).length).toList] ++
    ((σ.frequent p.frequent).map σ.pair ++ p.quantiles.map σ.number)

/-- The fields of a record. -/
def fields : Entry Float → List (List Char)
  | .label name id count => [name.toList, (toString id).toList, σ.number count]
  | .type name id totals => [name.toList, (toString id).toList, σ.number totals.outgoing,
      σ.number totals.incoming, σ.number totals.paths, σ.number totals.pairs]
  | .property name id => [name.toList, (toString id).toList]
  | .relationships key count | .addRelationships key count => [(toString key.base).toList,
      (toString key.type).toList, (toString key.target).toList, σ.number count]
  | .labelProperty key p | .typeProperty key p => σ.summary key p

/-- A record that is read back: its names are fields, and so are its numerals, which stand for its
numbers. Frequent values are counted in 32 bits, with a sign. -/
def Legible : Entry Float → Prop
  | .label name _ count => IsField name.toList ∧ σ.Faithful count
  | .type name _ totals => IsField name.toList ∧ ∀ x ∈ totals.numbers, σ.Faithful x
  | .property name _ => IsField name.toList
  | .relationships _ count | .addRelationships _ count => σ.Faithful count
  | .labelProperty _ p | .typeProperty _ p =>
    p.frequent.size < 2 ^ 31 ∧ ∀ x ∈ p.numbers, σ.Faithful x

def title (heading : String) : List Char := (heading ++ σ.remark heading).toList

/-- A title, the number of records, and the records. -/
def inSection (heading : String) (records : List (List (List Char))) : List (List Char) :=
  σ.title heading :: (toString records.length).toList :: records.map row

variable {σ}

theorem Faithful.figures {x : Float} (h : σ.Faithful x) :
    ∀ c ∈ σ.number x, Text.isFigure c = true := (Decimal.isFigure_of_number? h).2

theorem Faithful.isField {x : Float} (h : σ.Faithful x) : IsField (σ.number x) :=
  isField_of_figures (Decimal.isFigure_of_number? h).1 h.figures

theorem isField_toString (n : Int32) : IsField (toString n).toList := by
  refine isField_of_figures ?_ (Text.isFigure_toString_int32 n)
  intro hnil
  have hread := Text.int32?_toString n
  rw [hnil] at hread
  cases hread

theorem isField_toString_nat (n : ℕ) : IsField (toString n).toList := by
  refine isField_of_figures ?_ (Text.isFigure_toString_nat n)
  intro hnil
  have hread := Text.digits?_toString n
  rw [hnil] at hread
  cases hread

theorem isField_pair {e : Int32 × Float} (h : σ.Faithful e.2) : IsField (σ.pair e) := by
  have hhash := Text.isFigure_hexDigits 8 e.1.toUInt32.toNat
  have hfree : ∀ c, Text.isFigure c = false → c ≠ '=' → c ∉ σ.pair e := by
    intro c hc hne
    rw [pair, List.mem_append, List.mem_cons, not_or, not_or]
    exact ⟨Text.not_mem_of_figures hhash hc, hne, Text.not_mem_of_figures h.figures hc⟩
  exact ⟨by simp [pair], hfree _ rfl (by decide), hfree _ rfl (by decide), hfree _ rfl (by decide)⟩

/-- The frequent values that are written are those of the summary. -/
theorem faithful_frequent {p : PropertySummary Float} (h : ∀ x ∈ p.numbers, σ.Faithful x) :
    ∀ e ∈ σ.frequent p.frequent, σ.Faithful e.2 := by
  intro e he
  have hvalue : e.2 ∈ p.frequent.values :=
    List.mem_map_of_mem ((σ.frequent_perm p.frequent).mem_iff.mp he)
  exact h e.2 (by simp [PropertySummary.numbers, hvalue])

theorem isField_summary {key : PropertyKey} {p : PropertySummary Float}
    (h : ∀ x ∈ p.numbers, σ.Faithful x) : ∀ f ∈ σ.summary key p, IsField f := by
  have hpairs := faithful_frequent h
  simp only [PropertySummary.numbers, List.forall_mem_cons, List.forall_mem_append] at h
  obtain ⟨hcount, hunique, hnumeric, -, hquantiles⟩ := h
  simp only [summary, List.forall_mem_append, List.forall_mem_cons, List.forall_mem_map]
  exact ⟨⟨isField_toString _, isField_toString _, hcount.isField, hunique.isField,
    hnumeric.isField, isField_toString_nat _, by simp⟩,
    fun e he => isField_pair (hpairs e he), fun x hx => (hquantiles x hx).isField⟩

variable (σ) in
/-- Behind the six fields in front there are the frequent values, then the quantiles. -/
theorem summary_divided (key : PropertyKey) (p : PropertySummary Float) :
    6 + (σ.frequent p.frequent).length ≤ (σ.summary key p).length ∧
      ((σ.summary key p).drop 6).take (σ.frequent p.frequent).length =
        (σ.frequent p.frequent).map σ.pair ∧
      (σ.summary key p).drop (6 + (σ.frequent p.frequent).length) = p.quantiles.map σ.number := by
  have hdrop : (σ.summary key p).drop 6 =
      (σ.frequent p.frequent).map σ.pair ++ p.quantiles.map σ.number := List.drop_left' rfl
  refine ⟨?_, ?_, ?_⟩
  · rw [summary, List.length_append, List.length_append, List.length_map]
    change 6 + _ ≤ 6 + _
    omega
  · rw [hdrop, List.take_left' (List.length_map _)]
  · rw [← List.drop_drop, hdrop, List.drop_left' (List.length_map _)]

/-- A record that is read back is made of fields. -/
theorem isField_fields {e : Entry Float} (h : σ.Legible e) : ∀ f ∈ σ.fields e, IsField f := by
  cases e with
  | label name id count => simp [fields, h.1, isField_toString, h.2.isField]
  | type name id totals =>
    obtain ⟨hname, hnumbers⟩ := h
    simp only [TypeTotals.numbers, List.forall_mem_cons] at hnumbers
    obtain ⟨houtgoing, hincoming, hpaths, hpairs, -⟩ := hnumbers
    simp [fields, hname, isField_toString, houtgoing.isField, hincoming.isField, hpaths.isField,
      hpairs.isField]
  | property name id =>
    have hname : IsField name.toList := h
    simp [fields, hname, isField_toString]
  | relationships key count => simp [fields, isField_toString, Faithful.isField h]
  | addRelationships key count => simp [fields, isField_toString, Faithful.isField h]
  | labelProperty key p => exact isField_summary h.2
  | typeProperty key p => exact isField_summary h.2

/-- A section that is written in lines stays in these lines. -/
theorem isLine_inSection {heading : String}
    (hheading : '\n' ∉ heading.toList ∧ '\r' ∉ heading.toList)
    {records : List (List (List Char))} (h : ∀ r ∈ records, ∀ f ∈ r, IsField f) :
    ∀ l ∈ σ.inSection heading records, IsLine l := by
  refine List.forall_mem_cons.mpr ⟨?_, List.forall_mem_cons.mpr ⟨?_, ?_⟩⟩
  · obtain ⟨hfeed, hcarriage⟩ := hheading
    have hremark := σ.remark_line heading
    exact ⟨by simp [title, hfeed, hremark.feed], by simp [title, hcarriage, hremark.carriage]⟩
  · exact (isField_toString_nat _).isLine
  · exact List.forall_mem_map.mpr fun r hr => isLine_row (h r hr)

end Spelling

namespace Reading

variable {σ : Spelling} {β γ δ : Type}

theorem takes_integer (n : Int32) : Takes (integer (toString n).toList) [] n := by
  rw [integer, Text.trim_figures (Text.isFigure_toString_int32 n), Text.int32?_toString]
  exact takes_pure n

theorem takes_number {x : Float} (h : σ.Faithful x) : Takes (number (σ.number x)) [] x := by
  rw [number, Text.trim_figures h.figures, h]
  exact takes_pure x

theorem takes_fields {least : ℕ} {fs : List (List Char)} (hlength : least ≤ fs.length)
    (hne : fs ≠ []) (h : ∀ f ∈ fs, IsField f) : Takes (fields least) [row fs] fs := by
  refine (takes_line (row fs)).bind_nil ?_
  have hfilter : fs.filter (fun f => !f.isEmpty) = fs :=
    List.filter_eq_self.mpr fun f hf => by simp [(h f hf).nonempty]
  simp only [pieces_row hne h, hfilter, if_neg (Nat.not_lt.mpr hlength)]
  exact takes_pure fs

theorem takes_title (heading : String) : Takes (title heading) [σ.title heading] () := by
  have hafter : ∀ s t : List Char, Text.after? s (s ++ t) = some t := by
    intro s t
    induction s with
    | nil => rfl
    | cons c s ih => simp [Text.after?, ih]
  refine (takes_line _).bind_nil ?_
  rw [Spelling.title, String.toList_append, hafter]
  exact takes_pure ()

theorem takes_count {n : ℕ} (h : n < 2 ^ 64) : Takes count [(toString n).toList] n := by
  have hread : Text.unsigned? 10 (Nat.pow 2 64 - 1) (toString n).toList = some n :=
    Text.unsigned?_toString (Nat.le_sub_one_of_lt h)
  refine (takes_line _).bind_nil ?_
  rw [Text.trim_figures (Text.isFigure_toString_nat n), hread]
  exact takes_pure n

theorem takes_repeated {record : Reading γ} {fields : δ → List (List Char)} {value : δ → γ}
    {xs : List δ} (h : ∀ x ∈ xs, Takes record [row (fields x)] (value x)) :
    Takes (repeated record xs.length) ((xs.map fields).map row) (xs.map value) := by
  induction xs with
  | nil => exact takes_pure []
  | cons x xs ih =>
    obtain ⟨hx, hxs⟩ := List.forall_mem_cons.mp h
    change Takes _ ([row (fields x)] ++ (xs.map fields).map row) _
    exact hx.bind ((ih hxs).bind_nil (takes_pure (value x :: xs.map value)))

theorem takes_mapM {α : Type} {f : α → Reading γ} {g : δ → α} {value : δ → γ} {xs : List δ}
    (h : ∀ x ∈ xs, Takes (f (g x)) [] (value x)) : Takes ((xs.map g).mapM f) [] (xs.map value) := by
  induction xs with
  | nil => exact takes_pure []
  | cons x xs ih =>
    obtain ⟨hx, hxs⟩ := List.forall_mem_cons.mp h
    rw [List.map_cons, List.mapM_cons]
    exact hx.bind_nil ((ih hxs).bind_nil (takes_pure (value x :: xs.map value)))

/-- A section is read to its end if each of its records is. -/
theorem takes_inSection {heading : String} {record : Reading γ} {fields : δ → List (List Char)}
    {value : δ → γ} {xs : List δ} (hlength : xs.length < 2 ^ 64)
    (h : ∀ x ∈ xs, Takes record [row (fields x)] (value x)) :
    Takes (inSection heading record) (σ.inSection heading (xs.map fields)) (xs.map value) := by
  have hcount : Takes count [(toString (xs.map fields).length).toList] xs.length := by
    rw [List.length_map]
    exact takes_count hlength
  exact (takes_title heading).bind (hcount.bind (takes_repeated h))

/-- Hexadecimal digits without a sign keep their lower 32 bits. -/
theorem hash?_of_digits? {s : List Char} {n : ℕ} (h : Text.digits? 16 s = some n)
    (hn : n < 2 ^ 64) : hash? s = some (Int32.ofNat n) := by
  have hletters := Text.isAlphanum_of_digits? h
  have hlimit : n ≤ Nat.pow 2 64 - 1 := Nat.le_sub_one_of_lt hn
  rw [hash?, Text.trim_figures fun c hc => Text.isFigure_of_isAlphanum (hletters c hc)]
  split
  · have hminus := hletters '-' List.mem_cons_self
    cases hminus
  · rw [Text.unsigned?_of_digits? h hlimit, Option.map_some]

theorem hash?_hexText (h : Int32) : hash? (Text.hexText h) = some h := by
  have hvalue : Int32.ofNat h.toUInt32.toNat = h := by
    cases h
    simp [Int32.ofNat]
  have hlimit : h.toUInt32.toNat < 2 ^ 64 :=
    Nat.lt_trans h.toUInt32.toNat_lt (by decide)
  rw [hash?_of_digits? (Text.digits?_hexText h) hlimit, hvalue]

theorem takes_frequent {e : Int32 × Float} (h : σ.Faithful e.2) :
    Takes (frequent (σ.pair e)) [] e := by
  have hcut : Text.cut? '=' (σ.pair e) = some (Text.hexText e.1, σ.number e.2) :=
    Text.cut?_eq_some_iff.mpr
      ⟨Text.not_mem_of_figures (Text.isFigure_hexDigits 8 _) rfl, rfl⟩
  rw [frequent, hcut]
  simp only [hash?_hexText]
  exact (takes_number h).bind (takes_pure e)

section Records

theorem text_cons (name : String) (fs : List (List Char)) : text (name.toList :: fs) 0 = name :=
  String.ofList_toList

theorem takes_label {name : String} {id : LabelId} {count : Float}
    (h : σ.Legible (.label name id count)) :
    Takes label [row (σ.fields (.label name id count))] (.label name id count) := by
  refine (takes_fields (Nat.le_refl 3) (List.cons_ne_nil _ _)
    (Spelling.isField_fields h)).bind_nil ?_
  refine (takes_integer id).bind_nil ?_
  refine (takes_number h.2).bind_nil ?_
  simp only [text_cons]
  exact takes_pure _

theorem takes_type {name : String} {id : TypeId} {totals : TypeTotals Float}
    (h : σ.Legible (.type name id totals)) :
    Takes type [row (σ.fields (.type name id totals))] (.type name id totals) := by
  have hnumbers := h.2
  simp only [TypeTotals.numbers, List.forall_mem_cons] at hnumbers
  obtain ⟨houtgoing, hincoming, hpaths, hpairs, -⟩ := hnumbers
  refine (takes_fields (Nat.le_refl 6) (List.cons_ne_nil _ _)
    (Spelling.isField_fields h)).bind_nil ?_
  refine (takes_integer id).bind_nil ?_
  refine (takes_number houtgoing).bind_nil ?_
  refine (takes_number hincoming).bind_nil ?_
  refine (takes_number hpaths).bind_nil ?_
  refine (takes_number hpairs).bind_nil ?_
  simp only [text_cons]
  exact takes_pure _

theorem takes_property {name : String} {id : PropertyId} (h : σ.Legible (.property name id)) :
    Takes property [row (σ.fields (.property name id))] (.property name id) := by
  refine (takes_fields (Nat.le_refl 2) (List.cons_ne_nil _ _)
    (Spelling.isField_fields h)).bind_nil ?_
  refine (takes_integer id).bind_nil ?_
  simp only [text_cons]
  exact takes_pure _

theorem takes_relationships {key : RelationshipKey} {count : Float}
    (h : σ.Legible (.relationships key count)) :
    Takes relationships [row (σ.fields (.relationships key count))]
      (.relationships key count) := by
  refine (takes_fields (Nat.le_refl 4) (List.cons_ne_nil _ _)
    (Spelling.isField_fields h)).bind_nil ?_
  refine (takes_integer key.base).bind_nil ?_
  refine (takes_integer key.type).bind_nil ?_
  refine (takes_integer key.target).bind_nil ?_
  exact (takes_number h).bind_nil (takes_pure _)

theorem takes_summary {key : PropertyKey} {p : PropertySummary Float}
    (hsize : p.frequent.size < 2 ^ 31) (h : ∀ x ∈ p.numbers, σ.Faithful x) :
    Takes summary [row (σ.summary key p)] (key, p) := by
  have hfields : ∀ f ∈ σ.summary key p, IsField f := Spelling.isField_summary h
  have hpairs := Spelling.faithful_frequent h
  simp only [PropertySummary.numbers, List.forall_mem_cons, List.forall_mem_append] at h
  obtain ⟨hcount, hunique, hnumeric, -, hquantiles⟩ := h
  have hlength : (σ.frequent p.frequent).length = p.frequent.size :=
    (σ.frequent_perm p.frequent).length_eq
  obtain ⟨n, htext, hsign, hvalue⟩ := Text.exists_int32_of_lt (hlength ▸ hsize)
  have hn : Takes (integer (toString (σ.frequent p.frequent).length).toList) [] n := by
    rw [← htext]
    exact takes_integer n
  obtain ⟨hsix, hentries, hrest⟩ := σ.summary_divided key p
  have htable : OrderedMap.ofList (σ.frequent p.frequent) = p.frequent :=
    OrderedMap.foldl_insert_perm (σ.frequent_perm p.frequent)
  refine (takes_fields (Nat.le_trans (Nat.le_add_right 6 _) hsix) (List.cons_ne_nil _ _)
    hfields).bind_nil ?_
  refine (takes_integer key.owner).bind_nil ?_
  refine (takes_integer key.property).bind_nil ?_
  refine (takes_number hcount).bind_nil ?_
  refine (takes_number hunique).bind_nil ?_
  refine (takes_number hnumeric).bind_nil ?_
  refine Takes.bind_nil hn ?_
  simp only [if_neg hsign, hvalue, if_neg (Nat.not_lt.mpr hsix), hentries, hrest]
  refine (takes_mapM fun e he => takes_frequent (hpairs e he)).bind_nil ?_
  refine (takes_mapM fun x hx => takes_number (hquantiles x hx)).bind_nil ?_
  rw [List.map_id', List.map_id', htable]
  exact takes_pure _

theorem takes_labelProperty {key : PropertyKey} {p : PropertySummary Float}
    (h : σ.Legible (.labelProperty key p)) :
    Takes labelProperty [row (σ.fields (.labelProperty key p))] (.labelProperty key p) :=
  (takes_summary h.1 h.2).bind_nil (takes_pure _)

theorem takes_typeProperty {key : PropertyKey} {p : PropertySummary Float}
    (h : σ.Legible (.typeProperty key p)) :
    Takes typeProperty [row (σ.fields (.typeProperty key p))] (.typeProperty key p) :=
  (takes_summary h.1 h.2).bind_nil (takes_pure _)

end Records

end Reading

/-- A store that can be written: counts are known of what is registered, names are fields, and no
summary has more frequent values than the field of their number can count. -/
structure Store.Storable (s : Store Float) : Prop extends s.Counted where
  labelNames : ∀ name ∈ s.labelIds.keys, IsField name.toList
  typeNames : ∀ name ∈ s.typeIds.keys, IsField name.toList
  propertyNames : ∀ name ∈ s.propertyIds.keys, IsField name.toList
  frequent : ∀ p ∈ s.labelProperties.values ++ s.typeProperties.values, p.frequent.size < 2 ^ 31

/-- The sections of a text: what a store knows, the number of its nodes, and records of ten fields
between two types, which a store does not keep. -/
structure Sheet (s : Store Float) extends Listing s where
  nodes : ℕ
  paths : List (List (List Char))
  nodes_lt : nodes < 2 ^ 53
  nodes_eq : Float.ofNat nodes = s.nodeCount
  paths_fields : ∀ r ∈ paths, r.length = 10 ∧ ∀ f ∈ r, IsField f

namespace Sheet

variable {s : Store Float} (sheet : Sheet s) (σ : Spelling)

def lines : List (List Char) :=
  [σ.title "# Nodes"] ++ ([(toString sheet.nodes).toList] ++
    (σ.inSection "# Node Labels" (sheet.labels.map fun e => σ.fields (s.labelEntry e)) ++
    (σ.inSection "# Edge Types" (sheet.types.map fun e => σ.fields (s.typeEntry e)) ++
    (σ.inSection "# Node Properties"
      (sheet.properties.map fun e => σ.fields (.property e.1 e.2)) ++
    (σ.inSection "# Label/Type Combinations"
      (sheet.relationships.map fun e => σ.fields (.relationships e.1 e.2)) ++
    (σ.inSection "# Type/Type Combinations" sheet.paths ++
    (σ.inSection "# Label/Property Combinations"
      (sheet.labelProperties.map fun e => σ.fields (.labelProperty e.1 e.2)) ++
    σ.inSection "# Type/Property Combinations"
      (sheet.typeProperties.map fun e => σ.fields (.typeProperty e.1 e.2)))))))))

def text : String := String.ofList ((sheet.lines σ).flatMap (· ++ ['\n']))

variable {sheet σ}

/-- Every record of a store that can be written is read back if its numbers are. -/
theorem legible (h : s.Storable) (hσ : ∀ x ∈ s.numbers, σ.Faithful x) :
    ∀ e ∈ sheet.entries, σ.Legible e := by
  simp only [Store.numbers, List.forall_mem_append, List.forall_mem_flatMap] at hσ
  have hfrequent := List.forall_mem_append.mp h.frequent
  obtain ⟨⟨⟨hlabel, htype⟩, hrelationships⟩, hlabelProperty, htypeProperty⟩ := hσ
  simp only [Listing.entries, List.forall_mem_append, List.forall_mem_map]
  refine ⟨⟨⟨⟨⟨fun e he => ⟨?_, ?_⟩, fun e he => ⟨?_, ?_⟩⟩, fun e he => ?_⟩, fun e he => ?_⟩,
    fun e he => ⟨?_, ?_⟩⟩, fun e he => ⟨?_, ?_⟩⟩
  · exact h.labelNames e.1 (List.mem_map_of_mem (sheet.labels_perm.mem_iff.mp he))
  · have hcounted := (h.labels e.2).mpr (List.mem_map_of_mem (sheet.labels_perm.mem_iff.mp he))
    exact hlabel _ (OrderedMap.getD_mem_values hcounted 0)
  · exact h.typeNames e.1 (List.mem_map_of_mem (sheet.types_perm.mem_iff.mp he))
  · have hcounted := (h.types e.2).mpr (List.mem_map_of_mem (sheet.types_perm.mem_iff.mp he))
    exact htype _ (OrderedMap.getD_mem_values hcounted _)
  · exact h.propertyNames e.1 (List.mem_map_of_mem (sheet.properties_perm.mem_iff.mp he))
  · exact hrelationships _ (List.mem_map_of_mem (sheet.relationships_perm.mem_iff.mp he))
  · exact hfrequent.1 _ (List.mem_map_of_mem (sheet.labelProperties_perm.mem_iff.mp he))
  · exact hlabelProperty _ (List.mem_map_of_mem (sheet.labelProperties_perm.mem_iff.mp he))
  · exact hfrequent.2 _ (List.mem_map_of_mem (sheet.typeProperties_perm.mem_iff.mp he))
  · exact htypeProperty _ (List.mem_map_of_mem (sheet.typeProperties_perm.mem_iff.mp he))

theorem isLine_lines (h : ∀ e ∈ sheet.entries, σ.Legible e) : ∀ l ∈ sheet.lines σ, IsLine l := by
  simp only [Listing.entries, List.forall_mem_append, List.forall_mem_map] at h
  obtain ⟨⟨⟨⟨⟨hlabel, htype⟩, hproperty⟩, hrelationships⟩, hlabelProperty⟩, htypeProperty⟩ := h
  have hnodes : ∀ l ∈ σ.inSection "# Nodes" [], IsLine l :=
    Spelling.isLine_inSection (by decide) (by simp)
  simp only [lines, List.forall_mem_append, List.forall_mem_singleton]
  refine ⟨hnodes _ List.mem_cons_self, (Spelling.isField_toString_nat _).isLine, ?_, ?_, ?_, ?_, ?_,
    ?_, ?_⟩
  all_goals refine Spelling.isLine_inSection (by decide) ?_
  · exact List.forall_mem_map.mpr fun e he => Spelling.isField_fields (hlabel e he)
  · exact List.forall_mem_map.mpr fun e he => Spelling.isField_fields (htype e he)
  · exact List.forall_mem_map.mpr fun e he => Spelling.isField_fields (hproperty e he)
  · exact List.forall_mem_map.mpr fun e he => Spelling.isField_fields (hrelationships e he)
  · exact fun r hr => (sheet.paths_fields r hr).2
  · exact List.forall_mem_map.mpr fun e he => Spelling.isField_fields (hlabelProperty e he)
  · exact List.forall_mem_map.mpr fun e he => Spelling.isField_fields (htypeProperty e he)

theorem takes_paths (hlength : sheet.paths.length < 2 ^ 64) :
    Reading.Takes (Reading.inSection "# Type/Type Combinations" (Reading.fields 10))
      (σ.inSection "# Type/Type Combinations" sheet.paths) sheet.paths := by
  have hrecord : ∀ r ∈ sheet.paths, Reading.Takes (Reading.fields 10) [row (id r)] (id r) := by
    intro r hr
    obtain ⟨hten, hfields⟩ := sheet.paths_fields r hr
    have hne : r ≠ [] := List.ne_nil_of_length_eq_add_one hten
    exact Reading.takes_fields (Nat.le_of_eq hten.symm) hne hfields
  have hmap : sheet.paths.map id = sheet.paths := List.map_id _
  rw [← hmap]
  exact Reading.takes_inSection hlength hrecord

/-- The reader takes all lines that were written and ends with the entries of the store. -/
theorem takes_store (h : ∀ e ∈ sheet.entries, σ.Legible e)
    (hlines : (sheet.lines σ).length < 2 ^ 64) :
    Reading.Takes Reading.store (sheet.lines σ)
      (Store.build (Float.ofNat sheet.nodes) sheet.entries) := by
  simp only [Listing.entries, List.forall_mem_append, List.forall_mem_map] at h
  obtain ⟨⟨⟨⟨⟨hlabel, htype⟩, hproperty⟩, hrelationships⟩, hlabelProperty⟩, htypeProperty⟩ := h
  simp only [lines, Spelling.inSection, List.length_append, List.length_cons, List.length_map,
    List.length_nil] at hlines
  have hnodes : sheet.nodes < 2 ^ 64 := Nat.lt_trans sheet.nodes_lt (by decide)
  refine (Reading.takes_title _).bind ?_
  refine (Reading.takes_count hnodes).bind ?_
  refine (Reading.takes_inSection (by omega) fun e he => Reading.takes_label (hlabel e he)).bind ?_
  refine (Reading.takes_inSection (by omega) fun e he => Reading.takes_type (htype e he)).bind ?_
  refine (Reading.takes_inSection (by omega)
    fun e he => Reading.takes_property (hproperty e he)).bind ?_
  refine (Reading.takes_inSection (by omega)
    fun e he => Reading.takes_relationships (hrelationships e he)).bind ?_
  refine (takes_paths (by omega)).bind ?_
  refine (Reading.takes_inSection (by omega)
    fun e he => Reading.takes_labelProperty (hlabelProperty e he)).bind ?_
  refine (Reading.takes_inSection (by omega)
    fun e he => Reading.takes_typeProperty (htypeProperty e he)).bind_nil ?_
  exact Reading.takes_pure _

/-- A store that is written down is read back as it was, if every number in it is read back from its
numeral and the text has no more lines than can be counted. -/
theorem read_text (sheet : Sheet s) (h : s.Storable) (hσ : ∀ x ∈ s.numbers, σ.Faithful x)
    (hlines : (sheet.lines σ).length < 2 ^ 64) : read (sheet.text σ) = .ok s := by
  have hlegible : ∀ e ∈ sheet.entries, σ.Legible e := legible h hσ
  have hsplit : Statistics.lines (sheet.text σ) = sheet.lines σ ++ [] := by
    rw [List.append_nil]
    exact lines_flatMap (isLine_lines hlegible)
  rw [read_of_takes hsplit (takes_store hlegible hlines), sheet.nodes_eq,
    sheet.build_entries h.toCounted]

/-- Statistics of persons who live in cities, with frequent values of one property and quantiles of
another. -/
def residents : Store Float := Store.build 100
  [.label "City" 0 40, .label "Person" 1 60, .type "LIVES_IN" 0 ⟨60, 60, 60, 60⟩,
    .property "name" 0, .property "age" 1, .relationships ⟨1, 0, 0⟩ 60,
    .relationships ⟨-1, -1, -1⟩ 60,
    .labelProperty ⟨0, 0⟩ ⟨40, 38, 0, OrderedMap.ofList [(0x4b58a4c, 0.25), (-2, 0.5)], []⟩,
    .labelProperty ⟨1, 1⟩ ⟨60, 50, 60, ∅, [0, 20.5, 40, 60, 80]⟩]

def residentsSheet : Sheet residents where
  toListing := Listing.ascending residents
  nodes := 100
  paths := [["0", "1", "2", "3", "4", "5", "6", "7", "8", "9"].map String.toList]
  nodes_lt := by decide
  nodes_eq := by decide +kernel
  paths_fields := by decide +kernel

/-- The shortest numerals, bare titles, and frequent values by ascending hash. -/
def shortest : Spelling where
  numeral := Decimal.text
  remark := fun _ => ""
  frequent := OrderedMap.entries
  remark_line := fun _ => ⟨List.not_mem_nil, List.not_mem_nil⟩
  frequent_perm := fun _ => .refl _

theorem storable_residents : residents.Storable := by
  have hlabels : residents.labelCounts.keys = residents.labelIds.values := by decide +kernel
  have htypes : residents.typeTotals.keys = residents.typeIds.values := by decide +kernel
  refine { labels := ?_, types := ?_, labelNames := ?_, typeNames := ?_, propertyNames := ?_,
           frequent := ?_ }
  · intro id
    rw [← OrderedMap.mem_keys_iff, hlabels]
  · intro id
    rw [← OrderedMap.mem_keys_iff, htypes]
  · decide +kernel
  · decide +kernel
  · decide +kernel
  · decide +kernel

theorem read_text_residents : residents.Storable ∧ (∀ x ∈ residents.numbers, shortest.Faithful x) ∧
    (residentsSheet.lines shortest).length < 2 ^ 64 ∧
    read (residentsSheet.text shortest) = .ok residents := by
  have hσ : ∀ x ∈ residents.numbers, shortest.Faithful x := by decide +kernel
  have hlines : (residentsSheet.lines shortest).length < 2 ^ 64 := by decide +kernel
  exact ⟨storable_residents, hσ, hlines,
    read_text residentsSheet storable_residents hσ hlines⟩

end Sheet

end PatternCardinality.Statistics
