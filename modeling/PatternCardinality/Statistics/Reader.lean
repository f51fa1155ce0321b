import PatternCardinality.Decimal.Literal
import PatternCardinality.Failure
import PatternCardinality.Statistics.Store

/-! The text form of statistics: sections in a fixed order, each with a title, the number of its
records, and one record a line with fields between tabs. -/

namespace PatternCardinality.Statistics

/-- Lines end with a line feed, before which one carriage return is dropped. -/
def linesFrom (line : List Char) : List Char → List (List Char)
  | [] => if line.isEmpty then [] else [line.reverse]
  | c :: s =>
    if c = '\n' then
      (match line with | '\r' :: l => l | l => l).reverse :: linesFrom [] s
    else linesFrom (c :: line) s

def lines (s : String) : List (List Char) := linesFrom [] s.toList

/-- The lines that are left, and how many have been asked for. -/
structure Cursor where
  rest : List (List Char)
  asked : Nat

abbrev Reading (β : Type) := StateT Cursor (Except (Failure Float)) β

namespace Reading

def fail {β : Type} (fault : StatisticsFault) : Reading β := fun c =>
  .error (.badStatistics c.asked fault)

def line : Reading (List Char) := fun c =>
  match c.rest with
  | [] => .error (.badStatistics (c.asked + 1) .endOfFile)
  | l :: rest => .ok (l, ⟨rest, c.asked + 1⟩)

def title (expected : String) : Reading Unit := do
  let l ← line
  if (Text.after? expected.toList l).isSome then return ()
  else fail (.wrongSection expected (String.ofList l))

def count : Reading Nat := do
  let l ← line
  match Text.unsigned? 10 (Nat.pow 2 64 - 1) (Text.trim l) with
  | some n => return n
  | none => fail (.badCount (String.ofList l))

/-- The fields of the next line; empty ones do not count. -/
def fields (least : Nat) : Reading (List (List Char)) := do
  let l ← line
  let found := (Text.pieces (· = '\t') l).filter (fun f => !f.isEmpty)
  if found.length < least then fail (.shortRecord least found.length) else return found

def integer (field : List Char) : Reading Int32 :=
  match Text.int32? (Text.trim field) with
  | some n => pure n
  | none => fail (.badInteger (String.ofList field))

def number (field : List Char) : Reading Float :=
  match Decimal.number? (Text.trim field) with
  | some x => pure x
  | none => fail (.badNumber (String.ofList field))

def field (fields : List (List Char)) (i : Nat) : List Char := fields.getD i []

def text (fields : List (List Char)) (i : Nat) : String := String.ofList (field fields i)

/-- So many records, one after the other. -/
def repeated {β : Type} (record : Reading β) : Nat → Reading (List β)
  | 0 => return []
  | n + 1 => do
    let first ← record
    let rest ← repeated record n
    return first :: rest

def label : Reading (Entry Float) := do
  let f ← fields 3
  return .label (text f 0) (← integer (field f 1)) (← number (field f 2))

def type : Reading (Entry Float) := do
  let f ← fields 6
  let id ← integer (field f 1)
  return .type (text f 0) id ⟨← number (field f 2), ← number (field f 3), ← number (field f 4),
    ← number (field f 5)⟩

def property : Reading (Entry Float) := do
  let f ← fields 2
  return .property (text f 0) (← integer (field f 1))

def relationships : Reading (Entry Float) := do
  let f ← fields 4
  let key : RelationshipKey := ⟨← integer (field f 0), ← integer (field f 1), ← integer (field f 2)⟩
  return .relationships key (← number (field f 3))

/-- Up to 64 bits in hexadecimal, of which the lower 32 are kept. -/
def hash? (s : List Char) : Option Int32 :=
  match Text.trim s with
  | '-' :: digits => (Text.signed? 16 (Nat.pow 2 63) digits).map (fun n => Int32.ofInt (-n))
  | digits => (Text.unsigned? 16 (Nat.pow 2 64 - 1) digits).map Int32.ofNat

/-- A hash and the share of its value, with an equals sign between them. -/
def frequent (entry : List Char) : Reading (Int32 × Float) :=
  match Text.cut? '=' entry with
  | none => fail (.badFrequent (String.ofList entry))
  | some (hash, share) =>
    match hash? hash with
    | none => fail (.badHash (String.ofList hash))
    | some h => do return (h, ← number share)

/-- Owner, property, three counts, the number of frequent values, these, and quantiles. -/
def summary : Reading (PropertyKey × PropertySummary Float) := do
  let f ← fields 6
  let owner ← integer (field f 0)
  let property ← integer (field f 1)
  let count ← number (field f 2)
  let unique ← number (field f 3)
  let numeric ← number (field f 4)
  let n ← integer (field f 5)
  if n < 0 then fail .negativeFrequent
  else
    let n := n.toInt.toNat
    if f.length < 6 + n then fail (.fewFrequent n)
    else
      let entries ← ((f.drop 6).take n).mapM frequent
      let quantiles ← (f.drop (6 + n)).mapM number
      return (⟨owner, property⟩, ⟨count, unique, numeric, OrderedMap.ofList entries, quantiles⟩)

def labelProperty : Reading (Entry Float) := do
  let (key, s) ← summary
  return .labelProperty key s

def typeProperty : Reading (Entry Float) := do
  let (key, s) ← summary
  return .typeProperty key s

/-- A title, a number of records, and the records. -/
def inSection {β : Type} (heading : String) (record : Reading β) : Reading (List β) := do
  title heading
  let n ← count
  repeated record n

/-- All sections; of the records between two types only the shape is checked. -/
def store : Reading (Store Float) := do
  title "# Nodes"
  let nodes ← count
  let labels ← inSection "# Node Labels" label
  let types ← inSection "# Edge Types" type
  let properties ← inSection "# Node Properties" property
  let relationships ← inSection "# Label/Type Combinations" relationships
  let _ ← inSection "# Type/Type Combinations" (fields 10)
  let labelProperties ← inSection "# Label/Property Combinations" labelProperty
  let typeProperties ← inSection "# Type/Property Combinations" typeProperty
  return Store.build (Float.ofNat nodes)
    (labels ++ types ++ properties ++ relationships ++ labelProperties ++ typeProperties)

end Reading

/-- Reads statistics; what follows the last declared record is not looked at. -/
def read (s : String) : Except (Failure Float) (Store Float) :=
  (Reading.store.run ⟨lines s, 0⟩).map (·.1)

end PatternCardinality.Statistics
