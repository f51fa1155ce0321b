import PatternCardinality.Decimal.Literal
import PatternCardinality.Pattern.Reader
import PatternCardinality.Query.Basic

/-! The text form of conditions, such as `` `a`.`name`="Ann", `a`.`age`=30 ``, and of queries made
of a pattern and conditions. -/

namespace PatternCardinality

/-- What a condition asks a property to be. -/
inductive PropertyValue where
  | text (s : String)
  | number (x : Float)

/-- Values by variable and property. -/
abbrev Conditions := OrderedMap String (OrderedMap String PropertyValue)

namespace Conditions

open Text

def fault {β : Type} (f : PredicateFault Float) : Except (Failure Float) β :=
  .error (.badPredicate f)

/-- A name between backticks. -/
def name (s : List Char) : Except (Failure Float) (List Char × List Char) :=
  match s with
  | '\x60' :: body =>
    match cut? '\x60' body with
    | some p => .ok p
    | none => fault (.unterminatedName (String.ofList s))
  | _ => fault (.expectedQuote (String.ofList s))

/-- The text up to a closing quote; a backslash lets the next character stand for itself. -/
def quoted? : List Char → Option (List Char × List Char)
  | [] => none
  | '"' :: s => some ([], s)
  | '\\' :: c :: s => (quoted? s).map (fun p => (c :: p.1, p.2))
  | ['\\'] => none
  | c :: s => (quoted? s).map (fun p => (c :: p.1, p.2))

/-- A text in double quotes, or a number up to the next comma. -/
def value (owner property : String) (s : List Char) :
    Except (Failure Float) (PropertyValue × List Char) :=
  match s with
  | '"' :: body =>
    match quoted? body with
    | some (t, rest) => .ok (.text (String.ofList t), rest)
    | none => fault (.unterminatedText (String.ofList body))
  | _ =>
    let literal := trim (s.takeWhile (· ≠ ','))
    match Decimal.number? literal with
    | some x => .ok (.number x, s.dropWhile (· ≠ ','))
    | none => fault (.badNumber (String.ofList literal) owner property)

/-- A variable, a property and a value, and what follows them. -/
def condition (s : List Char) :
    Except (Failure Float) (String × String × PropertyValue × List Char) := do
  let (owner, s) ← name s
  let owner := String.ofList owner
  match s with
  | '.' :: s =>
    let (property, s) ← name s
    let property := String.ofList property
    match s with
    | '=' :: s =>
      let (v, rest) ← value owner property s
      return (owner, property, v, rest)
    | _ => fault (.expectedEquals property)
  | _ => fault (.expectedPoint owner)

def put (all : Conditions) (owner property : String) (v : PropertyValue) : Conditions :=
  all.insert owner ((all.getD owner ∅).insert property v)

/-- What stands behind a condition: nothing, or a comma and more. -/
def afterComma (s : List Char) : Except (Failure Float) (List Char) :=
  match trimStart s with
  | [] => .ok []
  | ',' :: s => .ok (trimStart s)
  | s => fault (.expectedComma (String.ofList s))

/-- Each condition takes some of the text, so that its length is fuel enough. -/
def readFrom : (fuel : Nat) → Conditions → List Char → Except (Failure Float) Conditions
  | 0, all, _ => .ok all
  | fuel + 1, all, s =>
    if s.isEmpty then .ok all
    else do
      let (owner, property, v, rest) ← condition s
      readFrom fuel (put all owner property v) (← afterComma rest)

/-- Reads conditions between commas; of several on one property the last counts. -/
def parse (s : String) : Except (Failure Float) Conditions :=
  let s := trim s.toList
  readFrom (s.length + 1) ∅ s

end Conditions

def PropertyValue.predicate : PropertyValue → Except (Failure Float) (Predicate Float)
  | text s => .ok (.text s)
  | number x => Predicate.equalTo (Double.toBound x)

namespace Query

/-- Adds a condition to a node variable of that name, or else to a relationship. -/
def addCondition (q : Query Float) (owner property : String) (v : PropertyValue) :
    Except (Failure Float) (Query Float) := do
  let predicate ← v.predicate
  if q.pattern.contains owner then q.addNodePredicate owner property predicate
  else q.addRelationshipPredicate owner property predicate

/-- Reads a pattern and, where given, conditions, which are added by variable and property. -/
def parse (pattern : String) (conditions : Option String) :
    Except (Failure Float) (Query Float) := do
  let q := ofPattern (← Pattern.parse pattern)
  match conditions with
  | none => return q
  | some s =>
    let all ← Conditions.parse s
    all.entries.foldlM (fun q owner =>
      owner.2.entries.foldlM (fun q p => q.addCondition owner.1 p.1 p.2) q) q

end Query

end PatternCardinality
