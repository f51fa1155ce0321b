import PatternCardinality.Pattern.Basic
import PatternCardinality.Text.Blank

/-! The text form of patterns: parts between commas, each made of node variables `(a:Label)` and of
relationships between neighbours such as `(a)-[:TYPE]->(b)`. Text between them is passed over. -/

namespace PatternCardinality.Pattern

open Text

/-- A letter or digit of ASCII or an underscore. -/
def isNameChar (c : Char) : Bool := c.isAlphanum || c = '_'

/-- What stands before the next closing parenthesis, and what behind it. -/
def enclosed? : List Char → Option (List Char × List Char)
  | '(' :: s => cut? ')' s
  | _ => none

/-- A node variable at the beginning of a text: a name, which may be empty, and labels. -/
def nodeAt? (s : List Char) : Option (String × List String) := do
  let (body, _) ← enclosed? s
  match pieces (· = ':') body with
  | name :: labels =>
    if name.all isNameChar ∧ labels.all (fun l => !l.isEmpty && l.all isNameChar) then
      some (String.ofList name, labels.map String.ofList)
    else none
  | [] => none

/-- The end of a relationship: a name, which may be empty, and behind a colon any text. -/
def endpointAt? (s : List Char) : Option (String × List Char) := do
  let (body, rest) ← enclosed? s
  let name := String.ofList (body.takeWhile isNameChar)
  match body.dropWhile isNameChar with
  | [] => some (name, rest)
  | ':' :: _ :: _ => some (name, rest)
  | _ => none

/-- A type in brackets, or empty brackets, or none. -/
def bracketAt? : List Char → Option (Option String × List Char)
  | '[' :: ']' :: s => some (none, s)
  | '[' :: ':' :: s =>
    let name := s.takeWhile isNameChar
    match s.dropWhile isNameChar with
    | ']' :: rest => if name.isEmpty then none else some (some (String.ofList name), rest)
    | _ => none
  | '[' :: _ => none
  | s => some (none, s)

/-- What lies between two ends. A head on the left decides before one on the right. -/
def connectorAt? (s : List Char) : Option (Option String × Direction × List Char) := do
  let (left, s) ← match s with
    | '<' :: '-' :: r => some (true, r)
    | '-' :: r => some (false, r)
    | _ => none
  let (type, s) ← bracketAt? s
  match s with
  | '-' :: '>' :: r => some (type, if left then .incoming else .outgoing, r)
  | '-' :: r => some (type, if left then .incoming else .both, r)
  | _ => none

/-- A step from one node variable to the next. -/
structure Hop where
  base : String
  type : Option String
  direction : Direction
  next : String
  deriving DecidableEq

def hopAt? (s : List Char) : Option Hop := do
  let (base, s) ← endpointAt? s
  let (type, direction, s) ← connectorAt? s
  let (next, _) ← endpointAt? s
  some ⟨base, type, direction, next⟩

/-- What is found at the places of a text from left to right. -/
def found {β : Type} (at? : List Char → Option β) : List Char → List β
  | [] => []
  | c :: s =>
    match at? (c :: s) with
    | some b => b :: found at? s
    | none => found at? s

variable {α : Type}

def addFoundNode (part : List Char) (p : Pattern) (node : String × List String) :
    Except (Failure α) Pattern :=
  if node.1 = "" then .error (.badPattern (.namelessNode (String.ofList part)))
  else .ok (p.addNode node.1 node.2)

def addFoundHop (part : List Char) (p : Pattern) (hop : Hop) : Except (Failure α) Pattern :=
  if hop.base = "" ∨ hop.next = "" then
    .error (.badPattern (.namelessEndpoint (String.ofList part)))
  else .ok (p.addRelationship hop.base hop.type hop.direction hop.next)

/-- Adds the node variables of a part, then its relationships. -/
def addPart (p : Pattern) (part : List Char) : Except (Failure α) Pattern := do
  let p ← (found nodeAt? part).foldlM (addFoundNode part) p
  (found hopAt? part).foldlM (addFoundHop part) p

def parts (s : List Char) : List (List Char) := (pieces (· = ',') (trim s)).map trim

/-- Reads a pattern, which has one node variable at least. -/
def parse (s : String) : Except (Failure α) Pattern := do
  let p ← (parts s.toList).foldlM addPart empty
  if p.nodes.isEmpty then throw (.badPattern (.noNodes s)) else return p

end PatternCardinality.Pattern
