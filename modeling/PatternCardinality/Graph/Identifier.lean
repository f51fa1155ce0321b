/-! Identifiers of labels, relationship types and properties, and the ways to follow a
relationship. -/

namespace PatternCardinality

abbrev LabelId := Int32

abbrev TypeId := Int32

abbrev PropertyId := Int32

/-- Stands for every label. -/
def anyLabel : LabelId := -1

/-- Stands for every relationship type. -/
def anyType : TypeId := -1

/-- How a relationship is followed, seen from the node where the step begins. -/
inductive Direction where
  | outgoing
  | incoming
  | both
  deriving DecidableEq

namespace Direction

def reverse : Direction → Direction
  | outgoing => incoming
  | incoming => outgoing
  | both => both

def text : Direction → String
  | outgoing => "OUTGOING"
  | incoming => "INCOMING"
  | both => "BOTH"

def name : Direction → String
  | outgoing => "outgoing"
  | incoming => "incoming"
  | both => "both"

def ofName? (s : String) : Option Direction := [outgoing, incoming, both].find? (·.name == s)

end Direction

end PatternCardinality
