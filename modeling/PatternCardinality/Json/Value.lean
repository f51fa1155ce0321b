import PatternCardinality.Ordered.Map

/-! JSON values. Members of an object keep their order and may repeat a name. -/

namespace PatternCardinality

/-- A JSON value. `hugeNumber` is a number beyond every double and `brokenText` a string with an
unpaired surrogate, or an object with such a name: both are well formed, but have no value. -/
inductive Json where
  | null
  | bool (b : Bool)
  | int (n : Int)
  | float (x : Float)
  | hugeNumber
  | text (s : String)
  | brokenText
  | array (items : List Json)
  | object (members : List (String × Json))

namespace Json

instance : Inhabited Json := ⟨null⟩

/-- The first member with the name. -/
def member? (name : String) : List (String × Json) → Option Json
  | [] => none
  | m :: rest => if m.1 = name then some m.2 else member? name rest

mutual

/-- Every number and every string has a value, and nothing is nested deeper than `depth`. -/
def isWithin (depth : Nat) : Json → Bool
  | hugeNumber => false
  | brokenText => false
  | array items => depth != 0 && allWithin (depth - 1) items
  | object members => depth != 0 && membersWithin (depth - 1) members
  | _ => true

def allWithin (depth : Nat) : List Json → Bool
  | [] => true
  | j :: rest => isWithin depth j && allWithin depth rest

def membersWithin (depth : Nat) : List (String × Json) → Bool
  | [] => true
  | (_, j) :: rest => isWithin depth j && membersWithin depth rest

end

mutual

/-- Of members with one name only the last is kept. -/
def withoutRepeats : Json → Json
  | array items => array (itemsWithoutRepeats items)
  | object members => object (membersWithoutRepeats members)
  | j => j

def itemsWithoutRepeats : List Json → List Json
  | [] => []
  | j :: rest => withoutRepeats j :: itemsWithoutRepeats rest

def membersWithoutRepeats : List (String × Json) → List (String × Json)
  | [] => []
  | (name, j) :: rest =>
    let rest := membersWithoutRepeats rest
    if (member? name rest).isSome then rest else (name, withoutRepeats j) :: rest

end

mutual

/-- Members in the order of their names. -/
def sorted : Json → Json
  | array items => array (itemsSorted items)
  | object members => object (OrderedMap.ofList (membersSorted members)).entries
  | j => j

def itemsSorted : List Json → List Json
  | [] => []
  | j :: rest => sorted j :: itemsSorted rest

def membersSorted : List (String × Json) → List (String × Json)
  | [] => []
  | (name, j) :: rest => (name, sorted j) :: membersSorted rest

end

end Json

end PatternCardinality
