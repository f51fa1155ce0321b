import PatternCardinality.Estimate.Operator

/-! Trees of operators, each node with the result that was computed when it was built. -/

namespace PatternCardinality.Estimate

inductive Expression (α : Type) where
  | node (operator : Operator α) (children : List (Expression α)) (profile : Profile α)

namespace Expression

variable {α : Type}

def operator : Expression α → Operator α
  | node op _ _ => op

def children : Expression α → List (Expression α)
  | node _ children _ => children

def profile : Expression α → Profile α
  | node _ _ profile => profile

/-- The estimated number of matches. -/
def size (e : Expression α) : α := e.profile.size

section Build

variable [Scalar α] [Statistics.NumberHash α]

/-- Applies an operator to the results of expressions. -/
def make (db : Database α) (op : Operator α) (children : List (Expression α)) :
    Except (Failure α) (Expression α) := do
  if children.length ≠ op.arity then throw (.wrongArity op.name op.arity children.length)
  else return node op children (← op.compute db (children.map profile))

def leaf (db : Database α) (op : Operator α) : Except (Failure α) (Expression α) := make db op []

def apply (db : Database α) (e : Expression α) (op : Operator α) :
    Except (Failure α) (Expression α) := make db op [e]

end Build

mutual

def operatorCount : Expression α → Nat
  | node _ children _ => 1 + totalCount children

def totalCount : List (Expression α) → Nat
  | [] => 0
  | e :: rest => operatorCount e + totalCount rest

end

mutual

/-- The nodes from the root down, each before its children, with their depths. -/
def walkFrom (depth : Nat) : Expression α → List (Nat × Operator α × Profile α)
  | node op children profile => (depth, op, profile) :: walkAll (depth + 1) children

def walkAll (depth : Nat) : List (Expression α) → List (Nat × Operator α × Profile α)
  | [] => []
  | e :: rest => walkFrom depth e ++ walkAll depth rest

end

def walk (e : Expression α) : List (Nat × Operator α × Profile α) := walkFrom 0 e

mutual

def text : Expression Float → String
  | node op children profile =>
    "Expression[" ++ op.text ++ textAll children ++ ", card=" ++ Decimal.text profile.size ++ "]"

def textAll : List (Expression Float) → String
  | [] => ""
  | e :: rest => ", " ++ text e ++ textAll rest

end

end Expression

namespace Profile

def debugEntry (k v : String) : String := k ++ ": " ++ v

def sharesText (shares : LabelShares Float) : String :=
  Operator.braced (", ".intercalate
    (shares.entries.map (fun e => debugEntry (toString e.1) (Decimal.Layout.pointed.text e.2))))

def typeSetText (types : TypeSet) : String :=
  Operator.braced (", ".intercalate (types.toList.map toString))

def text (p : Profile Float) : String :=
  "ResultProperties[size=" ++ Decimal.text p.size ++
    String.join (p.nodes.entries.map (fun e => ", " ++ e.1 ++ "=" ++ sharesText e.2)) ++
    String.join (p.relationships.entries.map (fun e => ", " ++ e.1 ++ "=" ++ typeSetText e.2)) ++
    "]"

end Profile

end PatternCardinality.Estimate
