import PatternCardinality.Estimate.Join
import PatternCardinality.Estimate.Traversal

/-! The operators that plans are made of. -/

namespace PatternCardinality.Estimate

inductive Operator (α : Type) where
  | scan (v : String)
  | expand (base : String) (direction : Direction) (relationship : String) (types : TypeSet)
      (target : String)
  | selectLabel (v : String) (label : LabelId)
  | selectProperties (v : String) (predicates : PropertyPredicates α) (fixed : Option α)
  | selectTypes (v : String) (types : TypeSet)
  | join
  | mergeOn (staying leaving : String)
  | selfJoin (staying leaving : String)

namespace Operator

variable {α : Type}

def name : Operator α → String
  | scan _ => "GetNodes"
  | expand .. => "Expand"
  | selectLabel .. => "NodeLabelSelection"
  | selectProperties .. => "PropertySelection"
  | selectTypes .. => "RelationshipTypeSelection"
  | join => "NodeJoin"
  | mergeOn .. => "MergeOn"
  | selfJoin .. => "SelfJoin"

/-- The number of results that an operator takes. -/
def arity : Operator α → Nat
  | scan _ => 0
  | join => 2
  | _ => 1

/-- The result of an operator on the results it takes. -/
def compute [Scalar α] [Statistics.NumberHash α] (db : Database α) (op : Operator α)
    (inputs : List (Profile α)) : Except (Failure α) (Profile α) :=
  match op, inputs with
  | scan v, [] => Estimate.scan db v
  | expand base direction relationship types target, [p] =>
    Estimate.expand db base direction relationship types target p
  | selectLabel v label, [p] => Estimate.selectLabel db v label p
  | selectProperties v predicates fixed, [p] => Estimate.selectProperties db v predicates fixed p
  | selectTypes v types, [p] => Estimate.selectTypes db v types p
  | join, [left, right] => Estimate.join db left right
  | mergeOn staying leaving, [p] => Estimate.mergeOn db staying leaving p
  | selfJoin staying leaving, [p] => Estimate.selfJoin db staying leaving p
  | op, inputs => .error (.wrongArity op.name op.arity inputs.length)

def typesText (types : TypeSet) : String := "|".intercalate (types.toList.map toString)

def braced (s : String) : String := "\x7b" ++ s ++ "\x7d"

/-- Types are left out where every type is followed. -/
def expandText (base : String) (direction : Direction) (relationship : String) (types : TypeSet)
    (target : String) : String :=
  let left := if direction = .incoming then "<-[" else "-["
  let right := if direction = .outgoing then "]->" else "]-"
  let only := if anyType ∈ types then "" else ":" ++ typesText types
  "Expand_" ++ braced base ++ left ++ relationship ++ only ++ right ++ braced target

def text : Operator Float → String
  | scan v => "GetNodes_" ++ braced v
  | expand base direction relationship types target =>
    expandText base direction relationship types target
  | selectLabel v label => "Label_" ++ braced v ++ ":" ++ toString label
  | selectProperties v predicates fixed =>
    let conditions := predicates.entries.map (fun e => toString e.1 ++ e.2.describe)
    "Property_" ++ braced v ++ "[" ++ ", ".intercalate conditions ++ "]" ++
      (match fixed with | some s => "~" ++ Decimal.text s | none => "")
  | selectTypes v types => "Type_" ++ braced v ++ ":" ++ typesText types
  | join => "NodeJoin"
  | mergeOn staying leaving => "MergeOn_" ++ braced staying ++ "<-" ++ braced leaving
  | selfJoin staying leaving => "SelfJoin_" ++ braced staying ++ "<-" ++ braced leaving

def identicalPredicates (p q : PropertyPredicates Float) : Bool :=
  p.keys = q.keys && (p.values.zip q.values).all (fun e => e.1.identical e.2)

def identicalFixed : Option Float → Option Float → Bool
  | some x, some y => x.toBits == y.toBits
  | none, none => true
  | _, _ => false

/-- The same operator with the same parameters, numbers compared by their bits. -/
def identical : Operator Float → Operator Float → Bool
  | scan v, scan w => v = w
  | expand b₁ d₁ r₁ t₁ x₁, expand b₂ d₂ r₂ t₂ x₂ =>
    b₁ = b₂ && d₁ = d₂ && r₁ = r₂ && t₁ = t₂ && x₁ = x₂
  | selectLabel v l, selectLabel w m => v = w && l = m
  | selectProperties v p s, selectProperties w q t =>
    v = w && identicalPredicates p q && identicalFixed s t
  | selectTypes v t, selectTypes w u => v = w && t = u
  | join, join => true
  | mergeOn s l, mergeOn t m => s = t && l = m
  | selfJoin s l, selfJoin t m => s = t && l = m
  | _, _ => false

end Operator

end PatternCardinality.Estimate
