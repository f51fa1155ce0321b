import PatternCardinality.Json.Reader
import PatternCardinality.Json.Schema
import PatternCardinality.Labels.Variant
import PatternCardinality.Plan.Strategy

/-! How estimates are to be made. -/

namespace PatternCardinality

open Labels Plan

/-- `fixed` is the selectivity of every predicate where statistics of values shall not be used;
`oneSided` asks for relationship counts by the label at one end only. -/
structure Settings (α : Type) where
  strategy : JoinStrategy
  fixed : Option α
  oneSided : Bool
  variant : Variant

namespace Settings

variable {α : Type}

def standard : Settings α := ⟨.mergeOn, none, false, .all⟩

/-- Fails if the fixed selectivity is not a probability. -/
def validate [Scalar α] (s : Settings α) : Except (Failure α) Unit :=
  match s.fixed with
  | none => .ok ()
  | some x => if 0 ≤ x ∧ x ≤ 1 then .ok () else .error (.badSettings (.selectivity x))

def toJson (s : Settings Float) : Json :=
  .object [("join_strategy", .text s.strategy.name),
    ("static_selectivity", s.fixed.elim .null .float), ("simulate_neo4j", .bool s.oneSided),
    ("label_variant", .text s.variant.name)]

open Json in
/-- What is not given is as in the standard settings. -/
def ofJson? (j : Json) : Option (Settings Float) := do
  match ←
    asRecord? ["join_strategy", "static_selectivity", "simulate_neo4j", "label_variant"] j with
  | [strategy, fixed, oneSided, variant] =>
    let named {β : Type} (ofName? : String → Option β) (j : Json) : Option β :=
      (asName? j).bind ofName?
    let strategy ← defaulted? .mergeOn (named JoinStrategy.ofName?) strategy
    let fixed ← defaulted? none (asOptional? asFloat?) fixed
    let oneSided ← defaulted? false asBool? oneSided
    let variant ← defaulted? .all (named Variant.ofName?) variant
    some ⟨strategy, fixed, oneSided, variant⟩
  | _ => none

/-- Reads settings and checks them. -/
def read (s : String) : Except (Failure Float) (Settings Float) :=
  match (Json.read? s).bind ofJson? with
  | none => .error .badJson
  | some settings => do
    settings.validate
    return settings

end Settings

end PatternCardinality
