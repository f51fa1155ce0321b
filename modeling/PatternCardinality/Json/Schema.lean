import PatternCardinality.Json.Value
import PatternCardinality.Ordered.Map

/-! What JSON values stand for: texts, numbers, lists, tables, records and choices. -/

namespace PatternCardinality.Json

def asText? : Json → Option String
  | text s => some s
  | _ => none

def asBool? : Json → Option Bool
  | bool b => some b
  | _ => none

def asFloat? : Json → Option Float
  | int n => some (Float.ofInt n)
  | float x => some x
  | _ => none

/-- A value that may be missing; null stands for none. -/
def asOptional? {α : Type} (read : Json → Option α) : Json → Option (Option α)
  | null => some none
  | j => (read j).map some

def asList? {α : Type} (read : Json → Option α) : Json → Option (List α)
  | array items => items.mapM read
  | _ => none

/-- An object with free names; the last of several members with one name counts. -/
def asTable? {α : Type} (read : Json → Option α) : Json → Option (OrderedMap String α)
  | object members =>
    (members.mapM (fun m => (read m.2).map (fun v => (m.1, v)))).map OrderedMap.ofList
  | _ => none

/-- The values of a record's fields in order: given by name, each at most once, beside any other
members, or given as an array from the first on. -/
def asRecord? (fields : List String) : Json → Option (List (Option Json))
  | object members =>
    fields.mapM (fun name =>
      match members.filter (fun m => m.1 = name) with
      | [] => some none
      | [m] => some (some m.2)
      | _ => none)
  | array items =>
    if items.length ≤ fields.length then
      some (items.map some ++ List.replicate (fields.length - items.length) none)
    else none
  | _ => none

/-- A record given by name only. -/
def asNamedRecord? (fields : List String) : Json → Option (List (Option Json))
  | object members => asRecord? fields (object members)
  | _ => none

/-- One of several cases: an object whose one member names the case. -/
def asCase? : Json → Option (String × Json)
  | object [m] => some m
  | _ => none

/-- One of several names, alone or as the name of a case without content. -/
def asName? : Json → Option String
  | text s => some s
  | object [(name, null)] => some name
  | _ => none

/-- A field that must be given. -/
def required? {α : Type} (read : Json → Option α) (field : Option Json) : Option α :=
  field.bind read

/-- A field that stands for `default` where it is not given. -/
def defaulted? {α : Type} (default : α) (read : Json → Option α) : Option Json → Option α
  | none => some default
  | some j => read j

end PatternCardinality.Json
