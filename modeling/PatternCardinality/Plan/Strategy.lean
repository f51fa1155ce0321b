import PatternCardinality.Labels.Variant

/-! How the last variable of a cycle is identified with the first. -/

namespace PatternCardinality.Plan

open Labels

inductive JoinStrategy where
  | mergeOn
  | selfJoin
  deriving DecidableEq

namespace JoinStrategy

def name : JoinStrategy → String
  | mergeOn => "merge_on"
  | selfJoin => "self_join"

def ofName? (s : String) : Option JoinStrategy := [mergeOn, selfJoin].find? (·.name = s)

/-- Reads a name, in which the underscore may be missing. -/
def parse {α : Type} (s : String) : Except (Failure α) JoinStrategy :=
  let s := plainName s
  if s = "merge_on" ∨ s = "mergeon" then .ok mergeOn
  else if s = "self_join" ∨ s = "selfjoin" then .ok selfJoin
  else .error (.badSettings (.unknownStrategy s))

end JoinStrategy

end PatternCardinality.Plan
