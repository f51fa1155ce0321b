import PatternCardinality.Decimal.Layout
import PatternCardinality.Graph.Identifier

/-! Everything that can go wrong, by cause, and the text that reports it. -/

namespace PatternCardinality

inductive FileFault where
  | missing
  | directory
  | notDirectory
  | longName
  | zeroByte
  deriving DecidableEq

inductive StatisticsFault where
  | endOfFile
  | wrongSection (expected found : String)
  | badCount (line : String)
  | shortRecord (least found : Nat)
  | badInteger (field : String)
  | badNumber (field : String)
  | negativeFrequent
  | fewFrequent (expected : Nat)
  | badFrequent (entry : String)
  | badHash (text : String)
  deriving DecidableEq

inductive SettingsFault (α : Type) where
  | unknownVariant (name : String)
  | unknownStrategy (name : String)
  | selectivity (s : α)
  | wrongHeader (path first second : String)
  | badGroup (text : String)

/-- A row with another number of fields than the header, and where it begins. -/
inductive TableFault where
  | file (fault : FileFault)
  | unequalRow (record line byte found expected : Nat)
  deriving DecidableEq

inductive PatternFault where
  | namelessNode (part : String)
  | namelessEndpoint (part : String)
  | noNodes (input : String)
  | empty
  | unknownEndpoint (relationship name : String)
  deriving DecidableEq

inductive PredicateFault (α : Type) where
  | brokenRange (low high : Bound α)
  | unknownComparison (op : String)
  | differentValues (first second : String)
  | mixedKinds
  | expectedPoint (owner : String)
  | expectedEquals (property : String)
  | badNumber (literal owner property : String)
  | expectedComma (rest : String)
  | expectedQuote (rest : String)
  | unterminatedName (rest : String)
  | unterminatedText (rest : String)

inductive Failure (α : Type) where
  | sharedLabel (label : LabelId) (first second : Nat)
  | unknownLabels (names : List String)
  | unknownType (name : String)
  | unknownProperty (name : String)
  | badStatistics (line : Nat) (fault : StatisticsFault)
  | badSettings (fault : SettingsFault α)
  | unreadableFile (fault : FileFault)
  | badTable (fault : TableFault)
  | badJson
  | unboundVariable (name : String)
  | boundVariable (name : String)
  | overlappingVariables (names : List String)
  | sameVariable (name : String)
  | emptyTypes (name : String)
  | wrongArity (operator : String) (expected actual : Nat)
  | emptyPredicates (name : String)
  | badPattern (fault : PatternFault)
  | badPredicate (fault : PredicateFault α)

namespace Failure

/-- The data or the settings are to blame, not the use that is made of them. -/
def isConfiguration {α : Type} : Failure α → Bool
  | sharedLabel .. | unknownLabels _ | unknownType _ | unknownProperty _ | badStatistics ..
  | badSettings _ | unreadableFile _ | badTable _ | badJson => true
  | _ => false

end Failure

def FileFault.message : FileFault → String
  | missing => "No such file or directory (os error 2)"
  | directory => "Is a directory (os error 21)"
  | notDirectory => "Not a directory (os error 20)"
  | longName => "File name too long (os error 36)"
  | zeroByte => "file name contained an unexpected NUL byte"

def StatisticsFault.message : StatisticsFault → String
  | endOfFile => "unexpected end of file"
  | wrongSection expected found => s!"expected section '{expected}', found '{found}'"
  | badCount line => s!"invalid record count '{line}'"
  | shortRecord least found => s!"expected at least {least} fields, found {found}"
  | badInteger field => s!"invalid integer '{field}'"
  | badNumber field => s!"invalid number '{field}'"
  | negativeFrequent => "negative number of frequent values"
  | fewFrequent expected => s!"expected {expected} frequent values"
  | badFrequent entry => s!"invalid frequent value '{entry}'"
  | badHash text => s!"invalid value hash '{text}'"

def SettingsFault.message : SettingsFault Float → String
  | unknownVariant name => s!"unknown label distribution variant '{name}'"
  | unknownStrategy name => s!"unknown join strategy '{name}'"
  | selectivity s => "static selectivity must lie in [0, 1], got " ++ Decimal.text s
  | wrongHeader path first second => s!"{path}: wrong header, should be '{first},{second}'"
  | badGroup text => s!"invalid group id '{text}'"

def TableFault.message : TableFault → String
  | file fault => fault.message
  | unequalRow record line byte found expected =>
    s!"CSV error: record {record} (line: {line}, byte: {byte}): found record with {found} " ++
      s!"fields, but the previous record has {expected} fields"

def PatternFault.message : PatternFault → String
  | namelessNode part => s!"node without variable name in '{part}'"
  | namelessEndpoint part => s!"relationship endpoint without variable name in '{part}'"
  | noNodes input => s!"no node variables in '{input}'"
  | empty => "empty pattern"
  | unknownEndpoint relationship name =>
    s!"relationship {relationship} uses unknown node variable '{name}'"

def PredicateFault.message : PredicateFault Float → String
  | brokenRange low high =>
    "broken range [" ++ Decimal.boundText low ++ ", " ++ Decimal.boundText high ++ "]"
  | unknownComparison op => s!"unknown comparison operator '{op}'"
  | differentValues first second => s!"values don't match: '{first}' vs. '{second}'"
  | mixedKinds => "cannot merge a string and a numeric predicate"
  | expectedPoint owner => s!"expected '.' after `{owner}`"
  | expectedEquals property => s!"expected '=' after `{property}`"
  | badNumber literal owner property =>
    s!"invalid number '{literal}' for `{owner}`.`{property}`"
  | expectedComma rest => s!"expected ',' before '{rest}'"
  | expectedQuote rest => s!"expected '`' at '{rest}'"
  | unterminatedName rest => s!"unterminated name at '{rest}'"
  | unterminatedText rest => s!"unterminated string at '{rest}'"

def Failure.message : Failure Float → String
  | sharedLabel label first second =>
    s!"Invalid label distribution: label {label} appears in groups {first} and {second}"
  | unknownLabels names => "Unknown label: " ++ ", ".intercalate names
  | unknownType name => s!"Unknown relationship type: {name}"
  | unknownProperty name => s!"Unknown property: {name}"
  | badStatistics line fault => s!"Invalid statistics at line {line}: " ++ fault.message
  | badSettings fault => "Invalid configuration: " ++ fault.message
  | unreadableFile fault => "IO error: " ++ fault.message
  | badTable fault => "CSV error: " ++ fault.message
  | badJson => "JSON error"
  | unboundVariable name => s!"Variable not bound: {name}"
  | boundVariable name => s!"Variable already bound: {name}"
  | overlappingVariables names =>
    "Variables bound both as node and relationship: " ++ ", ".intercalate names
  | sameVariable name => s!"Cannot merge variable {name} with itself"
  | emptyTypes name => s!"Relationship variable {name} has no possible types"
  | wrongArity operator expected actual =>
    s!"Operator {operator} expects {expected} inputs, got {actual}"
  | emptyPredicates name => s!"Property selection on {name} has no predicates"
  | badPattern fault => "Invalid pattern: " ++ fault.message
  | badPredicate fault => "Invalid predicate: " ++ fault.message

end PatternCardinality
