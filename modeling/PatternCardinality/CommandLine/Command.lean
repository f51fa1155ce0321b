import PatternCardinality.CommandLine.Switch
import PatternCardinality.Decimal.Literal
import PatternCardinality.Labels.Files
import PatternCardinality.Report.Estimates
import PatternCardinality.Text.Integer

/-! The commands that can be given. -/

namespace PatternCardinality.CommandLine

open Report

/-- Where estimates come from, and the settings that are given beside those of a file. -/
structure Sources where
  statistics : String
  labels : Option String
  settings : Option String
  variant : Option String
  strategy : Option String
  fixed : Option Float
  oneSided : Bool

def Sources.paths (s : Sources) : List String :=
  s.statistics :: s.settings.toList ++
    s.labels.toList.flatMap (fun d => [pathIn d Labels.subLabelFile, pathIn d Labels.partitionFile])

inductive Queries where
  | pattern (pattern : String) (conditions : Option String)
  | file (path : String)

inductive Command where
  | estimate (queries : Queries) (explain : Bool) (format : Format) (sources : Sources)
  | parts (pattern : String) (conditions : Option String) (size : Nat) (format : Format)
      (sources : Sources)
  | summary (statistics : String) (format : Format)
  | version

def levels : List String := ["error", "warn", "info", "debug", "trace"]

def isLevel (s : String) : Bool := decide (String.ofList (s.toList.map Char.toLower) ∈ levels)

def isPath (s : String) : Bool := s != ""

def format? (s : String) : Option Format :=
  if s = "table" then some .table else if s = "json" then some .json else none

def size? (s : String) : Option Nat := Text.unsigned? 10 (Nat.pow 2 64 - 1) s.toList

def number? (s : String) : Option Float := Decimal.number? s.toList

def flag (name : String) : Switch := ⟨name, none, .flag⟩

def valued (name : String) (accepts : String → Bool) : Switch := ⟨name, none, .value accepts⟩

/-- Switches of every command. How much is logged has no influence on results. -/
def sharedSwitches : List Switch :=
  [⟨"verbose", some 'v', .flag⟩, valued "log-level" isLevel, ⟨"help", some 'h', .refuse .help⟩]

def programSwitches : List Switch := ⟨"version", some 'V', .refuse .version⟩ :: sharedSwitches

def formatSwitch : Switch := valued "format" (fun s => (format? s).isSome)

def conditionsSwitch : Switch := valued "props" (fun _ => true)

def statisticsSwitch : Switch := valued "stats" isPath

def sourceSwitches : List Switch :=
  [statisticsSwitch, valued "labels" isPath, valued "config" isPath,
    valued "label-variant" (fun _ => true), valued "join" (fun _ => true),
    valued "static-selectivity" (fun s => (number? s).isSome), flag "simulate-neo4j"]

def estimateSwitches : List Switch :=
  [conditionsSwitch, valued "query-file" isPath, flag "explain", formatSwitch] ++ sourceSwitches ++
    sharedSwitches

def partsSwitches : List Switch :=
  [conditionsSwitch, ⟨"size", some 'k', .value (fun s => (size? s).isSome)⟩, formatSwitch] ++
    sourceSwitches ++ sharedSwitches

def summarySwitches : List Switch := [statisticsSwitch, formatSwitch] ++ sharedSwitches

namespace Given

def format (g : Given) : Format := ((g.value? "format").bind format?).getD .table

def required (o : Option String) : Except Refusal String :=
  match o with
  | some s => .ok s
  | none => .error .misuse

def sources (g : Given) : Except Refusal Sources := do
  return {
    statistics := ← required (g.value? "stats")
    labels := g.value? "labels"
    settings := g.value? "config"
    variant := g.value? "label-variant"
    strategy := g.value? "join"
    fixed := (g.value? "static-selectivity").bind number?
    oneSided := g.has "simulate-neo4j" }

/-- A pattern or a file, but not both. -/
def queries (g : Given) : Except Refusal Queries :=
  match g.words.head?, g.value? "query-file" with
  | some pattern, none => .ok (.pattern pattern (g.value? "props"))
  | none, some path => .ok (.file path)
  | _, _ => .error .misuse

end Given

namespace Command

/-- Reads all words that are left. -/
def allWords (switches : List Switch) (limit : Nat) (words : List String) :
    Except Refusal Given := do
  match ← readWords switches limit Given.empty none words with
  | (g, []) => return g
  | (_, _ :: _) => throw .misuse

def estimateOf (words : List String) : Except Refusal Command := do
  let g ← allWords estimateSwitches 1 words
  return .estimate (← g.queries) (g.has "explain") g.format (← g.sources)

def partsOf (words : List String) : Except Refusal Command := do
  let g ← allWords partsSwitches 1 words
  let pattern ← Given.required g.words.head?
  let size := ((g.value? "size").bind size?).getD 2
  return .parts pattern (g.value? "props") size g.format (← g.sources)

def summaryOf (words : List String) : Except Refusal Command := do
  let g ← allWords summarySwitches 0 words
  return .summary (← Given.required (g.value? "stats")) g.format

def versionOf (words : List String) : Except Refusal Command := do
  let _ ← allWords sharedSwitches 0 words
  return .version

/-- The command with a name and the words behind it. -/
def named (name : String) (words : List String) : Except Refusal Command :=
  if name = "estimate" then estimateOf words
  else if name = "subqueries" then partsOf words
  else if name = "stats" then summaryOf words
  else if name = "version" then versionOf words
  else .error .misuse

/-- The command that words stand for; switches may come before its name too. -/
def ofWords (words : List String) : Except Refusal Command := do
  match ← readWords programSwitches 0 Given.empty none words with
  | (_, []) => throw .misuse
  | (g, name :: rest) =>
    let command ← named name rest
    let _ ← g.checked
    return command

/-- The files that a command may read. -/
def paths : Command → List String
  | estimate (.file path) _ _ sources => path :: sources.paths
  | estimate (.pattern ..) _ _ sources => sources.paths
  | parts _ _ _ _ sources => sources.paths
  | summary statistics _ => [statistics]
  | version => []

end Command

end PatternCardinality.CommandLine
