import PatternCardinality.CommandLine.Command
import PatternCardinality.Estimator
import PatternCardinality.Query.Condition
import PatternCardinality.Report.Summary

/-! What commands print, given the files that they read. -/

namespace PatternCardinality.CommandLine

open Estimate Labels Plan Report Statistics

/-- Why a command prints no result. -/
inductive Trouble where
  | failure (f : Failure Float)
  | unreadableQueries (fault : FileFault)
  | badQueries
  | statistics (verb path : String) (f : Failure Float)

namespace Trouble

def message : Trouble → String
  | failure f => f.message
  | unreadableQueries fault => fault.message
  | badQueries => "Bad query file"
  | statistics verb path f => s!"Failed to {verb} statistics from {path}: " ++ f.message

end Trouble

def versionText : String := "0.0.1"

/-- The settings of the file, if one is given, with those of the command line put over them. -/
def settings (files : Files) (s : Sources) : Except (Failure Float) (Settings Float) := do
  let base ← match s.settings with
    | none => .ok Settings.standard
    | some path => Settings.read (← files.text path)
  let variant ← match s.variant with
    | none => .ok base.variant
    | some name => Variant.parse name
  let strategy ← match s.strategy with
    | none => .ok base.strategy
    | some name => JoinStrategy.parse name
  let merged : Settings Float :=
    ⟨strategy, s.fixed.or base.fixed, s.oneSided || base.oneSided, variant⟩
  merged.validate
  return merged

def estimator (files : Files) (s : Sources) : Except Trouble (Estimator Float) := do
  let settings ← (settings files s).mapError .failure
  (Estimator.ofFiles files s.statistics s.labels settings).mapError
    (.statistics "load" s.statistics)

def readQueries (files : Files) : Queries → Except Trouble (List (Query Float))
  | .pattern pattern conditions => do
    return [← (Query.parse pattern conditions).mapError .failure]
  | .file path => do
    let s ← (files path).mapError .unreadableQueries
    match Query.readAll? s with
    | some queries => return queries
    | none => throw .badQueries

def estimated (e : Estimator Float) (explain : Bool) (q : Query Float) :
    Except (Failure Float) Estimated := do
  let plan ← e.plan q
  return ⟨q, plan.size, if explain then some plan else none⟩

def runEstimate (files : Files) (queries : Queries) (explain : Bool) (format : Format)
    (sources : Sources) : Except Trouble String := do
  let queries ← readQueries files queries
  let e ← estimator files sources
  let estimates ← (queries.mapM (estimated e explain)).mapError .failure
  return Estimated.report format estimates

/-- Estimates of the connected parts of a pattern. -/
def runParts (files : Files) (pattern : String) (conditions : Option String) (size : Nat)
    (format : Format) (sources : Sources) : Except Trouble String := do
  let q ← (Query.parse pattern conditions).mapError .failure
  let e ← estimator files sources
  let estimates ← (e.estimateParts q size).mapError .failure
  if estimates.isEmpty ∧ format = .table then
    return s!"No connected sub-pattern with {size} node variables"
  else return Estimated.report format (estimates.map (fun part => ⟨part.1, part.2, none⟩))

def runSummary (files : Files) (path : String) (format : Format) : Except Trouble String := do
  let read : Except (Failure Float) (Store Float) := do Statistics.read (← files.text path)
  let store ← read.mapError (.statistics "read" path)
  return Summary.report format store.summary

/-- What a command prints, without the line end behind it. -/
def run (files : Files) : Command → Except Trouble String
  | .estimate queries explain format sources => runEstimate files queries explain format sources
  | .parts pattern conditions size format sources =>
    runParts files pattern conditions size format sources
  | .summary statistics format => runSummary files statistics format
  | .version => .ok versionText

end PatternCardinality.CommandLine
