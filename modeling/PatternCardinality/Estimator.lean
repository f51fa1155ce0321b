import PatternCardinality.Labels.Files
import PatternCardinality.Plan.Query
import PatternCardinality.Query.Part
import PatternCardinality.Settings
import PatternCardinality.Statistics.Reader

/-! Estimating how many matches queries have in a graph of which only statistics are known. -/

namespace PatternCardinality

open Estimate Labels Plan Statistics

structure Estimator (α : Type) where
  settings : Settings α
  database : Database α

/-- The text of a file that has to be there. -/
def Files.text {α : Type} (files : Files) (path : String) : Except (Failure α) String :=
  (files path).mapError Failure.unreadableFile

namespace Estimator

section

variable {α : Type} [Scalar α]

/-- Without a distribution all labels are in one group. -/
def make (store : Store α) (distribution : Option Distribution) (settings : Settings α) :
    Except (Failure α) (Estimator α) := do
  settings.validate
  return ⟨settings, ⟨⟨store, settings.oneSided⟩,
    distribution.getD (Distribution.single store.labelSet.toList)⟩⟩

def planner (e : Estimator α) : Planner α :=
  ⟨e.database.view.store, e.settings.strategy, e.settings.fixed⟩

variable [NumberHash α]

def plan (e : Estimator α) (q : Query α) : Except (Failure α) (Expression α) :=
  planQuery e.planner e.database q

/-- The estimated number of matches of a query. -/
def estimate (e : Estimator α) (q : Query α) : Except (Failure α) α := do
  return (← e.plan q).size

def estimatePattern (e : Estimator α) (p : Pattern) : Except (Failure α) α :=
  e.estimate (Query.ofPattern p)

/-- The connected parts with `k` node variables and their estimates. -/
def estimateParts (e : Estimator α) (q : Query α) (k : Nat) :
    Except (Failure α) (List (Query α × α)) :=
  (q.parts k).mapM fun part => do return (part, ← e.estimate part)

end

/-- Reads statistics from a file and a distribution of labels from a directory. -/
def ofFiles (files : Files) (statistics : String) (labels : Option String)
    (settings : Settings Float) : Except (Failure Float) (Estimator Float) := do
  let store ← Statistics.read (← files.text statistics)
  let distribution ← labels.mapM (fun directory => load files directory settings.variant store)
  make store distribution settings

end Estimator

end PatternCardinality
