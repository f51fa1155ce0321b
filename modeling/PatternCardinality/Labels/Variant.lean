import PatternCardinality.Failure

/-! Which parts of a label distribution are used. -/

namespace PatternCardinality.Labels

inductive Variant where
  | all
  | onlySubLabels
  | onlyPartition
  | none
  deriving DecidableEq

namespace Variant

def usesSubLabels : Variant → Bool
  | all | onlySubLabels => true
  | _ => false

def usesPartition : Variant → Bool
  | all | onlyPartition => true
  | _ => false

def name : Variant → String
  | all => "all"
  | onlySubLabels => "only_sublabels"
  | onlyPartition => "only_partition"
  | none => "none"

def ofName? (s : String) : Option Variant :=
  [all, onlySubLabels, onlyPartition, none].find? (·.name = s)

end Variant

/-- A name as it is compared: in small letters and with underscores for hyphens. -/
def plainName (s : String) : String :=
  String.ofList (s.toList.map (fun c => if c = '-' then '_' else c.toLower))

def Variant.parse {α : Type} (s : String) : Except (Failure α) Variant :=
  match Variant.ofName? (plainName s) with
  | some v => .ok v
  | Option.none => .error (.badSettings (.unknownVariant (plainName s)))

end PatternCardinality.Labels
