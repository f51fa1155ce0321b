import PatternCardinality.Report.Estimates
import PatternCardinality.Statistics.Store

/-! The size of statistics as a table, or as JSON. -/

namespace PatternCardinality.Report

open Statistics

namespace Summary

def grid (s : Summary Float) : Grid where
  header := ["Statistic", "Value"]
  rows := [
    ["Nodes", amount s.nodes],
    ["Labels", toString s.labels],
    ["Relationship types", toString s.types],
    ["Properties", toString s.properties],
    ["Label/type entries", toString s.relationshipEntries],
    ["  with wildcards", toString s.wildcardEntries],
    ["Numeric property entries", toString s.numericProperties],
    ["String property entries", toString s.textProperties]]

def toJson (s : Summary Float) : Json :=
  .object [("num_nodes", .float s.nodes), ("num_labels", .int s.labels),
    ("num_types", .int s.types), ("num_properties", .int s.properties),
    ("relationship_entries", .int s.relationshipEntries),
    ("wildcard_relationship_entries", .int s.wildcardEntries),
    ("numeric_property_entries", .int s.numericProperties),
    ("string_property_entries", .int s.textProperties)]

def report (format : Format) (s : Summary Float) : String :=
  match format with
  | .table => "Statistics\n" ++ (grid s).text ++ "\n"
  | .json => (toJson s).pretty

end Summary

end PatternCardinality.Report
