import PatternCardinality.Main
import PatternCardinality.Proofs.Estimate.Absorbed
import PatternCardinality.Proofs.Estimate.Commuted
import PatternCardinality.Proofs.Estimate.Defined
import PatternCardinality.Proofs.Estimate.Exchanged
import PatternCardinality.Proofs.Estimate.Exclusive
import PatternCardinality.Proofs.Estimate.GroupSizes
import PatternCardinality.Proofs.Estimate.Independent
import PatternCardinality.Proofs.Estimate.Listing
import PatternCardinality.Proofs.Estimate.Partitioned
import PatternCardinality.Proofs.Estimate.Recounted
import PatternCardinality.Proofs.Estimate.Retyped
import PatternCardinality.Proofs.Estimate.Sound
import PatternCardinality.Proofs.Estimate.Stricter
import PatternCardinality.Proofs.Estimate.Weighted
import PatternCardinality.Proofs.Labels.Closure
import PatternCardinality.Proofs.Labels.Unknown
import PatternCardinality.Proofs.Pattern.Fidelity
import PatternCardinality.Proofs.Pattern.Naming
import PatternCardinality.Proofs.Pattern.Printing
import PatternCardinality.Proofs.Plan.Edge
import PatternCardinality.Proofs.Plan.Invariance
import PatternCardinality.Proofs.Plan.Inventory
import PatternCardinality.Proofs.Plan.Order
import PatternCardinality.Proofs.Plan.Strategies
import PatternCardinality.Proofs.Query.InPlace
import PatternCardinality.Proofs.Query.Meet
import PatternCardinality.Proofs.Query.Rendered
import PatternCardinality.Proofs.Query.Stored
import PatternCardinality.Proofs.Query.Whole
import PatternCardinality.Proofs.Statistics.NonNegative
import PatternCardinality.Proofs.Statistics.OneSided
import PatternCardinality.Proofs.Statistics.Reading
import PatternCardinality.Proofs.Statistics.Registered
import PatternCardinality.Proofs.Statistics.Sparse
import PatternCardinality.Proofs.Statistics.Truncated
