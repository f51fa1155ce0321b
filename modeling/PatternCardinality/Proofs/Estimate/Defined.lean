import PatternCardinality.Proofs.Estimate.Indexed
import PatternCardinality.Proofs.Estimate.JoinExtension
import PatternCardinality.Proofs.Estimate.SelectionExtension
import PatternCardinality.Proofs.Number.Partial
import PatternCardinality.Proofs.Statistics.Indexed

/-!
# No quotient by zero, no index out of range

Whatever the counts of a database are, an operator makes no quotient by zero: it computes alike in
all numbers that extend the exact ones, where such a quotient may be anything. The quantiles of a
histogram and the groups of a partition are all that is read by index, always within range.
-/

namespace PatternCardinality.Estimate

open Labels Statistics

namespace Operator

/-- The same operator with other numbers. -/
def map {α β : Type} (f : α → β) : Operator α → Operator β
  | scan v => .scan v
  | expand base direction relationship types target =>
    .expand base direction relationship types target
  | selectLabel v label => .selectLabel v label
  | selectProperties v predicates fixed => .selectProperties v (predicates.map f) (fixed.map f)
  | selectTypes v types => .selectTypes v types
  | join => .join
  | mergeOn staying leaving => .mergeOn staying leaving
  | selfJoin staying leaving => .selfJoin staying leaving

section

variable {α β : Type} (f : α → β) (op : Operator α)

theorem name_map : (op.map f).name = op.name := by
  cases op <;> rfl

theorem arity_map : (op.map f).arity = op.arity := by
  cases op <;> rfl

end

theorem compute_eq_wrongArity {α : Type} [Scalar α] [NumberHash α] {db : Database α}
    {op : Operator α} {inputs : List (Profile α)} (h : inputs.length ≠ op.arity) :
    op.compute db inputs = .error (.wrongArity op.name op.arity inputs.length) := by
  unfold compute
  split <;> first | rfl | exact absurd rfl h

section

variable {α : Type} [Scalar α] [NumberHash α] [NumberHash ℚ] (ι : Extension α)
  (hhash : ∀ b : Bound ℚ, NumberHash.hash (b.map ι.of) = NumberHash.hash b)

include hhash

theorem compute_map (db : Database ℚ) (op : Operator ℚ) (inputs : List (Profile ℚ)) :
    (op.map ι.of).compute (db.map ι.of) (inputs.map (Profile.map ι.of)) =
      Profile.carry ι.of (op.compute db inputs) := by
  have hlength : (inputs.map (Profile.map ι.of)).length = inputs.length := List.length_map ..
  by_cases harity : inputs.length = op.arity
  · cases op with
    | scan v =>
      obtain rfl := List.length_eq_zero_iff.mp harity
      exact scan_map ι db v
    | expand base direction relationship types target =>
      obtain ⟨p, rfl⟩ := List.length_eq_one_iff.mp harity
      exact expand_map ι db base direction relationship types target p
    | selectLabel v label =>
      obtain ⟨p, rfl⟩ := List.length_eq_one_iff.mp harity
      exact selectLabel_map ι db v p label
    | selectProperties v predicates fixed =>
      obtain ⟨p, rfl⟩ := List.length_eq_one_iff.mp harity
      exact selectProperties_map ι hhash db v predicates fixed p
    | selectTypes v types =>
      obtain ⟨p, rfl⟩ := List.length_eq_one_iff.mp harity
      exact selectTypes_map ι db v p types
    | join =>
      obtain ⟨left, right, rfl⟩ := List.length_eq_two.mp harity
      exact join_map ι db left right
    | mergeOn staying leaving =>
      obtain ⟨p, rfl⟩ := List.length_eq_one_iff.mp harity
      exact mergeOn_map ι db staying leaving p
    | selfJoin staying leaving =>
      obtain ⟨p, rfl⟩ := List.length_eq_one_iff.mp harity
      exact selfJoin_map ι db staying leaving p
  · have harity' : (inputs.map (Profile.map ι.of)).length ≠ (op.map ι.of).arity := by
      rwa [hlength, arity_map]
    rw [compute_eq_wrongArity harity, compute_eq_wrongArity harity', hlength, name_map, arity_map]
    rfl

/-- No operator divides by zero or reads beyond the end of an array, whatever the database and the
results it is given say: it computes alike where a quotient by zero is anything at all, and each
read that histograms and partitions make by index finds its place. -/
theorem compute_defined (db : Database ℚ) (op : Operator ℚ) (inputs : List (Profile ℚ)) :
    (op.map ι.of).compute (db.map ι.of) (inputs.map (Profile.map ι.of)) =
        Profile.carry ι.of (op.compute db inputs) ∧
      (∀ (quantiles : List ℚ) (low high : Bound ℚ),
        Histogram.share? quantiles low high = some (Histogram.share quantiles low high)) ∧
      ∀ staying leaving : LabelShares ℚ,
        Partition.factor? db staying leaving = some (Partition.factor db staying leaving) :=
  ⟨compute_map ι hhash db op inputs, fun _ => Histogram.share?_eq, Partition.factor?_eq⟩

end

/-- No nodes in all, but three with the first of two labels and fewer than none with the second. -/
def vacant : Database ℚ :=
  ⟨⟨Store.build 0 [.label "Ghost" 1 3, .label "Void" 2 (-1)], false⟩,
    Distribution.disjoint [1, 2]⟩

/-- Two node variables, each with one of the labels on half its matches. -/
def haunted : Profile ℚ :=
  ⟨OrderedMap.ofList [("a", OrderedMap.ofList [(1, 1 / 2), (2, 1)]),
    ("b", OrderedMap.ofList [(1, 1), (2, 1 / 2)])], ∅, 6, false⟩

theorem compute_defined_vacant : ∃ (_ : NumberHash ℚ) (_ : NumberHash Partial) (p : Profile ℚ),
    vacant.total = 0 ∧ vacant.nodes 2 < 0 ∧
      ((selfJoin "a" "b").map Partial.exact.of).compute (vacant.map Partial.exact.of)
        [haunted.map Partial.exact.of] = .ok (p.map Partial.exact.of) := by
  let hash : NumberHash ℚ := ⟨fun _ => 0⟩
  let hash' : NumberHash Partial := ⟨fun _ => 0⟩
  have hresult : ((selfJoin "a" "b").compute vacant [haunted]).toOption.isSome = true := by
    decide +kernel
  obtain ⟨p, hp⟩ := Option.isSome_iff_exists.mp hresult
  refine ⟨hash, hash', p, by decide +kernel, by decide +kernel, ?_⟩
  have hcompute := (compute_defined Partial.exact (fun _ => rfl) vacant (selfJoin "a" "b")
    [haunted]).1
  rw [Outcome.toOption_eq_some.mp hp] at hcompute
  exact hcompute

end Operator

end PatternCardinality.Estimate
