import PatternCardinality.Proofs.Number.Addition
import PatternCardinality.Proofs.Statistics.Marginal
import PatternCardinality.Statistics.View

/-!
# One-sided counts in double precision

A system that counts relationships by the label at one end overestimates those between two labels,
and knows those with a label at one end only. The counts are sums of doubles, and so are rounded: a
sum of fewer counts is still not above one of more.
-/

namespace PatternCardinality.Statistics

open Double

section Sums

variable {l l' : List Float} {x y : Float}

theorem unsigned_foldl_add (hl : ∀ c ∈ l, 0 ≤ c) (hx : Unsigned x) :
    Unsigned (l.foldl (· + ·) x) := by
  induction l generalizing x with
  | nil => exact hx
  | cons c l ih =>
    obtain ⟨hc, hl⟩ := List.forall_mem_cons.mp hl
    exact ih hl (hx.add hc)

/-- A sum of some of the summands, in their order, is not above the sum of all. -/
theorem foldl_add_le (h : l.Sublist l') (hl : ∀ c ∈ l', 0 ≤ c) (hx : Unsigned x) (hy : Unsigned y)
    (hxy : x ≤ y) : l.foldl (· + ·) x ≤ l'.foldl (· + ·) y := by
  induction h generalizing x y with
  | slnil => exact hxy
  | cons c _ ih =>
    obtain ⟨hc, hl⟩ := List.forall_mem_cons.mp hl
    exact ih hl hx (hy.add hc) (le_trans hxy (le_add hy hc))
  | cons_cons c _ ih =>
    obtain ⟨hc, hl⟩ := List.forall_mem_cons.mp hl
    exact ih hl (hx.add hc) (hy.add hc) (add_mono hx hc hy hc hxy (le_self_of_nonneg hc))

end Sums

namespace Store

/-- A key that covers more keys gets more of what is added. -/
theorem addedAt_sublist {α : Type} {k k' : RelationshipKey} (h : ∀ c, k.Covers c → k'.Covers c)
    (calls : List (Addition α)) : (addedAt k calls).Sublist (addedAt k' calls) := by
  refine (List.monotone_filter_right calls (fun c hc => ?_)).map Prod.snd
  exact decide_eq_true (h c.1 (of_decide_eq_true hc))

variable {nodeCount : Float} {calls : List (Addition Float)} (h : ∀ c ∈ calls, 0 ≤ c.2)

include h

theorem addedAt_nonneg (k : RelationshipKey) : ∀ c ∈ addedAt k calls, 0 ≤ c := by
  intro c hc
  obtain ⟨call, hcall, rfl⟩ := List.mem_map.mp hc
  exact h call (List.mem_filter.mp hcall).1

theorem unsigned_relationshipCount (b : LabelId) (t : TypeId) (w : LabelId) :
    Unsigned ((ofAdditions nodeCount calls).relationshipCount b t w) := by
  rw [relationshipCount_ofAdditions]
  exact unsigned_foldl_add (addedAt_nonneg h _) (.zero rfl)

/-- A count is not above that of a key that covers more. -/
theorem relationshipCount_le {b b' : LabelId} {t t' : TypeId} {w w' : LabelId}
    (hcovers : ∀ c, RelationshipKey.Covers ⟨b, t, w⟩ c → RelationshipKey.Covers ⟨b', t', w'⟩ c) :
    (ofAdditions nodeCount calls).relationshipCount b t w ≤
      (ofAdditions nodeCount calls).relationshipCount b' t' w' := by
  have hzero : Unsigned 0 := .zero rfl
  rw [relationshipCount_ofAdditions, relationshipCount_ofAdditions]
  exact foldl_add_le (addedAt_sublist hcovers calls) (addedAt_nonneg h _) hzero hzero
    (le_self_of_nonneg hzero.nonneg)

theorem relationshipCount_le_any_target (b : LabelId) (t : TypeId) (w : LabelId) :
    (ofAdditions nodeCount calls).relationshipCount b t w ≤
      (ofAdditions nodeCount calls).relationshipCount b t anyLabel :=
  relationshipCount_le h (fun _ hc => ⟨hc.1, hc.2.1, .inr rfl⟩)

theorem relationshipCount_le_any_base (b : LabelId) (t : TypeId) (w : LabelId) :
    (ofAdditions nodeCount calls).relationshipCount b t w ≤
      (ofAdditions nodeCount calls).relationshipCount anyLabel t w :=
  relationshipCount_le h (fun _ hc => ⟨.inr rfl, hc.2⟩)

end Store

namespace View

open Store

section Counted

variable {nodeCount : Float} {calls : List (Addition Float)} (h : ∀ c ∈ calls, 0 ≤ c.2)

include h

/-- Both kinds of counts are numbers, neither negative nor a negative zero. -/
theorem unsigned_relationshipCount (oneSided : Bool) (b : LabelId) (t : TypeId) (w : LabelId) :
    Unsigned ((View.mk (ofAdditions nodeCount calls) oneSided).relationshipCount b t w) := by
  rw [relationshipCount]
  split
  · rw [Scalar.least]
    split <;> exact Store.unsigned_relationshipCount h _ _ _
  · exact Store.unsigned_relationshipCount h _ _ _

theorem relationshipCount_le_oneSided (b : LabelId) (t : TypeId) (w : LabelId) :
    (View.mk (ofAdditions nodeCount calls) false).relationshipCount b t w ≤
      (View.mk (ofAdditions nodeCount calls) true).relationshipCount b t w := by
  have hnumber := fun b t w =>
    beq_self_of_nonneg (@Store.unsigned_relationshipCount nodeCount calls h b t w).nonneg
  exact (le_least_iff (hnumber _ _ _) (hnumber _ _ _)).mpr
    ⟨Store.relationshipCount_le_any_base h b t w,
      Store.relationshipCount_le_any_target h b t w⟩

/-- With a wildcard at one end, one of the two one-sided counts is the count itself. -/
theorem relationshipCount_eq_oneSided {b : LabelId} {t : TypeId} {w : LabelId}
    (hany : b = anyLabel ∨ w = anyLabel) :
    (View.mk (ofAdditions nodeCount calls) true).relationshipCount b t w =
      (View.mk (ofAdditions nodeCount calls) false).relationshipCount b t w := by
  have hunsigned := @Store.unsigned_relationshipCount nodeCount calls h
  rcases hany with rfl | rfl
  · exact least_eq_left (hunsigned _ _ _) (hunsigned _ _ _)
      (Store.relationshipCount_le_any_target h anyLabel t w)
  · exact least_eq_right (hunsigned _ _ _) (Store.relationshipCount_le_any_base h b t anyLabel)

/-- One-sided counts are not below the exact ones in any direction, and are the exact ones where a
label is a wildcard. -/
theorem relationships_le_oneSided (b : LabelId) (t : TypeId) (w : LabelId)
    (direction : Direction) :
    (View.mk (ofAdditions nodeCount calls) false).relationships b t w direction ≤
        (View.mk (ofAdditions nodeCount calls) true).relationships b t w direction ∧
      (b = anyLabel ∨ w = anyLabel →
        (View.mk (ofAdditions nodeCount calls) true).relationships b t w direction =
          (View.mk (ofAdditions nodeCount calls) false).relationships b t w direction) := by
  have hunsigned := @unsigned_relationshipCount nodeCount calls h
  have hle := @relationshipCount_le_oneSided nodeCount calls h
  have heq := @relationshipCount_eq_oneSided nodeCount calls h
  cases direction with
  | outgoing => exact ⟨hle b t w, fun hany => heq hany⟩
  | incoming => exact ⟨hle w t b, fun hany => heq hany.symm⟩
  | both =>
    refine ⟨?_, fun hany => congrArg₂ (· + ·) (heq hany) (heq hany.symm)⟩
    exact add_mono (hunsigned _ _ _ _) (hunsigned _ _ _ _).nonneg (hunsigned _ _ _ _)
      (hunsigned _ _ _ _).nonneg (hle b t w) (hle w t b)

end Counted

/-- Where both labels have further relationships, the one-sided count is the larger one. -/
theorem relationships_lt_oneSided_of_two_labels :
    let s := ofAdditions (20 : Float) [(⟨1, 0, 2⟩, 3), (⟨1, 0, 4⟩, 4), (⟨5, 0, 2⟩, 2)]
    (View.mk s false).relationships 1 0 2 .both ≤ (View.mk s true).relationships 1 0 2 .both ∧
      (View.mk s false).relationships 1 0 2 .both = 3 ∧
      (View.mk s true).relationships 1 0 2 .both = 5 ∧
      (View.mk s true).relationships 1 0 anyLabel .outgoing =
        (View.mk s false).relationships 1 0 anyLabel .outgoing := by
  intro s
  have hcounts : ∀ c ∈ ([(⟨1, 0, 2⟩, 3), (⟨1, 0, 4⟩, 4), (⟨5, 0, 2⟩, 2)] : List (Addition Float)),
      0 ≤ c.2 := by
    decide +kernel
  exact ⟨(relationships_le_oneSided hcounts 1 0 2 .both).1, by decide +kernel, by decide +kernel,
    (relationships_le_oneSided hcounts 1 0 anyLabel .outgoing).2 (.inr rfl)⟩

end View

end PatternCardinality.Statistics
