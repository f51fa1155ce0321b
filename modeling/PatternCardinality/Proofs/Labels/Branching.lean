import PatternCardinality.Proofs.Labels.Closure
import PatternCardinality.Proofs.Labels.Distribution

/-!
# Labels above and below each other

To be a label or below it is a preorder on labels. Labels among which it does not branch, neither
upwards nor downwards, fall into chains.
-/

namespace PatternCardinality.Labels.Distribution

/-- Every node with the first label carries the second one too. -/
def Under (d : Distribution) (l m : LabelId) : Prop := l = m ∨ d.isBelow l m = true

instance (d : Distribution) (l m : LabelId) : Decidable (d.Under l m) :=
  inferInstanceAs (Decidable (_ ∨ _))

def Comparable (d : Distribution) (l m : LabelId) : Prop := d.Under l m ∨ d.Under m l

instance (d : Distribution) (l m : LabelId) : Decidable (d.Comparable l m) :=
  inferInstanceAs (Decidable (_ ∨ _))

/-- Labels that are comparable with one are comparable with each other. -/
def Unbranched (d : Distribution) (ls : List LabelId) : Prop :=
  ∀ l ∈ ls, ∀ m ∈ ls, ∀ k ∈ ls, d.Comparable l m → d.Comparable m k → d.Comparable l k

instance (d : Distribution) (ls : List LabelId) : Decidable (d.Unbranched ls) :=
  decidable_of_iff (ls.all (fun l => ls.all (fun m => ls.all (fun k =>
    decide (d.Comparable l m → d.Comparable m k → d.Comparable l k)))) = true)
    (by simp only [List.all_eq_true, decide_eq_true_iff]; rfl)

/-- Groups are apart, sub-labels stay in the group of their label, and their relation is closed. -/
structure Hierarchical (d : Distribution) : Prop where
  apart : d.Apart
  inside : ∀ sub l, d.isBelow sub l = true → ∃ g ∈ d.groups, sub ∈ g ∧ l ∈ g
  trans : ∀ {l m k}, d.Under l m → d.Under m k → d.Under l k

variable {d : Distribution} {l m k : LabelId}

@[refl] theorem under_refl (d : Distribution) (l : LabelId) : d.Under l l := Or.inl rfl

theorem comparable_refl (d : Distribution) (l : LabelId) : d.Comparable l l := Or.inl (Or.inl rfl)

@[symm] theorem Comparable.symm (h : d.Comparable l m) : d.Comparable m l := Or.symm h

theorem isBelow_of_ofGroups {α : Type} {groups : List (OrderedSet LabelId)} {direct : SubLabels}
    (h : (ofGroups groups direct : Except (Failure α) _) = .ok d) :
    d.isBelow l m = true ↔ m ≠ l ∧ Relation.TransGen direct.Direct m l := by
  rw [isBelow, decide_eq_true_iff, below, subLabels_of_ofGroups h, SubLabels.mem_closure_iff]

/-- The relation of a distribution that was made is closed. -/
theorem hierarchical_of_ofGroups {α : Type} {groups : List (OrderedSet LabelId)}
    {direct : SubLabels} (h : (ofGroups groups direct : Except (Failure α) _) = .ok d)
    (hinside : ∀ sub l, d.isBelow sub l = true → ∃ g ∈ d.groups, sub ∈ g ∧ l ∈ g) :
    d.Hierarchical where
  apart := apart_ofGroups h
  inside := hinside
  trans := by
    intro l m k hlm hmk
    rcases hlm with rfl | hlm
    · exact hmk
    · rcases hmk with rfl | hmk
      · exact Or.inr hlm
      · refine or_iff_not_imp_left.mpr (fun hne => ?_)
        exact (isBelow_of_ofGroups h).mpr ⟨fun heq => hne heq.symm,
          ((isBelow_of_ofGroups h).mp hmk).2.trans ((isBelow_of_ofGroups h).mp hlm).2⟩

/-- Where no label is below another, groups have to be apart only. -/
theorem Apart.hierarchical (h : d.Apart) (hnone : ∀ sub l, d.isBelow sub l = false) :
    d.Hierarchical := by
  have hunder : ∀ {l m}, d.Under l m → l = m :=
    fun hlm => hlm.resolve_right (Bool.eq_false_iff.mp (hnone _ _))
  refine ⟨h, fun sub l hbelow => ?_, fun hlm hmk => ?_⟩
  · rw [hnone] at hbelow
    cases hbelow
  · rw [hunder hlm]
    exact hmk

/-- Distributions are made of groups and direct sub-labels, or of labels that are all in one group
or each in its own. -/
inductive Made : Distribution → Prop
  | ofGroups {α : Type} {groups : List (OrderedSet LabelId)} {direct : SubLabels} {d : Distribution}
      (made : (ofGroups groups direct : Except (Failure α) _) = .ok d) : Made d
  | single (labels : List LabelId) : Made (single labels)
  | disjoint (labels : List LabelId) : Made (disjoint labels)

theorem Made.hierarchical (h : d.Made)
    (hinside : ∀ sub l, d.isBelow sub l = true → ∃ g ∈ d.groups, sub ∈ g ∧ l ∈ g) :
    d.Hierarchical := by
  cases h with
  | ofGroups made => exact hierarchical_of_ofGroups made hinside
  | single labels =>
    exact (apart_single labels).hierarchical (fun _ _ => decide_eq_false List.not_mem_nil)
  | disjoint labels => exact (apart_disjoint labels).hierarchical (isBelow_disjoint labels)

namespace Hierarchical

variable (h : d.Hierarchical)

include h

theorem groupOf?_eq (hlm : d.Under l m) : d.groupOf? l = d.groupOf? m := by
  rcases hlm with rfl | hlm
  · rfl
  · obtain ⟨g, hg, hl, hm⟩ := h.inside l m hlm
    exact (h.apart.mem_iff hg hl).mp hm

/-- Where the labels branch, one label is above two that are not comparable, or below two such. -/
theorem exists_of_not_unbranched {ls : List LabelId} (hls : ¬d.Unbranched ls) :
    ∃ x ∈ ls, ∃ y ∈ ls, ∃ z ∈ ls, ¬d.Comparable x z ∧
      ((d.Under x y ∧ d.Under z y) ∨ (d.Under y x ∧ d.Under y z)) := by
  simp only [Unbranched, not_forall] at hls
  obtain ⟨x, hx, y, hy, z, hz, hxy, hyz, hxz⟩ := hls
  refine ⟨x, hx, y, hy, z, hz, hxz, ?_⟩
  rcases hxy with hxy | hyx
  · rcases hyz with hyz | hzy
    · exact absurd (Or.inl (h.trans hxy hyz)) hxz
    · exact Or.inl ⟨hxy, hzy⟩
  · rcases hyz with hyz | hzy
    · exact Or.inr ⟨hyx, hyz⟩
    · exact absurd (Or.inr (h.trans hzy hyx)) hxz

end Hierarchical

end PatternCardinality.Labels.Distribution
