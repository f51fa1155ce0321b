import Mathlib.Algebra.Group.Action.Defs
import Mathlib.Algebra.Order.BigOperators.Group.Finset
import Mathlib.Logic.Relation
import PatternCardinality.Labels.Distribution
import PatternCardinality.Proofs.Ordered.Map

/-!
# The closed sub-label relation

A pass lets every label absorb the sub-labels of its sub-labels, in some order, each seeing what
those before it have become. A label loses no sub-label but itself, and gains only what direct
sub-labels lead to. So passes come to an end in whatever orders they are made, and where a pass
changes nothing a label has below it exactly the other labels that direct sub-labels lead to.
-/

namespace PatternCardinality.Labels

namespace SubLabels

variable {m m' : SubLabels} {a b l : LabelId} {order : List LabelId}

/-- A label is listed as a sub-label of another. -/
def Direct (m : SubLabels) (a b : LabelId) : Prop := b ∈ m.of a

section Absorb

theorem of_eq_empty (h : ¬m.contains a = true) : m.of a = ∅ := by
  rw [OrderedMap.contains, Bool.not_eq_true, Option.isSome_eq_false_iff, Option.isNone_iff_eq_none]
    at h
  rw [of, OrderedMap.getD, h, Option.getD_none]

theorem get?_eq_of (h : m.contains a = true) : m.get? a = some (m.of a) := by
  obtain ⟨subs, hsubs⟩ := OrderedMap.contains_iff.mp h
  rw [of, OrderedMap.getD, hsubs, Option.getD_some]

/-- Relations are equal that have entries for the same labels and the same sub-labels. -/
theorem ext_of (hkeys : ∀ a, m.contains a = true ↔ m'.contains a = true)
    (hof : ∀ a, m.of a = m'.of a) : m = m' := by
  refine OrderedMap.ext (fun a => ?_)
  by_cases ha : m.contains a = true
  · rw [get?_eq_of ha, get?_eq_of ((hkeys a).mp ha), hof]
  · have ha' : ¬m'.contains a = true := fun h => ha ((hkeys a).mpr h)
    simp only [OrderedMap.contains, Bool.not_eq_true, Option.isSome_eq_false_iff,
      Option.isNone_iff_eq_none] at ha ha'
    rw [ha, ha']

theorem mem_extended :
    b ∈ m.extended a ↔ b ≠ a ∧ (b ∈ m.of a ∨ ∃ c ∈ m.of a, b ∈ m.of c) := by
  rw [extended, OrderedSet.mem_erase, OrderedSet.mem_foldl_union, and_comm]
  rfl

theorem of_absorb (m : SubLabels) (l a : LabelId) :
    (m.absorb l).of a = if a = l then m.extended l else m.of a := by
  rw [absorb, of, OrderedMap.getD, OrderedMap.get?_insert]
  split <;> rfl

theorem contains_absorb (h : m.contains l = true) :
    (m.absorb l).contains a = true ↔ m.contains a = true := by
  rw [absorb, OrderedMap.contains_insert]
  exact or_iff_right_of_imp (fun ha => ha ▸ h)

end Absorb

/-- What absorbing keeps: labels with an entry stay those, no label loses a sub-label but itself,
and what it gains is below it already. -/
structure Extends (m m' : SubLabels) : Prop where
  owners : ∀ a, m'.contains a = true ↔ m.contains a = true
  kept : ∀ a b, a ≠ b → b ∈ m.of a → b ∈ m'.of a
  gained : ∀ a b, b ∈ m'.of a → Relation.TransGen m.Direct a b

namespace Extends

theorem refl (m : SubLabels) : Extends m m :=
  ⟨fun _ => Iff.rfl, fun _ _ _ hb => hb, fun _ _ hb => Relation.TransGen.single hb⟩

theorem trans {m'' : SubLabels} (h : Extends m m') (h' : Extends m' m'') : Extends m m'' where
  owners a := (h'.owners a).trans (h.owners a)
  kept a b hab hb := h'.kept a b hab (h.kept a b hab hb)
  gained a b hb := Relation.TransGen.closed h.gained a b (h'.gained a b hb)

theorem absorb (hl : m.contains l = true) : Extends m (m.absorb l) where
  owners _ := contains_absorb hl
  kept a b hab hb := by
    rw [of_absorb]
    split
    · next hal => exact mem_extended.mpr ⟨fun h => hab (hal.trans h.symm), Or.inl (hal ▸ hb)⟩
    · exact hb
  gained a b hb := by
    rw [of_absorb] at hb
    split at hb
    · next hal =>
      subst hal
      rcases (mem_extended.mp hb).2 with hb | ⟨c, hc, hb⟩
      · exact .single hb
      · exact .tail (.single hc) hb
    · exact .single hb

theorem pass (horder : ∀ l ∈ order, m.contains l = true) : Extends m (pass order m) := by
  induction order generalizing m with
  | nil => exact refl m
  | cons l order ih =>
    have hl := absorb (horder l List.mem_cons_self)
    refine hl.trans (ih (fun k hk => ?_))
    exact (hl.owners k).mpr (horder k (List.mem_cons_of_mem _ hk))

end Extends

section Pass

/-- A pass in some order over the labels with an entry. -/
def Passes (m next : SubLabels) : Prop := ∃ order, order.Perm m.keys ∧ next = pass order m

theorem of_pass_of_notMem (h : a ∉ order) : (pass order m).of a = m.of a := by
  induction order generalizing m with
  | nil => rfl
  | cons l order ih =>
    obtain ⟨hal, ha⟩ := not_or.mp (List.mem_cons.not.mp h)
    exact (ih ha).trans (by rw [of_absorb, if_neg hal])

theorem contains_of_perm (h : order.Perm m.keys) : ∀ l ∈ order, m.contains l = true :=
  fun _ hl => OrderedMap.mem_keys_iff.mp (h.mem_iff.mp hl)

theorem nodup_keys (m : SubLabels) : m.keys.Nodup :=
  OrderedSet.nodup_of_increasing id (List.pairwise_map.mpr m.increasing)

theorem Passes.extends (h : Passes m m') : Extends m m' := by
  obtain ⟨order, horder, rfl⟩ := h
  exact .pass (contains_of_perm horder)

/-- No label is its own sub-label. -/
def Irreflexive (m : SubLabels) : Prop := ∀ a, a ∉ m.of a

/-- Whoever was visited in a pass is no sub-label of itself. -/
theorem notMem_of_pass (h : a ∈ order) : a ∉ (pass order m).of a := by
  induction order generalizing m with
  | nil => cases h
  | cons l order ih =>
    by_cases ha : a ∈ order
    · exact ih ha
    · obtain rfl := (List.mem_cons.mp h).resolve_right ha
      change a ∉ (pass order (m.absorb a)).of a
      rw [of_pass_of_notMem ha, of_absorb, if_pos rfl]
      exact fun hmem => (mem_extended.mp hmem).1 rfl

theorem Passes.irreflexive (h : Passes m m') : m'.Irreflexive := by
  intro a
  have howners := (h.extends.owners a)
  obtain ⟨order, horder, rfl⟩ := h
  by_cases ha : m.contains a = true
  · exact notMem_of_pass (horder.mem_iff.mpr (OrderedMap.mem_keys_iff.mpr ha))
  · rw [of_eq_empty (fun h => ha (howners.mp h))]
    exact OrderedSet.not_mem_empty a

/-- A pass that changes nothing over all has changed nothing anywhere. -/
theorem extended_eq_of_pass_eq (hnodup : order.Nodup) (horder : ∀ l ∈ order, m.contains l = true)
    (h : pass order m = m) : ∀ l ∈ order, m.extended l = m.of l := by
  induction order with
  | nil => simp
  | cons l order ih =>
    obtain ⟨hl, hnodup⟩ := List.nodup_cons.mp hnodup
    -- the label is not visited again, so what it has in the end is what it absorbed
    have hsame : m.extended l = m.of l := by
      have hof := of_pass_of_notMem (m := m.absorb l) hl
      rw [of_absorb, if_pos rfl] at hof
      exact hof.symm.trans (congrArg (fun m => SubLabels.of m l) h)
    have habsorb : m.absorb l = m := by
      refine ext_of (fun a => contains_absorb (horder l List.mem_cons_self)) (fun a => ?_)
      rw [of_absorb]
      split
      · next hal => rw [hal, hsame]
      · rfl
    have hrest : pass order m = m := by
      change pass order (m.absorb l) = m at h
      rwa [habsorb] at h
    intro k hk
    rcases List.mem_cons.mp hk with rfl | hk
    · exact hsame
    · exact ih hnodup (fun k hk => horder k (List.mem_cons_of_mem _ hk)) hrest k hk

/-- Where a pass changes nothing, labels have what their sub-labels have. -/
theorem Passes.closed (h : Passes m m) {c : LabelId} (hc : c ∈ m.of a) (hb : b ∈ m.of c)
    (hab : a ≠ b) : b ∈ m.of a := by
  obtain ⟨order, horder, heq⟩ := h
  have hkey : m.contains a = true := by
    by_contra hnot
    rw [of_eq_empty hnot] at hc
    exact OrderedSet.not_mem_empty c hc
  have hmem := horder.mem_iff.mpr (OrderedMap.mem_keys_iff.mpr hkey)
  rw [← extended_eq_of_pass_eq (horder.nodup_iff.mpr (nodup_keys m)) (contains_of_perm horder)
    heq.symm a hmem]
  exact mem_extended.mpr ⟨hab.symm, Or.inr ⟨c, hc, hb⟩⟩

end Pass

section Runs

/-- Passes lead from a relation to one that a pass does not change, each in an order of its own. -/
def Settles (m final : SubLabels) : Prop :=
  Relation.ReflTransGen (fun m next => Passes m next ∧ next ≠ m) m final ∧ Passes final final

theorem Settles.extends (h : Settles m m') : Extends m m' := by
  obtain ⟨hrun, -⟩ := h
  induction hrun with
  | refl => exact .refl m
  | tail _ hstep ih => exact ih.trans hstep.1.extends

/-- Where passes end, a label has below it the other labels that direct sub-labels lead to. -/
theorem Settles.mem_of_iff (h : Settles m m') :
    b ∈ m'.of a ↔ a ≠ b ∧ Relation.TransGen m.Direct a b := by
  constructor
  · intro hb
    refine ⟨?_, h.extends.gained a b hb⟩
    rintro rfl
    exact h.2.irreflexive a hb
  · rintro ⟨hab, hpath⟩
    -- along the path from its end: every label on it has `b` below it, unless it is `b`
    induction hpath using Relation.TransGen.head_induction_on with
    | single hdirect => exact h.extends.kept _ _ hab hdirect
    | @head a c hdirect _ ih =>
      by_cases hcb : c = b
      · exact hcb ▸ h.extends.kept a c (hcb ▸ hab) hdirect
      · by_cases hac : a = c
        · exact hac ▸ ih hcb
        · exact h.2.closed (h.extends.kept a c hac hdirect) (ih hcb) hab

/-- Whatever orders the passes are made in, they end in the same relation. -/
theorem Settles.unique {n n' : SubLabels} (h : Settles m n) (h' : Settles m n') : n = n' := by
  refine ext_of (fun a => (h.extends.owners a).trans (h'.extends.owners a).symm) (fun a => ?_)
  exact OrderedSet.ext (fun b => h.mem_of_iff.trans h'.mem_of_iff.symm)

end Runs

section Termination

/-- The labels with an entry. -/
def owners (m : SubLabels) : Finset LabelId := m.keys.toFinset

/-- The labels that are below some label. -/
def lower (m : SubLabels) : Finset LabelId := (m.values.flatMap OrderedSet.toList).toFinset

/-- How many pairs of an owner and a lower label are not in the relation. -/
def missing (m : SubLabels) : ℕ := ∑ a ∈ m.owners, (m.lower.filter (· ∉ m.of a)).card

theorem mem_owners : a ∈ m.owners ↔ m.contains a = true := by
  rw [owners, List.mem_toFinset, OrderedMap.mem_keys_iff]

theorem mem_lower : b ∈ m.lower ↔ ∃ a, b ∈ m.of a := by
  simp only [lower, List.mem_toFinset, List.mem_flatMap, OrderedMap.values, List.mem_map]
  constructor
  · rintro ⟨_, ⟨⟨a, subs⟩, hentry, rfl⟩, hb⟩
    refine ⟨a, ?_⟩
    rw [of, OrderedMap.getD, OrderedMap.mem_entries_iff.mp hentry]
    exact hb
  · rintro ⟨a, hb⟩
    have hkey : m.contains a = true := by
      by_contra hnot
      rw [of_eq_empty hnot] at hb
      exact OrderedSet.not_mem_empty b hb
    exact ⟨m.of a, ⟨(a, m.of a), OrderedMap.mem_entries_iff.mpr (get?_eq_of hkey), rfl⟩, hb⟩

theorem Extends.owners_eq (h : Extends m m') : m'.owners = m.owners := by
  ext a
  rw [mem_owners, mem_owners, h.owners]

theorem Extends.lower_subset (h : Extends m m') : m'.lower ⊆ m.lower := by
  intro b hb
  obtain ⟨a, hb⟩ := mem_lower.mp hb
  obtain ⟨c, -, hc⟩ := Relation.TransGen.tail'_iff.mp (h.gained a b hb)
  exact mem_lower.mpr ⟨c, hc⟩

theorem missing_le (h : Extends m m') : m'.missing ≤ m.owners.card * m.lower.card := by
  rw [missing, h.owners_eq, ← smul_eq_mul]
  refine Finset.sum_le_card_nsmul _ _ _ (fun a _ => ?_)
  exact (Finset.card_filter_le _ _).trans (Finset.card_le_card h.lower_subset)

/-- A pass that changes something adds something, if no label was its own sub-label. -/
theorem Passes.missing_lt (h : Passes m m') (hm : m.Irreflexive) (hne : m' ≠ m) :
    m'.missing < m.missing := by
  have hext := h.extends
  have hsub : ∀ a b, b ∈ m.of a → b ∈ m'.of a := by
    intro a b hb
    refine hext.kept a b ?_ hb
    rintro rfl
    exact hm a hb
  obtain ⟨a, hof⟩ : ∃ a, m'.of a ≠ m.of a := by
    by_contra hall
    push Not at hall
    exact hne (ext_of hext.owners hall)
  obtain ⟨b, hb', hb⟩ : ∃ b, b ∈ m'.of a ∧ b ∉ m.of a := by
    by_contra hnone
    push Not at hnone
    exact hof (OrderedSet.ext (fun b => ⟨hnone b, hsub a b⟩))
  have hfilter : ∀ a, m'.lower.filter (· ∉ m'.of a) ⊆ m.lower.filter (· ∉ m.of a) := by
    intro a c hc
    obtain ⟨hlower, hnot⟩ := Finset.mem_filter.mp hc
    exact Finset.mem_filter.mpr ⟨hext.lower_subset hlower, fun h => hnot (hsub a c h)⟩
  have hkey : a ∈ m.owners := by
    by_contra hnot
    rw [mem_owners, ← hext.owners] at hnot
    rw [of_eq_empty hnot] at hb'
    exact OrderedSet.not_mem_empty b hb'
  rw [missing, missing, hext.owners_eq]
  refine Finset.sum_lt_sum (fun a _ => Finset.card_le_card (hfilter a)) ⟨a, hkey, ?_⟩
  refine Finset.card_lt_card ((Finset.ssubset_iff_of_subset (hfilter a)).mpr ⟨b, ?_, ?_⟩)
  · exact Finset.mem_filter.mpr ⟨hext.lower_subset (mem_lower.mpr ⟨a, hb'⟩), hb⟩
  · exact fun hmem => (Finset.mem_filter.mp hmem).2 hb'

/-- No run of passes goes on for ever: after the first pass no label is its own sub-label, and from
then on each pass adds something. -/
theorem wellFounded_passes : WellFounded (fun next m => Passes m next ∧ next ≠ m) := by
  have hirreflexive : ∀ n, ∀ m : SubLabels, m.Irreflexive → m.missing = n →
      Acc (fun next m => Passes m next ∧ next ≠ m) m := by
    intro n
    induction n using Nat.strong_induction_on with
    | _ n ih =>
      rintro m hm rfl
      refine ⟨m, fun next hnext => ?_⟩
      exact ih _ (hnext.1.missing_lt hm hnext.2) next hnext.1.irreflexive rfl
  exact ⟨fun m => ⟨m, fun next hnext => hirreflexive _ next hnext.1.irreflexive rfl⟩⟩

theorem settles_of_missing_lt {fuel : ℕ} (hm : m.Irreflexive) (hfuel : m.missing < fuel) :
    Settles m (settle fuel m) := by
  induction fuel generalizing m with
  | zero => omega
  | succ fuel ih =>
    have hpass : Passes m (pass m.keys m) := ⟨m.keys, .refl _, rfl⟩
    simp only [settle]
    split
    · next hsame => exact ⟨.refl, m.keys, .refl _, hsame.symm⟩
    · next hchanged =>
      have hlt := hpass.missing_lt hm hchanged
      obtain ⟨hrun, hend⟩ := ih hpass.irreflexive (by omega)
      exact ⟨.head ⟨hpass, hchanged⟩ hrun, hend⟩

theorem owners_card_le (m : SubLabels) : m.owners.card ≤ m.size := by
  refine (List.toFinset_card_le _).trans (Nat.le_of_eq ?_)
  simp [OrderedMap.keys, OrderedMap.size]

theorem lower_card_le (m : SubLabels) :
    m.lower.card ≤ (m.values.map OrderedSet.size).foldr (· + ·) 0 := by
  refine (List.toFinset_card_le _).trans (Nat.le_of_eq ?_)
  rw [List.length_flatMap, List.sum_eq_foldr]
  rfl

/-- The number of passes that are allowed is enough. -/
theorem settles_settle (m : SubLabels) : Settles m (settle m.passes m) := by
  have hpass : Passes m (pass m.keys m) := ⟨m.keys, .refl _, rfl⟩
  have hbound := (missing_le hpass.extends).trans
    (Nat.mul_le_mul (owners_card_le m) (lower_card_le m))
  have hfuel : m.passes =
      m.size * (m.values.map OrderedSet.size).foldr (· + ·) 0 + m.size + 1 + 1 := by
    rw [passes, Nat.mul_add, Nat.mul_one]
  rw [hfuel, settle]
  split
  · next hsame => exact ⟨.refl, m.keys, .refl _, hsame.symm⟩
  · next hchanged =>
    have hlt : (pass m.keys m).missing <
        m.size * (m.values.map OrderedSet.size).foldr (· + ·) 0 + m.size + 1 := by omega
    obtain ⟨hrun, hend⟩ := settles_of_missing_lt hpass.irreflexive hlt
    exact ⟨.head ⟨hpass, hchanged⟩ hrun, hend⟩

end Termination

section Closed

theorem of_filter (m : SubLabels) (a : LabelId) :
    SubLabels.of (m.filter (fun _ subs => !subs.isEmpty)) a = m.of a := by
  rw [of, of, OrderedMap.getD, OrderedMap.getD, OrderedMap.get?_filter]
  cases m.get? a with
  | none => rfl
  | some subs =>
    rw [Option.filter_some]
    split
    · rfl
    · next hempty =>
      rw [Bool.not_eq_true', Bool.not_eq_false, OrderedSet.isEmpty_iff] at hempty
      exact OrderedSet.ext (fun b => iff_of_false (OrderedSet.not_mem_empty b) (hempty b))

theorem contains_filter (m : SubLabels) (a : LabelId) :
    (m.filter (fun _ subs => !subs.isEmpty)).contains a = true ↔ ∃ b, b ∈ m.of a := by
  rw [OrderedMap.contains_iff]
  simp only [OrderedMap.get?_filter, Option.filter_eq_some_iff, of, OrderedMap.getD]
  cases m.get? a with
  | none => simp
  | some subs => simp [← Bool.not_eq_true, OrderedSet.isEmpty_iff]

theorem mem_closure_iff : b ∈ m.closure.of a ↔ a ≠ b ∧ Relation.TransGen m.Direct a b := by
  rw [closure, of_filter, (settles_settle m).mem_of_iff]

theorem contains_closure :
    m.closure.contains a = true ↔ ∃ b, a ≠ b ∧ Relation.TransGen m.Direct a b := by
  rw [closure, contains_filter]
  exact exists_congr (fun b => (settles_settle m).mem_of_iff)

/-- To close a closed relation changes nothing. -/
theorem closure_closure (m : SubLabels) : m.closure.closure = m.closure := by
  have hiff : ∀ a b, (a ≠ b ∧ Relation.TransGen m.closure.Direct a b) ↔
      a ≠ b ∧ Relation.TransGen m.Direct a b := by
    refine fun a b => and_congr_right (fun hab => ⟨fun h => ?_, fun h => ?_⟩)
    · exact Relation.TransGen.closed (fun _ _ h => (mem_closure_iff.mp h).2) a b h
    · exact .single (mem_closure_iff.mpr ⟨hab, h⟩)
  refine ext_of (fun a => ?_) (fun a => OrderedSet.ext (fun b => ?_))
  · rw [contains_closure, contains_closure]
    exact exists_congr (hiff a)
  · rw [mem_closure_iff, mem_closure_iff, hiff]

end Closed

end SubLabels

namespace Distribution

open SubLabels

/-- The sub-labels of a distribution are the direct ones closed: passes over the direct ones never
go on for ever and end in one relation, whatever orders they are made in, which is that of the
distribution but for entries without sub-labels. -/
structure Closes (direct : SubLabels) (d : Distribution) : Prop where
  terminates : WellFounded (fun next m => Passes m next ∧ next ≠ m)
  settles : ∃! final, Settles direct final
  final : ∀ final, Settles direct final →
    final.filter (fun _ subs => !subs.isEmpty) = d.subLabels
  isBelow_iff : ∀ a b, d.isBelow b a = true ↔ a ≠ b ∧ Relation.TransGen direct.Direct a b
  contains_iff : ∀ a, d.subLabels.contains a = true ↔
    ∃ b, a ≠ b ∧ Relation.TransGen direct.Direct a b
  again : ∀ {α : Type} (groups : List (OrderedSet LabelId)) (d' : Distribution),
    (ofGroups groups d.subLabels : Except (Failure α) _) = .ok d' → d'.subLabels = d.subLabels

theorem subLabels_of_ofGroups {α : Type} {groups : List (OrderedSet LabelId)} {direct : SubLabels}
    {d : Distribution} (h : (ofGroups groups direct : Except (Failure α) _) = .ok d) :
    d.subLabels = direct.closure := by
  simp only [ofGroups] at h
  split at h
  · cases h
  · cases h
    rfl

/-- A label is below another exactly if direct sub-labels lead to it from the other. -/
theorem ofGroups_closes {α : Type} {groups : List (OrderedSet LabelId)} {direct : SubLabels}
    {d : Distribution} (h : (ofGroups groups direct : Except (Failure α) _) = .ok d) :
    Closes direct d := by
  have hsub := subLabels_of_ofGroups h
  have hsettles := settles_settle direct
  refine ⟨wellFounded_passes, ⟨_, hsettles, fun n hn => hn.unique hsettles⟩, ?_, ?_, ?_, ?_⟩
  · intro final hfinal
    rw [hsub, SubLabels.closure, hfinal.unique hsettles]
  · intro a b
    rw [isBelow, decide_eq_true_iff, below, hsub, SubLabels.mem_closure_iff]
  · intro a
    rw [hsub, contains_closure]
  · intro β groups' d' h'
    rw [subLabels_of_ofGroups h', hsub, SubLabels.closure_closure]

/-- A cycle of three labels of which one lists itself, and a label that lists only itself. -/
def cyclic : SubLabels :=
  OrderedMap.ofList [(0, OrderedSet.ofList [0, 1]), (1, OrderedSet.singleton 2),
    (2, OrderedSet.singleton 0), (3, OrderedSet.singleton 3)]

theorem ofGroups_closes_cyclic :
    ∃ d, (ofGroups [OrderedSet.ofList [0, 1, 2]] cyclic : Except (Failure Float) _) = .ok d ∧
      Closes cyclic d := by
  have h : (ofGroups [OrderedSet.ofList [0, 1, 2]] cyclic : Except (Failure Float) _) =
      .ok ⟨canonical [OrderedSet.ofList [0, 1, 2]], cyclic.closure⟩ := rfl
  exact ⟨_, h, ofGroups_closes h⟩

end Distribution

end PatternCardinality.Labels
