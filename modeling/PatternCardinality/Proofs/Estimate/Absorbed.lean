import PatternCardinality.Proofs.Estimate.Certain
import PatternCardinality.Proofs.Estimate.Merged
import PatternCardinality.Proofs.Estimate.Selected
import PatternCardinality.Proofs.Estimate.Shares

/-!
# Labels that are implied

Once a label is selected, it and all labels above it are certain. So to select one of them says
nothing new: labels further above are certain already, those below stay as they are, since none is
more than certain, and labels of other groups have no share that they could lose.
-/

namespace PatternCardinality.Estimate

open Labels Statistics

namespace Tally

variable {d : Distribution} {share : LabelId → ℚ} {l m s : LabelId}

theorem narrowed_le_one (h : ∀ m, share m ≤ 1) (l m : LabelId) : narrowed d share l m ≤ 1 := by
  rw [narrowed]
  split
  · exact le_rfl
  · split
    · exact min_le_right _ _
    · split
      · exact h m
      · exact zero_le_one

/-- To select a label that the one selected before is under changes no share. -/
theorem narrowed_narrowed (h : d.Hierarchical) (hshare : ∀ m, share m ≤ 1) (hls : d.Under l s)
    (m : LabelId) : narrowed d (narrowed d share l) s m = narrowed d share l m := by
  by_cases hsm : d.Under s m
  · rw [narrowed_of_under hsm, narrowed_of_under (h.trans hls hsm)]
  · by_cases hms : d.Under m s
    · rw [narrowed_of_over hsm hms, narrowed_of_under hls, div_one,
        min_eq_left (narrowed_le_one hshare l m)]
    · have hapart : ¬d.Comparable s m := not_or.mpr ⟨hsm, hms⟩
      by_cases hgroup : d.groupOf? m = d.groupOf? s
      · exact narrowed_of_apart hapart hgroup
      · rw [narrowed_of_other_group h hgroup,
          narrowed_of_other_group h (h.groupOf?_eq hls ▸ hgroup)]

end Tally

variable {db : Database ℚ} {p : Profile ℚ} {v : String} {shares : LabelShares ℚ} {l m s : LabelId}

theorem of_narrowed (hm : m ∈ db.labels) : (narrowed db shares l).of m =
    Tally.narrowed db.distribution shares.of l m :=
  (LabelShares.of_tabulate hm).trans (Tally.narrowedShare_eq rfl rfl)

/-- A label of the distribution is above others of the distribution only. -/
theorem mem_labels_of_under (h : db.distribution.Hierarchical) (hl : l ∈ db.labels)
    (hls : db.distribution.Under l s) : s ∈ db.labels := by
  rcases hls with rfl | hls
  · exact hl
  · obtain ⟨g, hg, -, hs⟩ := h.inside l s hls
    exact Distribution.mem_labels.mpr ⟨g, hg, hs⟩

section Narrowed

variable (h : db.distribution.Hierarchical) (hl : l ∈ db.labels)
  (hls : db.distribution.Under l s)

include h hl hls

theorem of_narrowed_under : (narrowed db shares l).of s = 1 := by
  rw [of_narrowed (mem_labels_of_under h hl hls), Tally.narrowed_of_under hls]

theorem narrowed_narrowed_under (hshares : ∀ m, shares.of m ≤ 1) :
    narrowed db (narrowed db shares l) s = narrowed db shares l := by
  refine OrderedMap.tabulate_congr (fun m hm => ?_)
  rw [Tally.narrowedShare_eq (of_narrowed (mem_labels_of_under h hl hls)) (of_narrowed hm),
    Tally.narrowed_narrowed h hshares hls, Tally.narrowedShare_eq rfl rfl]

end Narrowed

section Selection

variable (hapart : ∀ v, p.isNode v = true → p.isRelationship v = false)
  (hget : p.nodes.get? v = some shares)

include hapart hget

theorem selectLabel_eq (db : Database ℚ) (l : LabelId) : selectLabel db v l p =
    .ok (if shares.of l ≤ 0 then ⟨p.nodes, p.relationships, 0, false⟩
      else ⟨p.nodes.insert v (narrowed db shares l), p.relationships, p.size * shares.of l,
        false⟩) := by
  obtain ⟨q, hq, -⟩ := selectLabel_binds db (Profile.binds_of_apart hapart)
    (OrderedMap.contains_iff.mpr ⟨shares, hget⟩) l
  obtain ⟨shares', hget', rfl⟩ := selectLabel_eq_ok hq
  cases hget.symm.trans hget'
  exact hq

/-- A label that is certain, with shares that its selection leaves as they are, is selected to no
effect. -/
theorem selectLabel_eq_self (hinitial : p.initial = false) (hone : shares.of l = 1)
    (hsame : narrowed db shares l = shares) : selectLabel db v l p = .ok p := by
  rw [selectLabel_eq hapart hget, hone, if_neg (by norm_num), hsame,
    OrderedMap.insert_eq_self hget, mul_one, ← hinitial]

end Selection

/-- To select a label again is without effect, and so is to select one above it if the label had a
share. -/
theorem selectLabel_absorbs (hmade : db.distribution.Made)
    (hinside : ∀ sub l, db.distribution.isBelow sub l = true →
      ∃ g ∈ db.distribution.groups, sub ∈ g ∧ l ∈ g)
    (hapart : ∀ v, p.isNode v = true → p.isRelationship v = false)
    (hget : p.nodes.get? v = some shares) (hshares : shares.AllShares) (hl : l ∈ db.labels) :
    ∃ q, selectLabel db v l p = .ok q ∧ selectLabel db v l q = .ok q ∧
      (0 < shares.of l → ∀ s, db.distribution.isBelow l s = true →
        selectLabel db v s q = .ok q) := by
  have h := hmade.hierarchical hinside
  refine ⟨_, selectLabel_eq hapart hget db l, ?_⟩
  by_cases hkept : shares.of l ≤ 0
  · -- nothing but the size has changed
    rw [if_pos hkept]
    refine ⟨?_, fun hpos => absurd hkept (not_le.mpr hpos)⟩
    rw [selectLabel_eq (p := ⟨p.nodes, p.relationships, 0, false⟩) hapart hget, if_pos hkept]
  · rw [if_neg hkept]
    set q : Profile ℚ := ⟨p.nodes.insert v (narrowed db shares l), p.relationships,
      p.size * shares.of l, false⟩ with hq
    have hqget : q.nodes.get? v = some (narrowed db shares l) := by
      rw [hq, OrderedMap.get?_insert, if_pos rfl]
    have hqapart : ∀ w, q.isNode w = true → q.isRelationship w = false := by
      intro w hw
      rcases OrderedMap.contains_insert.mp hw with rfl | hw
      · exact hapart w (OrderedMap.contains_iff.mpr ⟨shares, hget⟩)
      · exact hapart w hw
    have habsorb : ∀ s, db.distribution.Under l s → selectLabel db v s q = .ok q := by
      intro s hls
      exact selectLabel_eq_self hqapart hqget rfl (of_narrowed_under h hl hls)
        (narrowed_narrowed_under h hl hls (fun m => (hshares.of m).2))
    exact ⟨habsorb l (Distribution.under_refl _ _), fun _ s hls => habsorb s (Or.inr hls)⟩

/-- Two labels below each other with another below both, and a label of another group. -/
def synonyms : Distribution :=
  ⟨[OrderedSet.ofList [0, 1, 2], OrderedSet.ofList [3]],
    OrderedMap.ofList [(0, OrderedSet.ofList [1, 2]), (1, OrderedSet.ofList [0, 2])]⟩

theorem made_synonyms : synonyms.Made := by
  have h : (Distribution.ofGroups [OrderedSet.ofList [0, 1, 2], OrderedSet.ofList [3]]
      (OrderedMap.ofList [(0, OrderedSet.ofList [1]), (1, OrderedSet.ofList [0, 2])]) :
      Except (Failure ℚ) _) = .ok synonyms := Outcome.toOption_eq_some.mp (by decide +kernel)
  exact .ofGroups h

/-- Six matches, a quarter of which carry the lowest of the labels. -/
def mixture : Profile ℚ :=
  ⟨.singleton "a" (OrderedMap.ofList [(0, 1 / 2), (1, 1 / 3), (2, 1 / 4), (3, 1 / 5)]), ∅, 6, false⟩

theorem selectLabel_absorbs_synonyms :
    let db : Database ℚ := ⟨⟨Store.empty 10, false⟩, synonyms⟩
    ∃ q, selectLabel db "a" 2 mixture = .ok q ∧ selectLabel db "a" 2 q = .ok q ∧
      selectLabel db "a" 1 q = .ok q := by
  intro db
  have hinside : ∀ sub l, db.distribution.isBelow sub l = true →
      ∃ g ∈ db.distribution.groups, sub ∈ g ∧ l ∈ g := by
    intro sub l hbelow
    have htogether := Distribution.forall_isBelow (d := synonyms)
      (P := fun sub l => decide (∃ g ∈ synonyms.groups, sub ∈ g ∧ l ∈ g)) (by decide +kernel) hbelow
    exact of_decide_eq_true htogether
  have hshares : LabelShares.AllShares
      (OrderedMap.ofList [(0, 1 / 2), (1, 1 / 3), (2, 1 / 4), (3, 1 / 5)]) := by
    intro l s hs
    have hmem := OrderedMap.mem_of_get?_ofList hs
    simp only [List.mem_cons, Prod.mk.injEq, List.not_mem_nil, or_false] at hmem
    rcases hmem with ⟨-, rfl⟩ | ⟨-, rfl⟩ | ⟨-, rfl⟩ | ⟨-, rfl⟩ <;> exact ⟨by norm_num, by norm_num⟩
  have hl : (2 : LabelId) ∈ db.labels := by decide +kernel
  obtain ⟨q, hq, hagain, habove⟩ := selectLabel_absorbs (p := mixture) (v := "a") made_synonyms
    hinside (fun _ _ => rfl) rfl hshares hl
  exact ⟨q, hq, hagain, habove (by decide +kernel) 1 (by decide +kernel)⟩

end PatternCardinality.Estimate
