import Mathlib.Algebra.BigOperators.Fin
import Mathlib.Algebra.Order.Ring.Rat
import Mathlib.Tactic.Linarith
import PatternCardinality.Estimate.Traversal
import PatternCardinality.Proofs.Statistics.Dominated

/-!
# Mass on labels

The walk over the groups of labels hands out mass that is never negative. Where one label is certain
and denser than the others of its group, and labels of other groups have no share, it receives all
mass.
-/

namespace PatternCardinality

/-- What stands before everything else in a list comes first when it is sorted. -/
theorem sortBy_eq_cons {β : Type} (le : β → β → Bool) {a : β} {l : List β} (ha : a ∈ l)
    (hself : le a a = true) (h : ∀ b ∈ l, b ≠ a → le a b = true ∧ le b a = false) :
    ∃ rest, sortBy le l = a :: rest := by
  induction l with
  | nil => cases ha
  | cons c l ih =>
    have hrest : ∀ b ∈ l, b ≠ a → le a b = true ∧ le b a = false :=
      fun b hb => h b (List.mem_cons_of_mem _ hb)
    by_cases hc : c = a
    · subst hc
      have hfirst : ∀ b ∈ sortBy le l, le c b = true := by
        intro b hb
        by_cases hbc : b = c
        · rw [hbc]
          exact hself
        · exact (hrest b ((sortBy_perm le l).mem_iff.mp hb) hbc).1
      rw [sortBy]
      cases hs : sortBy le l with
      | nil => exact ⟨[], rfl⟩
      | cons b rest =>
        rw [hs] at hfirst
        exact ⟨b :: rest, by rw [placeBy, if_pos (hfirst b List.mem_cons_self)]⟩
    · have hal : a ∈ l := (List.mem_cons.mp ha).resolve_left (fun heq => hc heq.symm)
      obtain ⟨rest, hsort⟩ := ih hal hrest
      have hlater : le c a = false := (h c List.mem_cons_self hc).2
      exact ⟨placeBy le c rest, by simp [sortBy, hsort, placeBy, hlater]⟩

namespace Estimate

open Labels Statistics

section Evidence

theorem sortByEvidence_perm {α : Type} [Scalar α] {db : Database α} {share : LabelId → α}
    {labels : List LabelId} : (sortByEvidence db share labels).Perm labels := by
  have hperm := (sortBy_perm (fun a b => (Evidence.order a b).isLE)
    (labels.map (fun l => ⟨l, db.density (share l) l, share l⟩))).map Evidence.label
  rw [List.map_map] at hperm
  exact hperm.trans (.of_eq (List.map_id labels))

variable {db : Database ℚ} {share : LabelId → ℚ} {labels : List LabelId}

theorem mem_sortByEvidence {l : LabelId} : l ∈ sortByEvidence db share labels ↔ l ∈ labels :=
  sortByEvidence_perm.mem_iff

/-- The label with the best evidence is the first. -/
theorem sortByEvidence_eq_cons {l : LabelId} (hl : l ∈ labels)
    (h : ∀ m ∈ labels, m ≠ l → db.density (share m) m < db.density (share l) l ∨
      (db.density (share m) m = db.density (share l) l ∧ share m < share l)) :
    ∃ rest, sortByEvidence db share labels = l :: rest := by
  have horder : ∀ m ∈ labels, m ≠ l →
      (Evidence.order ⟨l, db.density (share l) l, share l⟩
        ⟨m, db.density (share m) m, share m⟩).isLE = true ∧
      (Evidence.order ⟨m, db.density (share m) m, share m⟩
        ⟨l, db.density (share l) l, share l⟩).isLE = false := by
    intro m hm hne
    simp only [Evidence.order, Scalar.compareDescending_rat]
    rcases h m hm hne with hlt | ⟨heq, hlt⟩
    · simp [compare_lt_iff_lt.mpr hlt, compare_gt_iff_gt.mpr hlt]
    · simp [compare_eq_iff_eq.mpr heq, compare_eq_iff_eq.mpr heq.symm, compare_lt_iff_lt.mpr hlt,
        compare_gt_iff_gt.mpr hlt]
  have hself : (Evidence.order ⟨l, db.density (share l) l, share l⟩
      ⟨l, db.density (share l) l, share l⟩).isLE = true := by
    simp [Evidence.order, Scalar.compareDescending_rat]
  obtain ⟨rest, hrest⟩ := sortBy_eq_cons (fun a b => (Evidence.order a b).isLE)
    (List.mem_map_of_mem (f := fun l => ⟨l, db.density (share l) l, share l⟩) hl) hself
    (fun e he hne => by
      obtain ⟨m, hm, rfl⟩ := List.mem_map.mp he
      exact horder m hm (fun heq => hne (heq ▸ rfl)))
  exact ⟨rest.map Evidence.label, by rw [sortByEvidence, hrest, List.map_cons]⟩

end Evidence

namespace Walk

variable {n : Nat} {d : Distribution} {share : Fin n → LabelId → ℚ}

/-- No label receives less than nothing, and nothing less is left. -/
structure Nonneg (w : Walk ℚ n) : Prop where
  mass : ∀ v ∈ w.visits, ∀ i, 0 ≤ v.mass.get i
  rest : ∀ i, 0 ≤ w.rest.get i

theorem get_ofFn (f : Fin n → ℚ) (i : Fin n) : (Vector.ofFn f).get i = f i :=
  Vector.getElem_ofFn i.isLt

theorem get_remaining (excluded rest : Vector ℚ n) (supers : OrderedSet LabelId) (i : Fin n) :
    (remaining share excluded rest supers).get i =
      min (rest.get i) (max 0 (outside share supers i - excluded.get i)) := by
  rw [remaining, get_ofFn, Scalar.least_rat, Scalar.nonNegative_rat]
  rfl

theorem throughGroup_nonneg {excluded : Vector ℚ n} {group : Nat} {labels : List LabelId}
    {supers covered : OrderedSet LabelId} {rest : Vector ℚ n} (hrest : ∀ i, 0 ≤ rest.get i) :
    (throughGroup d share excluded group labels supers covered rest).Nonneg := by
  induction labels generalizing supers covered rest with
  | nil => exact ⟨by simp [throughGroup], hrest⟩
  | cons l labels ih =>
    rw [throughGroup]
    split
    · exact ⟨by simp, hrest⟩
    · dsimp only
      split
      · exact ih hrest
      · set next := (supers.filter (fun s => !decide (s ∈ d.below l))).insert l
        have hnext : ∀ i : Fin n, 0 ≤ (remaining share excluded rest next).get i ∧
            (remaining share excluded rest next).get i ≤ rest.get i := by
          intro i
          rw [get_remaining]
          exact ⟨le_min (hrest i) (le_max_left _ _), min_le_left _ _⟩
        have hmore : (throughGroup d share excluded group labels next (covered.union (d.below l))
            (remaining share excluded rest next)).Nonneg := ih (fun i => (hnext i).1)
        refine ⟨fun v hv i => ?_, hmore.rest⟩
        rcases List.mem_cons.mp hv with rfl | hv
        · rw [get_ofFn]
          exact sub_nonneg.mpr (hnext i).2
        · exact hmore.mass v hv i

theorem throughGroups_nonneg {sort : OrderedSet LabelId → List LabelId} {group : Nat}
    {groups : List (OrderedSet LabelId)} {rest : Vector ℚ n} (hrest : ∀ i, 0 ≤ rest.get i) :
    (throughGroups d sort share group groups rest).Nonneg := by
  induction groups generalizing group rest with
  | nil => exact ⟨by simp [throughGroups], hrest⟩
  | cons labels groups ih =>
    rw [throughGroups]
    split
    · exact ⟨by simp, hrest⟩
    · dsimp only
      set first := throughGroup d share (Vector.ofFn fun i => 1 - rest[i]) group (sort labels)
        ∅ ∅ rest
      have hfirst : first.Nonneg := throughGroup_nonneg hrest
      have hmore : (throughGroups d sort share (group + 1) groups first.rest).Nonneg :=
        ih hfirst.rest
      refine ⟨fun v hv => ?_, hmore.rest⟩
      rcases List.mem_append.mp hv with hv | hv
      · exact hfirst.mass v hv
      · exact hmore.mass v hv

theorem complete_nonneg (d : Distribution) (sort : OrderedSet LabelId → List LabelId)
    (share : Fin n → LabelId → ℚ) : (complete d sort share).Nonneg :=
  throughGroups_nonneg (fun i => le_of_le_of_eq zero_le_one (Vector.getElem_replicate i.isLt).symm)

end Walk

namespace Walk

variable {d : Distribution} {share : Fin 1 → LabelId → ℚ}

/-- The mass of visits, weighted by label. -/
def weight {n : Nat} (i : Fin n) (f : LabelId → ℚ) (visits : List (Visit ℚ n)) : ℚ :=
  (visits.map (fun v => v.mass.get i * f v.label)).sum

section Weight

variable {n : Nat} (i : Fin n) (f : LabelId → ℚ)

theorem weight_nil : weight i f [] = 0 := rfl

theorem weight_cons (v : Visit ℚ n) (visits : List (Visit ℚ n)) :
    weight i f (v :: visits) = v.mass.get i * f v.label + weight i f visits := by
  simp [weight]

theorem weight_append (v w : List (Visit ℚ n)) :
    weight i f (v ++ w) = weight i f v + weight i f w := by
  simp [weight]

end Weight

theorem exhausted_iff {α : Type} [Scalar α] {n : Nat} {rest : Vector α n} :
    exhausted rest = true ↔ ∃ i, rest.get i ≤ 0 := by
  simp only [exhausted, List.any_eq_true, Vector.mem_toList_iff, Vector.mem_iff_getElem,
    decide_eq_true_iff]
  constructor
  · rintro ⟨x, ⟨i, hi, rfl⟩, hx⟩
    exact ⟨⟨i, hi⟩, hx⟩
  · rintro ⟨i, hi⟩
    exact ⟨_, ⟨i, i.isLt, rfl⟩, hi⟩

section Certain

variable {n : Nat} {share : Fin n → LabelId → ℚ}

theorem get_replicate (x : ℚ) (i : Fin n) : (Vector.replicate n x).get i = x :=
  Vector.getElem_replicate i.isLt

theorem not_exhausted : ¬exhausted (Vector.replicate n (1 : ℚ)) = true := by
  simp [exhausted, Vector.toList_replicate]

theorem exhausted_zero [NeZero n] : exhausted (Vector.replicate n (0 : ℚ)) = true := by
  simp [exhausted, Vector.toList_replicate, NeZero.ne n]

theorem throughGroup_of_exhausted {excluded rest : Vector ℚ n} {group : Nat}
    {labels : List LabelId} {supers covered : OrderedSet LabelId} (h : exhausted rest = true) :
    throughGroup d share excluded group labels supers covered rest = ⟨[], rest⟩ := by
  cases labels with
  | nil => rfl
  | cons l labels => rw [throughGroup, if_pos h]

theorem throughGroups_of_exhausted {sort : OrderedSet LabelId → List LabelId} {group : Nat}
    {groups : List (OrderedSet LabelId)} {rest : Vector ℚ n} (h : exhausted rest = true) :
    throughGroups d sort share group groups rest = ⟨[], rest⟩ := by
  cases groups with
  | nil => rfl
  | cons labels groups => rw [throughGroups, if_pos h]

theorem remaining_eq {supers : OrderedSet LabelId} {x : ℚ} (hx : 0 ≤ x) (hone : x ≤ 1)
    (houtside : ∀ i, outside share supers i = x) :
    remaining share (Vector.replicate n 0) (Vector.replicate n 1) supers =
      Vector.replicate n x := by
  refine Vector.ext (fun i hi => (get_remaining _ _ _ ⟨i, hi⟩).trans ?_)
  rw [get_replicate, get_replicate, houtside, sub_zero, max_eq_right hx, min_eq_right hone,
    Vector.getElem_replicate]

theorem ofFn_eq_replicate {f : Fin n → ℚ} {x : ℚ} (h : ∀ i, f i = x) :
    Vector.ofFn f = Vector.replicate n x :=
  Vector.ext (fun i hi => by rw [Vector.getElem_ofFn, Vector.getElem_replicate, h])

/-- Labels without shares receive nothing. -/
theorem throughGroup_of_zero (group : Nat) {labels : List LabelId}
    (supers covered : OrderedSet LabelId) (hlabels : ∀ l ∈ labels, ∀ i, share i l = 0)
    (hsupers : ∀ l ∈ supers, ∀ i, share i l = 0) :
    ∃ visits, throughGroup d share (Vector.replicate n 0) group labels supers covered
        (Vector.replicate n 1) = ⟨visits, Vector.replicate n 1⟩ ∧
      ∀ v ∈ visits, v.mass = Vector.replicate n 0 := by
  induction labels generalizing supers covered with
  | nil => exact ⟨[], rfl, by simp⟩
  | cons l labels ih =>
    obtain ⟨hl, hmore⟩ := List.forall_mem_cons.mp hlabels
    rw [throughGroup, if_neg not_exhausted]
    dsimp only
    split
    · exact ih supers _ hmore hsupers
    · set next := (supers.filter (fun s => !decide (s ∈ d.below l))).insert l with hnext
      have hzero : ∀ m ∈ next, ∀ i, share i m = 0 := by
        intro m hm
        rcases OrderedSet.mem_insert.mp hm with rfl | hm
        · exact hl
        · exact hsupers m (OrderedSet.mem_filter.mp hm).1
      have houtside : ∀ i, outside share next i = 1 := by
        intro i
        rw [outside, Scalar.product_rat]
        refine List.prod_eq_one (fun x hx => ?_)
        obtain ⟨m, hm, rfl⟩ := List.mem_map.mp hx
        rw [hzero m hm, sub_zero]
      obtain ⟨visits, hwalk, hvisits⟩ := ih next (covered.union (d.below l)) hmore hzero
      have hnone : ∀ i : Fin n, (Vector.replicate n (1 : ℚ))[i] - (Vector.replicate n 1)[i] = 0 :=
        fun i => sub_self _
      rw [remaining_eq zero_le_one le_rfl houtside, hwalk, ofFn_eq_replicate hnone]
      exact ⟨_, rfl, List.forall_mem_cons.mpr ⟨rfl, hvisits⟩⟩

variable [NeZero n]

/-- A label that is certain receives all mass when it comes first. -/
theorem throughGroup_of_certain {group : Nat} {l : LabelId} {labels : List LabelId}
    (hl : ∀ i, share i l = 1) :
    throughGroup d share (Vector.replicate n 0) group (l :: labels) ∅ ∅ (Vector.replicate n 1) =
      ⟨[⟨group, l, Vector.replicate n 1⟩], Vector.replicate n 0⟩ := by
  have hsupers : ((∅ : OrderedSet LabelId).filter (fun s => !decide (s ∈ d.below l))).insert l =
      OrderedSet.singleton l := rfl
  have hnew : l ∉ (∅ : OrderedSet LabelId) := List.not_mem_nil
  have houtside : ∀ i, outside share (OrderedSet.singleton l) i = 0 := by
    intro i
    rw [outside, Scalar.product_rat]
    simp [OrderedSet.singleton, hl]
  have hall : ∀ i : Fin n, (Vector.replicate n (1 : ℚ))[i] - (Vector.replicate n 0)[i] = 1 := by simp
  rw [throughGroup, if_neg not_exhausted]
  dsimp only
  rw [if_neg hnew, hsupers, remaining_eq le_rfl zero_le_one houtside,
    throughGroup_of_exhausted exhausted_zero, ofFn_eq_replicate hall]

/-- The whole mass falls on one label, if it is certain and the first of its group, and other groups
have no share. -/
theorem throughGroups_of_certain {sort : OrderedSet LabelId → List LabelId} (group : Nat)
    {groups : List (OrderedSet LabelId)} {l : LabelId} (hl : ∀ i, share i l = 1)
    (hmem : ∃ g ∈ groups, l ∈ g) (hfirst : ∀ g ∈ groups, l ∈ g → ∃ more, sort g = l :: more)
    (hzero : ∀ g ∈ groups, l ∉ g → ∀ m ∈ sort g, ∀ i, share i m = 0) :
    ∃ before k, throughGroups d sort share group groups (Vector.replicate n 1) =
        ⟨before ++ [⟨k, l, Vector.replicate n 1⟩], Vector.replicate n 0⟩ ∧
      ∀ v ∈ before, v.mass = Vector.replicate n 0 := by
  induction groups generalizing group with
  | nil => simp at hmem
  | cons g groups ih =>
    have hexcluded : ∀ i : Fin n, 1 - (Vector.replicate n (1 : ℚ))[i] = 0 := by simp
    rw [throughGroups, if_neg not_exhausted]
    dsimp only
    rw [ofFn_eq_replicate hexcluded]
    by_cases hg : l ∈ g
    · obtain ⟨more, hsort⟩ := hfirst g List.mem_cons_self hg
      rw [hsort, throughGroup_of_certain hl, throughGroups_of_exhausted exhausted_zero]
      exact ⟨[], group, rfl, by simp⟩
    · obtain ⟨visits, hwalk, hvisits⟩ := throughGroup_of_zero (d := d) group ∅ ∅
        (hzero g List.mem_cons_self hg) (fun m hm => absurd hm List.not_mem_nil)
      have hlater : ∃ g ∈ groups, l ∈ g := by
        obtain ⟨g', hg', hlg⟩ := hmem
        rcases List.mem_cons.mp hg' with rfl | hg'
        · exact absurd hlg hg
        · exact ⟨g', hg', hlg⟩
      obtain ⟨before, k, hmore, hbefore⟩ := ih (group + 1) hlater
        (fun g' hg' => hfirst g' (List.mem_cons_of_mem _ hg'))
        (fun g' hg' => hzero g' (List.mem_cons_of_mem _ hg'))
      rw [hwalk, hmore]
      refine ⟨visits ++ before, k, by rw [List.append_assoc], fun v hv => ?_⟩
      exact (List.mem_append.mp hv).elim (hvisits v) (hbefore v)

omit [NeZero n] in
/-- Mass that falls on one label has the weight of that label. -/
theorem weight_of_certain (i : Fin n) (f : LabelId → ℚ) {before : List (Visit ℚ n)} (k : Nat)
    (l : LabelId) (hbefore : ∀ v ∈ before, v.mass = Vector.replicate n 0) :
    weight i f (before ++ [⟨k, l, Vector.replicate n 1⟩]) = f l := by
  have hnone : weight i f before = 0 := by
    refine List.sum_eq_zero (fun x hx => ?_)
    obtain ⟨v, hv, rfl⟩ := List.mem_map.mp hx
    rw [hbefore v hv, get_replicate, zero_mul]
  rw [weight_append, hnone, weight_cons, get_replicate, weight_nil, one_mul, add_zero, zero_add]

end Certain

section Alone

variable {n : Nat} {share : Fin n → LabelId → ℚ}

/-- A label in a group of its own receives its share, as far as that is left. -/
theorem throughGroup_singleton (group : ℕ) {l : LabelId} {rest : Vector ℚ n}
    (hpos : ∀ i, 0 < rest.get i) (hshare : ∀ i, 0 ≤ share i l)
    (hle : ∀ i, share i l ≤ rest.get i) :
    throughGroup d share (Vector.ofFn fun i => 1 - rest.get i) group [l] ∅ ∅ rest =
      ⟨[⟨group, l, Vector.ofFn fun i => share i l⟩],
        Vector.ofFn fun i => rest.get i - share i l⟩ := by
  have hnot : ¬exhausted rest = true := by
    rw [exhausted_iff, not_exists]
    exact fun i => not_le.mpr (hpos i)
  have hsupers : ((∅ : OrderedSet LabelId).filter (fun s => !decide (s ∈ d.below l))).insert l =
      OrderedSet.singleton l := rfl
  have hnew : l ∉ (∅ : OrderedSet LabelId) := List.not_mem_nil
  have hremaining : remaining share (Vector.ofFn fun i => 1 - rest.get i) rest
      (OrderedSet.singleton l) = Vector.ofFn fun i => rest.get i - share i l := by
    refine Vector.ext (fun i hi => (get_remaining _ _ _ ⟨i, hi⟩).trans ?_)
    have houtside : outside share (OrderedSet.singleton l) ⟨i, hi⟩ = 1 - share ⟨i, hi⟩ l := by
      rw [outside, Scalar.product_rat]
      simp [OrderedSet.singleton]
    have hleft : 1 - share ⟨i, hi⟩ l - (1 - rest.get ⟨i, hi⟩) =
        rest.get ⟨i, hi⟩ - share ⟨i, hi⟩ l := by linarith
    rw [houtside, get_ofFn, Vector.getElem_ofFn, hleft, max_eq_right (sub_nonneg.mpr (hle _)),
      min_eq_right (sub_le_self _ (hshare _))]
  have hmass : ∀ i : Fin n, rest[i] - (Vector.ofFn fun i => rest.get i - share i l)[i] =
      share i l := by
    intro i
    change rest.get i - (Vector.ofFn fun i => rest.get i - share i l).get i = share i l
    rw [get_ofFn, sub_sub_cancel]
  rw [throughGroup, if_neg hnot]
  dsimp only
  rw [if_neg hnew, hsupers, throughGroup, hremaining]
  simp only [hmass]

/-- Labels that all have groups of their own receive their shares of what is left. If nothing is
left of one vector of shares, then no other label receives from all of them. -/
theorem throughGroups_of_singletons (f : LabelId → ℚ → ℚ) (hf : ∀ l, f l 0 = 0)
    {sort : OrderedSet LabelId → List LabelId} (hsort : ∀ l, sort (OrderedSet.singleton l) = [l])
    {group : ℕ} {labels : List LabelId} {rest : Vector ℚ n}
    (hshare : ∀ i, ∀ l ∈ labels, 0 ≤ share i l)
    (hsum : ∀ i, (labels.map (share i)).sum ≤ rest.get i) :
    ((throughGroups d sort share group (labels.map OrderedSet.singleton) rest).visits.map
        (fun v => f v.label (∏ i, v.mass.get i))).sum =
          (labels.map (fun l => f l (∏ i, share i l))).sum ∧
      ∏ i, (throughGroups d sort share group (labels.map OrderedSet.singleton) rest).rest.get i =
        ∏ i, (rest.get i - (labels.map (share i)).sum) := by
  induction labels generalizing group rest with
  | nil => exact ⟨rfl, by simp [throughGroups]⟩
  | cons l labels ih =>
    have hnonneg : ∀ i, ∀ x ∈ (l :: labels).map (share i), 0 ≤ x :=
      fun i => List.forall_mem_map.mpr (hshare i)
    by_cases hnone : ∃ i, rest.get i ≤ 0
    · obtain ⟨i, hi⟩ := hnone
      have hzero : ((l :: labels).map (share i)).sum = 0 :=
        le_antisymm ((hsum i).trans hi) (List.sum_nonneg (hnonneg i))
      have hall : ∀ m ∈ l :: labels, f m (∏ i, share i m) = 0 := by
        intro m hm
        have hshares : share i m = 0 := List.all_zero_of_le_zero_le_of_sum_eq_zero (hnonneg i) hzero
          (List.mem_map_of_mem hm)
        rw [Finset.prod_eq_zero (Finset.mem_univ i) hshares, hf]
      have hrest : rest.get i = 0 := le_antisymm hi (hzero ▸ hsum i)
      rw [List.map_cons, throughGroups_of_exhausted (exhausted_iff.mpr ⟨i, hi⟩),
        List.map_congr_left hall, Finset.prod_eq_zero (Finset.mem_univ i) hrest,
        Finset.prod_eq_zero (Finset.mem_univ i) (by rw [hzero, hrest, sub_zero])]
      simp
    · have hnot : ¬exhausted rest = true := fun h => hnone (exhausted_iff.mp h)
      have hpos : ∀ i, 0 < rest.get i := fun i => not_le.mp (fun h => hnone ⟨i, h⟩)
      have hmore : ∀ i, 0 ≤ (labels.map (share i)).sum :=
        fun i => List.sum_nonneg (fun x hx => hnonneg i x (List.mem_cons_of_mem _ hx))
      have hsum' : ∀ i, share i l + (labels.map (share i)).sum ≤ rest.get i := hsum
      rw [List.map_cons, throughGroups, if_neg hnot, hsort]
      dsimp only
      have hfirst : throughGroup d share (Vector.ofFn fun i => 1 - rest[i]) group [l] ∅ ∅ rest =
          ⟨[⟨group, l, Vector.ofFn fun i => share i l⟩],
            Vector.ofFn fun i => rest.get i - share i l⟩ :=
        throughGroup_singleton group hpos (fun i => hshare i l List.mem_cons_self)
          (fun i => (le_add_of_nonneg_right (hmore i)).trans (hsum' i))
      rw [hfirst]
      obtain ⟨hvisits, hleft⟩ := @ih (group + 1) (Vector.ofFn fun i => rest.get i - share i l)
        (fun i m hm => hshare i m (List.mem_cons_of_mem _ hm))
        (fun i => by rw [get_ofFn]; linarith [hsum' i])
      refine ⟨?_, hleft.trans ?_⟩
      · rw [List.singleton_append, List.map_cons, List.sum_cons, hvisits, List.map_cons,
          List.sum_cons]
        simp only [get_ofFn]
      · simp only [get_ofFn, List.map_cons, List.sum_cons, sub_sub]

end Alone

end Walk

namespace Traversal

variable {t : Traversal ℚ}

theorem degreeTo_eq (shares : LabelShares ℚ) (target : LabelId) :
    t.degreeTo shares target =
      Walk.weight 0 (fun l => t.degree l target) (t.massOf shares).visits +
        (t.massOf shares).rest.get 0 * t.degree anyLabel target := by
  rw [Walk.weight, List.sum_eq_foldl, List.foldl_map]
  rfl

variable (h : t.db.view.store.Dominated)

include h

theorem degreeTo_nonneg (shares : LabelShares ℚ) (target : LabelId) :
    0 ≤ t.degreeTo shares target := by
  have hmass := Walk.complete_nonneg t.db.distribution
    (fun group => sortByEvidence t.db shares.of group.toList) (fun _ : Fin 1 => shares.of)
  rw [degreeTo_eq]
  refine add_nonneg (List.sum_nonneg (fun x hx => ?_)) (mul_nonneg (hmass.rest 0) ?_)
  · obtain ⟨v, hv, rfl⟩ := List.mem_map.mp hx
    exact mul_nonneg (hmass.mass v hv 0) (Database.averageDegree_nonneg h _ _ _ _)
  · exact Database.averageDegree_nonneg h _ _ _ _

/-- Relationships towards a label are among all. -/
theorem degreeTo_le_any (shares : LabelShares ℚ) (target : LabelId) :
    t.degreeTo shares target ≤ t.degreeTo shares anyLabel := by
  have hmass := Walk.complete_nonneg t.db.distribution
    (fun group => sortByEvidence t.db shares.of group.toList) (fun _ : Fin 1 => shares.of)
  rw [degreeTo_eq, degreeTo_eq]
  refine add_le_add (List.sum_le_sum (fun v hv => ?_)) ?_
  · exact mul_le_mul_of_nonneg_left (Database.averageDegree_le_any_target h _ _ _ _)
      (hmass.mass v hv 0)
  · exact mul_le_mul_of_nonneg_left (Database.averageDegree_le_any_target h _ _ _ _)
      (hmass.rest 0)

end Traversal

end Estimate

end PatternCardinality
