import Mathlib.Algebra.Order.BigOperators.GroupWithZero.List
import PatternCardinality.Proofs.Estimate.Shares
import PatternCardinality.Proofs.Estimate.Visited

/-!
# Labels that are independent of each other

Without sub-labels the labels of a group are taken to be independent, and those of different groups
to exclude each other. If the probabilities of the groups, each that of any of its labels, are
together at most one, then the walk gives each group its probability, in whatever order its labels
come: the first one receives its share, and each later one its share of the nodes without those
before it.
-/

namespace PatternCardinality.Estimate.Walk

open Labels

variable {d : Distribution} {f : LabelId → ℚ} {l : LabelId} {labels more : List LabelId}

section Union

/-- The probability of no label of a list. -/
def neither (f : LabelId → ℚ) (labels : List LabelId) : ℚ := (labels.map (fun l => 1 - f l)).prod

/-- The probability of any label of a list. -/
def anyOf (f : LabelId → ℚ) (labels : List LabelId) : ℚ := 1 - neither f labels

theorem neither_append : neither f (labels ++ more) = neither f labels * neither f more := by
  simp [neither]

theorem anyOf_nil : anyOf f [] = 0 := by simp [anyOf, neither]

theorem anyOf_perm (h : labels.Perm more) : anyOf f labels = anyOf f more := by
  rw [anyOf, anyOf, neither, neither, (h.map _).prod_eq]

/-- One more label adds its share of the nodes without the others. -/
theorem anyOf_concat : anyOf f (labels ++ [l]) = anyOf f labels + f l * neither f labels := by
  simp only [anyOf, neither, List.map_append, List.map_cons, List.map_nil, List.prod_append,
    List.prod_singleton]
  ring

theorem neither_nonneg (h : ∀ l ∈ labels, f l ≤ 1) : 0 ≤ neither f labels :=
  List.prod_nonneg (List.forall_mem_map.mpr (fun l hl => sub_nonneg.mpr (h l hl)))

theorem neither_le_one (h : ∀ l ∈ labels, IsShare (f l)) : neither f labels ≤ 1 := by
  induction labels with
  | nil => simp [neither]
  | cons l labels ih =>
    obtain ⟨hl, hlabels⟩ := List.forall_mem_cons.mp h
    have hmore := neither_nonneg (fun m hm => (hlabels m hm).2)
    calc neither f (l :: labels) = (1 - f l) * neither f labels := by simp [neither]
      _ ≤ 1 := mul_le_one₀ (sub_le_self 1 hl.1) hmore (ih hlabels)

/-- More labels make any of them likelier. -/
theorem anyOf_le_append (labels more : List LabelId)
    (h : ∀ l ∈ labels ++ more, IsShare (f l)) :
    anyOf f labels ≤ anyOf f (labels ++ more) := by
  obtain ⟨hlabels, hmore⟩ := List.forall_mem_append.mp h
  rw [anyOf, anyOf, neither_append]
  exact sub_le_sub_left (mul_le_of_le_one_right (neither_nonneg (fun m hm => (hlabels m hm).2))
    (neither_le_one hmore)) 1

theorem anyOf_nonneg (h : ∀ l ∈ labels, IsShare (f l)) : 0 ≤ anyOf f labels :=
  sub_nonneg.mpr (neither_le_one h)

/-- What a label adds is nothing if the labels before it are as likely as all. -/
theorem share_eq_zero {before after : List LabelId}
    (h : ∀ m ∈ before ++ l :: after, IsShare (f m))
    (hall : anyOf f (before ++ l :: after) ≤ anyOf f before) : f l * neither f before = 0 := by
  have hstep := anyOf_le_append (f := f) (before ++ [l]) after (by simpa using h)
  rw [anyOf_concat, List.append_assoc, List.singleton_append] at hstep
  have hl := (h l (by simp)).1
  have hbefore := neither_nonneg (fun m hm => (h m (List.mem_append_left _ hm)).2)
  have hnonneg := mul_nonneg hl hbefore
  linarith

end Union

section MassOn

variable {n : ℕ} {i : Fin n} {p : LabelId → Prop} [DecidablePred p] {visits : List (Visit ℚ n)}

/-- The mass that labels with a property receive. -/
def massOn (i : Fin n) (p : LabelId → Prop) [DecidablePred p] (visits : List (Visit ℚ n)) : ℚ :=
  weight i (fun l => if p l then 1 else 0) visits

theorem massOn_cons (v : Visit ℚ n) (visits : List (Visit ℚ n)) :
    massOn i p (v :: visits) = (if p v.label then v.mass.get i else 0) + massOn i p visits := by
  rw [massOn, weight_cons, mul_ite, mul_one, mul_zero, massOn]

theorem massOn_append (visits more : List (Visit ℚ n)) :
    massOn i p (visits ++ more) = massOn i p visits + massOn i p more := weight_append i _ _ _

theorem massOn_eq_zero (h : ∀ v ∈ visits, ¬p v.label) : massOn i p visits = 0 :=
  List.sum_eq_zero (List.forall_mem_map.mpr
    (fun v hv => mul_eq_zero_of_right _ (if_neg (h v hv))))

theorem massOn_eq_all (h : ∀ v ∈ visits, p v.label) :
    massOn i p visits = weight i (fun _ => 1) visits := by
  rw [massOn, weight, weight, List.map_congr_left (fun v hv => by rw [if_pos (h v hv)])]

/-- Where no label is visited twice, a label receives the mass of its visit. -/
theorem massOn_label (hnodup : (visits.map Visit.label).Nodup) {v : Visit ℚ n}
    (hv : v ∈ visits) : massOn i (· = v.label) visits = v.mass.get i := by
  induction visits with
  | nil => cases hv
  | cons u visits ih =>
    rw [List.map_cons] at hnodup
    obtain ⟨hu, hvisits⟩ := List.nodup_cons.mp hnodup
    rw [massOn_cons]
    rcases List.mem_cons.mp hv with rfl | hv
    · have hlater : massOn i (· = v.label) visits = 0 :=
        massOn_eq_zero (fun u hmem heq => hu (heq ▸ List.mem_map_of_mem hmem))
      rw [hlater, if_pos rfl, add_zero]
    · have hne : u.label ≠ v.label := fun heq => hu (heq ▸ List.mem_map_of_mem hv)
      rw [if_neg hne, zero_add, ih hvisits hv]

end MassOn

section Group

variable {excluded rest : Vector ℚ 1} {group : ℕ} {supers covered : OrderedSet LabelId}

theorem outside_eq_neither {n : ℕ} (share : Fin n → LabelId → ℚ) (supers : OrderedSet LabelId)
    (i : Fin n) : outside share supers i = neither (share i) supers.toList :=
  Scalar.product_rat _

theorem exhausted_one_iff {rest : Vector ℚ 1} : exhausted rest = true ↔ rest.get 0 ≤ 0 := by
  rw [exhausted_iff]
  exact Fin.exists_fin_one

/-- Without sub-labels a visit replaces no label, and covers none. -/
theorem supers_of_none (hnone : ∀ sub l, d.isBelow sub l = false) (hl : l ∉ supers) :
    ((supers.filter (fun s => !decide (s ∈ d.below l))).insert l).toList.Perm
      (supers.toList ++ [l]) := by
  have hall : supers.filter (fun s => !decide (s ∈ d.below l)) = supers := by
    refine OrderedSet.ext (fun s => ?_)
    rw [OrderedSet.mem_filter]
    exact and_iff_left (by rw [Bool.not_eq_true']; exact hnone s l)
  rw [hall]
  exact (OrderedSet.insert_perm hl).trans (List.perm_append_singleton l _).symm

/-- From the labels of a group that come after those in `seen`, each receives its share of what none
of those before it takes, also where the mass runs out. -/
theorem throughGroup_independent (hnone : ∀ sub l, d.isBelow sub l = false) {R : ℚ}
    {seen : List LabelId} (hsupers : supers.toList.Perm seen) (hcovered : ∀ l, l ∉ covered)
    (hf : ∀ l ∈ seen ++ more, IsShare (f l)) (hnodup : (seen ++ more).Nodup)
    (hexcluded : excluded.get 0 = 1 - R) (hrest : rest.get 0 = R - anyOf f seen)
    (hR : anyOf f (seen ++ more) ≤ R) :
    (throughGroup d (fun _ => f) excluded group more supers covered rest).rest.get 0 =
        R - anyOf f (seen ++ more) ∧
      ∀ before l after, more = before ++ l :: after →
        massOn 0 (· = l)
          (throughGroup d (fun _ => f) excluded group more supers covered rest).visits =
            f l * neither f (seen ++ before) := by
  induction more generalizing seen supers covered rest with
  | nil => exact ⟨by rw [List.append_nil, throughGroup, hrest], by simp⟩
  | cons l more ih =>
    by_cases hout : exhausted rest = true
    · have hnothing := exhausted_one_iff.mp hout
      rw [hrest] at hnothing
      rw [throughGroup_of_exhausted hout]
      have hmore := anyOf_le_append _ _ hf
      refine ⟨by rw [hrest]; linarith, fun before m after hsplit => ?_⟩
      rw [hsplit] at hf hR hmore
      rw [← List.append_assoc] at hf hR
      have hbefore := anyOf_le_append seen before
        (fun m hm => hf m (List.mem_append_left _ hm))
      exact (share_eq_zero hf (by linarith)).symm
    · have hseen : l ∉ seen :=
        fun hmem => List.disjoint_of_nodup_append hnodup hmem List.mem_cons_self
      have hlater : l ∉ more := (List.nodup_cons.mp hnodup.of_append_right).1
      have hassoc : seen ++ l :: more = seen ++ [l] ++ more := by simp
      rw [hassoc] at hf hnodup hR ⊢
      have hserved := anyOf_le_append _ _ hf
      have hbefore := anyOf_le_append seen [l]
        (fun m hm => hf m (List.mem_append_left _ hm))
      set next := (supers.filter (fun s => !decide (s ∈ d.below l))).insert l
      have hnext : next.toList.Perm (seen ++ [l]) :=
        (supers_of_none hnone (fun hmem => hseen (hsupers.mem_iff.mp hmem))).trans
          (hsupers.append_right [l])
      have hleft : (remaining (fun _ => f) excluded rest next).get 0 = R - anyOf f (seen ++ [l]) := by
        have hfree : outside (fun _ : Fin 1 => f) next 0 - excluded.get 0 =
            R - anyOf f (seen ++ [l]) := by
          rw [outside_eq_neither, hexcluded, ← anyOf_perm hnext, anyOf]
          ring
        rw [get_remaining, hfree, hrest, max_eq_right (by linarith), min_eq_right (by linarith)]
      obtain ⟨hend, hmass⟩ := ih hnext
        (fun m => notMem_union_below.mpr ⟨hcovered m, hnone m l⟩) hf hnodup hleft hR
      rw [throughGroup, if_neg hout]
      dsimp only
      rw [if_neg (hcovered l)]
      refine ⟨hend, fun before m after hsplit => ?_⟩
      rw [massOn_cons]
      cases before with
      | nil =>
        obtain ⟨rfl, rfl⟩ := List.cons.inj hsplit
        rw [if_pos rfl, get_ofFn, massOn_eq_zero (p := (· = l))
          (fun v hv (heq : v.label = l) => hlater (heq ▸ throughGroup_label v hv)), add_zero,
          List.append_nil]
        change rest.get 0 - (remaining (fun _ => f) excluded rest next).get 0 = _
        rw [hrest, hleft, anyOf_concat]
        ring
      | cons b before =>
        obtain ⟨rfl, rfl⟩ := List.cons.inj hsplit
        have hne : l ≠ m := fun heq => hlater (heq ▸ by simp)
        rw [if_neg hne, zero_add, hmass before m after rfl, List.append_assoc, List.singleton_append]

end Group

section Groups

variable {sort : OrderedSet LabelId → List LabelId} {groups : List (OrderedSet LabelId)}
  {excluded rest : Vector ℚ 1} {group : ℕ} {visits earlier later : List (Visit ℚ 1)}

/-- The mass of a list of independent labels: together the probability of any of them, and each in
its turn its share of the nodes without those before it. -/
structure Independent (f : LabelId → ℚ) (labels : List LabelId) (visits : List (Visit ℚ 1)) :
    Prop where
  total : massOn 0 (· ∈ labels) visits = anyOf f labels
  each : ∀ before l after, labels = before ++ l :: after →
    massOn 0 (· = l) visits = f l * neither f before

/-- Impossible labels may be left out. -/
theorem independent_nil (hf : ∀ l ∈ labels, IsShare (f l)) (hall : anyOf f labels ≤ 0) :
    Independent f labels [] where
  total := le_antisymm (anyOf_nonneg hf) hall
  each before l after hsplit := by
    subst hsplit
    have hbefore := anyOf_nonneg (fun m hm => hf m (List.mem_append_left _ hm))
    exact (share_eq_zero hf (hall.trans hbefore)).symm

/-- The visits of other labels do not matter. -/
theorem Independent.among (h : Independent f labels visits)
    (hearlier : ∀ v ∈ earlier, v.label ∉ labels) (hlater : ∀ v ∈ later, v.label ∉ labels) :
    Independent f labels (earlier ++ (visits ++ later)) := by
  have hframe : ∀ (p : LabelId → Prop) [DecidablePred p], (∀ l, p l → l ∈ labels) →
      massOn 0 p (earlier ++ (visits ++ later)) = massOn 0 p visits := by
    intro p _ hp
    have hnone : massOn 0 p earlier = 0 := massOn_eq_zero (fun v hv hl => hearlier v hv (hp _ hl))
    have hnone' : massOn 0 p later = 0 := massOn_eq_zero (fun v hv hl => hlater v hv (hp _ hl))
    rw [massOn_append, massOn_append, hnone, hnone', zero_add, add_zero]
  refine ⟨(hframe _ (fun _ => id)).trans h.total, fun before l after hsplit => ?_⟩
  exact (hframe _ (by rintro _ rfl; simp [hsplit])).trans (h.each before l after hsplit)

/-- A group takes the probability of its labels from what is left for it. -/
theorem throughGroup_takes (hnone : ∀ sub l, d.isBelow sub l = false)
    (hf : ∀ l ∈ labels, IsShare (f l)) (hnodup : labels.Nodup) (hR : anyOf f labels ≤ rest.get 0)
    (hexcluded : excluded.get 0 = 1 - rest.get 0) :
    (throughGroup d (fun _ => f) excluded group labels ∅ ∅ rest).rest.get 0 =
        rest.get 0 - anyOf f labels ∧
      Independent f labels (throughGroup d (fun _ => f) excluded group labels ∅ ∅ rest).visits := by
  have hsupers : (∅ : OrderedSet LabelId).toList.Perm [] := .nil
  set walk := throughGroup d (fun _ => f) excluded group labels ∅ ∅ rest
  have htotal : weight 0 (fun _ => 1) walk.visits + walk.rest.get 0 = rest.get 0 :=
    throughGroup_conserved 0
  obtain ⟨hleft, heach⟩ : walk.rest.get 0 = rest.get 0 - anyOf f labels ∧
      ∀ before l after, labels = before ++ l :: after →
        massOn 0 (· = l) walk.visits = f l * neither f before :=
    throughGroup_independent hnone hsupers OrderedSet.not_mem_empty hf hnodup hexcluded
      (by rw [anyOf_nil, sub_zero]) hR
  rw [hleft, ← massOn_eq_all (p := (· ∈ labels)) throughGroup_label] at htotal
  exact ⟨hleft, by linarith, heach⟩

/-- What the groups take is nothing if all of it is no more than that. -/
theorem independent_of_sum_nonpos (hf : ∀ l ∈ groups.flatMap sort, IsShare (f l))
    (hsum : (groups.map (fun g => anyOf f (sort g))).sum ≤ 0) :
    (groups.map (fun g => anyOf f (sort g))).sum = 0 ∧
      ∀ g ∈ groups, Independent f (sort g) [] := by
  have hshare : ∀ g ∈ groups, ∀ l ∈ sort g, IsShare (f l) :=
    fun g hg l hl => hf l (List.mem_flatMap.mpr ⟨g, hg, hl⟩)
  have hnonneg : ∀ x ∈ groups.map (fun g => anyOf f (sort g)), 0 ≤ x :=
    List.forall_mem_map.mpr (fun g hg => anyOf_nonneg (hshare g hg))
  refine ⟨le_antisymm hsum (List.sum_nonneg hnonneg), fun g hg => ?_⟩
  have hle := List.single_le_sum hnonneg _ (List.mem_map_of_mem hg)
  exact independent_nil (hshare g hg) (hle.trans hsum)

/-- Groups that are no more likely together than what is left each take their probability. -/
theorem throughGroups_takes (hnone : ∀ sub l, d.isBelow sub l = false)
    (hf : ∀ l ∈ groups.flatMap sort, IsShare (f l)) (hnodup : (groups.flatMap sort).Nodup)
    (hR : (groups.map (fun g => anyOf f (sort g))).sum ≤ rest.get 0) :
    (throughGroups d sort (fun _ => f) group groups rest).rest.get 0 =
        rest.get 0 - (groups.map (fun g => anyOf f (sort g))).sum ∧
      ∀ g ∈ groups, Independent f (sort g)
        (throughGroups d sort (fun _ => f) group groups rest).visits := by
  induction groups generalizing group rest with
  | nil => exact ⟨by simp [throughGroups], by simp⟩
  | cons g groups ih =>
    by_cases hout : exhausted rest = true
    · obtain ⟨hzero, hnothing⟩ :=
        independent_of_sum_nonpos hf (hR.trans (exhausted_one_iff.mp hout))
      rw [throughGroups_of_exhausted hout, hzero, sub_zero]
      exact ⟨rfl, hnothing⟩
    · rw [List.flatMap_cons] at hf hnodup
      rw [List.map_cons, List.sum_cons] at hR ⊢
      obtain ⟨hfirst, hlater⟩ := List.forall_mem_append.mp hf
      have hsum : 0 ≤ (groups.map (fun g => anyOf f (sort g))).sum :=
        List.sum_nonneg (List.forall_mem_map.mpr (fun h hh => anyOf_nonneg
          (fun l hl => hlater l (List.mem_flatMap.mpr ⟨h, hh, hl⟩))))
      have hdisjoint := List.disjoint_of_nodup_append hnodup
      rw [throughGroups, if_neg hout]
      dsimp only
      set first := throughGroup d (fun _ => f) (Vector.ofFn fun i => 1 - rest[i]) group (sort g) ∅ ∅
        rest
      have hlabel : ∀ v ∈ first.visits, v.label ∈ sort g := throughGroup_label
      obtain ⟨hrest, htaken⟩ : first.rest.get 0 = rest.get 0 - anyOf f (sort g) ∧
          Independent f (sort g) first.visits :=
        throughGroup_takes hnone hfirst hnodup.of_append_left (by linarith) (get_ofFn _ 0)
      obtain ⟨hend, hmore⟩ := ih hlater hnodup.of_append_right (hrest.symm ▸ le_sub_iff_add_le'.mpr hR)
      refine ⟨by rw [hend, hrest, sub_add_eq_sub_sub], List.forall_mem_cons.mpr ⟨?_, fun h hh => ?_⟩⟩
      · exact htaken.among (fun v hv => absurd hv List.not_mem_nil) (fun v hv hmem =>
          hdisjoint hmem (List.mem_flatMap.mpr (throughGroups_label v hv)))
      · have hothers : ∀ v ∈ first.visits, v.label ∉ sort h := fun v hv hmem =>
          hdisjoint (hlabel v hv) (List.mem_flatMap.mpr ⟨h, hh, hmem⟩)
        have hamong := (hmore h hh).among hothers (fun v hv => absurd hv List.not_mem_nil)
        rwa [List.append_nil] at hamong

end Groups

/-- Without sub-labels, and with groups that are together no more likely than certain, the walk
gives each group the probability of any of its labels, and in any order of these each of them its
share of what none of those before it takes. The rest belongs to no group. -/
theorem complete_independent {sort : OrderedSet LabelId → List LabelId} {w : Walk ℚ 1}
    (hd : d.Made) (hnone : ∀ sub l, d.isBelow sub l = false)
    (hsort : ∀ g ∈ d.groups, (sort g).Perm g.toList) (hf : ∀ l ∈ d.labels, IsShare (f l))
    (hone : (d.groups.map (fun g => anyOf f g.toList)).sum ≤ 1)
    (hw : complete d sort (fun _ => f) = w) :
    w.rest.get 0 = 1 - (d.groups.map (fun g => anyOf f g.toList)).sum ∧
      ∀ g ∈ d.groups, massOn 0 (· ∈ g) w.visits = anyOf f g.toList ∧
        ∀ before l after, sort g = before ++ l :: after →
          massOn 0 (· = l) w.visits = f l * neither f before ∧
            ∀ v ∈ w.visits, v.label = l → v.mass.get 0 = f l * neither f before := by
  subst hw
  have hsorted : d.groups.map (fun g => anyOf f g.toList) =
      d.groups.map (fun g => anyOf f (sort g)) :=
    List.map_congr_left (fun g hg => (anyOf_perm (hsort g hg)).symm)
  have hshare : ∀ l ∈ d.groups.flatMap sort, IsShare (f l) := by
    intro l hl
    obtain ⟨g, hg, hl⟩ := List.mem_flatMap.mp hl
    exact hf l (Distribution.mem_labels.mpr ⟨g, hg, (hsort g hg).mem_iff.mp hl⟩)
  have hnodup := nodup_flatMap_sort hd.apart hsort
  have hfull : (Vector.replicate 1 (1 : ℚ)).get 0 = 1 := get_replicate 1 0
  rw [hsorted] at hone ⊢
  obtain ⟨hrest, hgroups⟩ := throughGroups_takes hnone hshare hnodup
    (hone.trans_eq hfull.symm)
  refine ⟨by rw [complete, hrest, hfull], fun g hg => ⟨?_, fun before l after hsplit => ?_⟩⟩
  · have htotal := (hgroups g hg).total
    simp only [(hsort g hg).mem_iff, anyOf_perm (hsort g hg)] at htotal
    exact htotal
  · have heach := (hgroups g hg).each before l after hsplit
    refine ⟨heach, fun v hv hlabel => ?_⟩
    rw [← massOn_label (throughGroups_sublist.nodup hnodup) hv, hlabel]
    exact heach

/-- Two labels that may meet, and one that meets neither. -/
def unrelated : Distribution := ⟨[OrderedSet.ofList [0, 1], OrderedSet.ofList [2]], ∅⟩

theorem made_unrelated : unrelated.Made := by
  have h : (Distribution.ofGroups [OrderedSet.ofList [2], OrderedSet.ofList [0, 1]] ∅ :
      Except (Failure ℚ) _) = .ok unrelated := Outcome.toOption_eq_some.mp (by decide +kernel)
  exact .ofGroups h

/-- A half of the nodes carries the first label, and a third each of the others. -/
def unrelatedShare (l : LabelId) : ℚ := if l = 0 then 1 / 2 else 1 / 3

/-- With the greatest label of each group first, each label takes a third of the nodes. -/
theorem complete_independent_reversed :
    unrelated.Made ∧ (∀ sub l, unrelated.isBelow sub l = false) ∧
      (∀ g ∈ unrelated.groups, g.toList.reverse.Perm g.toList) ∧
      (∀ l ∈ unrelated.labels, IsShare (unrelatedShare l)) ∧
      (unrelated.groups.map (fun g => anyOf unrelatedShare g.toList)).sum ≤ 1 ∧
      ∃ w, complete unrelated (fun g => g.toList.reverse) (fun _ : Fin 1 => unrelatedShare) = w ∧
        w.visits.map Visit.label = [1, 0, 2] ∧ massOn 0 (· = 0) w.visits = 1 / 3 ∧
        w.rest.get 0 = 0 := by
  have hnone : ∀ sub l, unrelated.isBelow sub l = false :=
    fun sub l => decide_eq_false List.not_mem_nil
  have hsort : ∀ g ∈ unrelated.groups, g.toList.reverse.Perm g.toList :=
    fun g _ => g.toList.reverse_perm
  have hf : ∀ l ∈ unrelated.labels, IsShare (unrelatedShare l) := by
    intro l _
    rw [unrelatedShare]
    split <;> constructor <;> norm_num
  have hsum : (unrelated.groups.map (fun g => anyOf unrelatedShare g.toList)).sum = 1 := by
    decide +kernel
  obtain ⟨hrest, hgroups⟩ := complete_independent made_unrelated hnone hsort hf hsum.le rfl
  obtain ⟨-, heach⟩ := hgroups (OrderedSet.ofList [0, 1]) List.mem_cons_self
  exact ⟨made_unrelated, hnone, hsort, hf, hsum.le, _, rfl, by decide +kernel,
    (heach [1] 0 [] rfl).1.trans (by decide +kernel), by rw [hrest, hsum, sub_self]⟩

end PatternCardinality.Estimate.Walk
