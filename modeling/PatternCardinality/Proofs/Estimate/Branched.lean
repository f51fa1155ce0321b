import Mathlib.Data.Bool.AllAny
import Mathlib.Tactic.NormNum
import PatternCardinality.Proofs.Estimate.Selected

/-!
# Labels whose order matters

Labels of one group that branch can have nodes in such numbers that two orders of selecting them
give different sizes: below a label that has been selected others are taken to be independent of
each other, and so they are taken to be among all nodes, but not both.
-/

namespace PatternCardinality.Estimate

open Labels Statistics

/-- Counts of nodes that some graph could have, and sub-labels inside groups. -/
structure Database.Plausible (db : Database ℚ) : Prop where
  made : ∃ groups direct, (Distribution.ofGroups groups direct : Except (Failure ℚ) _) =
    .ok db.distribution
  inside : ∀ sub l, db.distribution.isBelow sub l = true →
    ∃ g ∈ db.distribution.groups, sub ∈ g ∧ l ∈ g
  nonneg : ∀ l ∈ db.labels, 0 ≤ db.nodes l
  le_total : ∀ l ∈ db.labels, db.nodes l ≤ db.total
  le_super : ∀ sub l, db.distribution.isBelow sub l = true → db.nodes sub ≤ db.nodes l

theorem Database.Plausible.hierarchical {db : Database ℚ} (h : db.Plausible) :
    db.distribution.Hierarchical := by
  obtain ⟨groups, direct, hmade⟩ := h.made
  exact Distribution.hierarchical_of_ofGroups hmade h.inside

namespace Tally

variable {d : Distribution} {t t' : Tally} {T xs rest : List LabelId} {l x y z : LabelId}

theorem Agree.trans {t'' : Tally} (h : Agree T t t') (h' : Agree T t' t'') : Agree T t t'' :=
  ⟨h.1.trans h'.1, fun m hm => (h.2 m hm).trans (h'.2 m hm)⟩

theorem narrowed_of_group {share : LabelId → ℚ} {l m : LabelId}
    (hgroup : d.groupOf? m = d.groupOf? l) : narrowed d share l m =
      if d.Under l m then 1 else if d.Under m l then min (share m / share l) 1 else share m := by
  rw [narrowed, if_pos hgroup]

/-- Selections never make a result larger. -/
theorem run_size_le (hsize : 0 ≤ t.size) (hshare : ∀ m ∈ T, t.share m ≤ 1) (hxs : ∀ l ∈ xs, l ∈ T) :
    (t.run d xs).size ≤ t.size := by
  induction xs generalizing t with
  | nil => exact le_rfl
  | cons l xs ih =>
    obtain ⟨hl, hxs⟩ := List.forall_mem_cons.mp hxs
    change ((t.select d l).run d xs).size ≤ t.size
    rw [Tally.select]
    split
    · exact (ih (t := ⟨0, t.share⟩) le_rfl hshare hxs).trans hsize
    · next hkept =>
      have hpos : 0 < t.share l := not_le.mp hkept
      refine (ih (mul_nonneg hsize hpos.le) (fun m hm => ?_) hxs).trans
        (mul_le_of_le_one_right hsize (hshare l hl))
      change narrowed d t.share l m ≤ 1
      rw [narrowed]
      split
      · exact le_rfl
      · split
        · exact min_le_right _ _
        · split
          · exact hshare m hm
          · exact zero_le_one

section Group

variable (hgroup : ∀ l ∈ T, ∀ m ∈ T, d.groupOf? l = d.groupOf? m)

include hgroup

/-- Labels that are certain change nothing. -/
theorem run_size_of_certain (hshare : ∀ m ∈ T, t.share m = 1) (hxs : ∀ l ∈ xs, l ∈ T) :
    (t.run d xs).size = t.size := by
  induction xs generalizing t with
  | nil => rfl
  | cons l xs ih =>
    obtain ⟨hl, hxs⟩ := List.forall_mem_cons.mp hxs
    have hselect : t.select d l = ⟨t.size, narrowed d t.share l⟩ := by
      rw [select_of_pos (by rw [hshare l hl]; exact zero_lt_one), hshare l hl, mul_one]
    change ((t.select d l).run d xs).size = t.size
    rw [hselect]
    refine ih (fun m hm => ?_) hxs
    change narrowed d t.share l m = 1
    rw [narrowed_of_group (hgroup m hm l hl), hshare m hm, hshare l hl, div_one, min_self, ite_self,
      ite_self]

/-- What a selection comes to, given the share of the label that is selected. -/
theorem agree_select {size kept size' : ℚ} {share share' : LabelId → ℚ} (hl : l ∈ T)
    (hkept : share l = kept) (hpos : 0 < kept) (hsize : size * kept = size')
    (hshare : ∀ m ∈ T, (if d.Under l m then 1 else
      if d.Under m l then min (share m / kept) 1 else share m) = share' m) :
    Agree T ((⟨size, share⟩ : Tally).select d l) ⟨size', share'⟩ := by
  subst hkept
  rw [select_of_pos hpos]
  exact ⟨hsize, fun m hm => (narrowed_of_group (hgroup m hm l hl)).trans (hshare m hm)⟩

variable (hd : d.Hierarchical) (hx : x ∈ T) (hy : y ∈ T) (hz : z ∈ T) (hxz : ¬d.Comparable x z)
  (hrest : ∀ l ∈ rest, l ∈ T)

include hd hx hy hz hxz hrest

/-- Shares of labels, two of which lie below a third. -/
def forked (d : Distribution) (x y z m : LabelId) : ℚ :=
  if d.Under m x ∨ d.Under m z then 1 / 3 else if d.Under m y then 1 / 2 else 1

/-- From above, the two are taken to be independent among the nodes of the third. -/
theorem run_forked_from_above (hxy : d.Under x y) (hzy : d.Under z y)
    (ht : Agree T t ⟨18, forked d x y z⟩) : (t.run d (y :: x :: z :: rest)).size = 4 := by
  have hyx : ¬d.Under y x := fun hyx => hxz (Or.inr (hd.trans hzy hyx))
  have hyz : ¬d.Under y z := fun hyz => hxz (Or.inl (hd.trans hxy hyz))
  have hzx : ¬d.Under z x := fun hzx => hxz (Or.inr hzx)
  have hbelow : ∀ {m}, d.Under m x ∨ d.Under m z → d.Under m y ∧ ¬d.Under y m := by
    rintro m (hm | hm)
    · exact ⟨hd.trans hm hxy, fun hym => hyx (hd.trans hym hm)⟩
    · exact ⟨hd.trans hm hzy, fun hym => hyz (hd.trans hym hm)⟩
  have h₁ : Agree T ((⟨18, forked d x y z⟩ : Tally).select d y)
      ⟨9, fun m => if d.Under m x ∨ d.Under m z then 2 / 3 else 1⟩ := by
    have hkept : forked d x y z y = 1 / 2 := by
      rw [forked, if_neg (not_or.mpr ⟨hyx, hyz⟩), if_pos (Distribution.under_refl d y)]
    refine agree_select hgroup hy hkept (by norm_num) (by norm_num) (fun m hm => ?_)
    rw [forked]
    by_cases hm : d.Under m x ∨ d.Under m z
    · obtain ⟨hmy, hym⟩ := hbelow hm
      rw [if_neg hym, if_pos hmy, if_pos hm, if_pos hm]
      norm_num
    · rw [if_neg hm, if_neg hm]
      split_ifs <;> norm_num
  have h₂ : Agree T ((⟨9, fun m => if d.Under m x ∨ d.Under m z then 2 / 3 else 1⟩ :
      Tally).select d x) ⟨6, fun m => if d.Under m z ∧ ¬d.Under m x then 2 / 3 else 1⟩ := by
    refine agree_select hgroup hx (if_pos (Or.inl (Distribution.under_refl d x))) (by norm_num)
      (by norm_num) (fun m hm => ?_)
    by_cases hxm : d.Under x m
    · rw [if_pos hxm, if_neg (fun hm => hxz (Or.inl (hd.trans hxm hm.1)))]
    · rw [if_neg hxm]
      by_cases hmx : d.Under m x
      · rw [if_pos hmx, if_pos (Or.inl hmx), if_neg (fun hm => hm.2 hmx)]
        norm_num
      · rw [if_neg hmx]
        simp only [hmx, false_or, not_false_eq_true, and_true]
  have h₃ : Agree T ((⟨6, fun m => if d.Under m z ∧ ¬d.Under m x then 2 / 3 else 1⟩ :
      Tally).select d z) ⟨4, fun _ => 1⟩ := by
    refine agree_select hgroup hz (if_pos ⟨Distribution.under_refl d z, hzx⟩) (by norm_num)
      (by norm_num) (fun m hm => ?_)
    by_cases hmz : d.Under m z
    · split_ifs <;> norm_num
    · have hnot : ¬(d.Under m z ∧ ¬d.Under m x) := fun hboth => hmz hboth.1
      rw [if_neg hmz, if_neg hnot, ite_self]
  have hall : Agree T (((t.select d y).select d x).select d z) ⟨4, fun _ => 1⟩ :=
    ((((ht.select hy).trans h₁).select hx).trans h₂ |>.select hz).trans h₃
  change ((((t.select d y).select d x).select d z).run d rest).size = 4
  rw [run_size_of_certain hgroup (fun m hm => hall.2 m hm) hrest, hall.1]

omit hd in
/-- From below, they are taken to be independent among all nodes. -/
theorem run_forked_from_below (ht : Agree T t ⟨18, forked d x y z⟩) :
    (t.run d (x :: z :: y :: rest)).size ≤ 2 := by
  have hx' : forked d x y z x = 1 / 3 := if_pos (Or.inl (Distribution.under_refl d x))
  have hz' : forked d x y z z = 1 / 3 := if_pos (Or.inr (Distribution.under_refl d z))
  have hle : ∀ m, forked d x y z m ≤ 1 := by
    intro m
    rw [forked]
    split_ifs <;> norm_num
  have h₁ : Agree T ((⟨18, forked d x y z⟩ : Tally).select d x)
      ⟨6, narrowed d (forked d x y z) x⟩ :=
    agree_select hgroup hx hx' (by norm_num) (by norm_num)
      (fun m hm => by rw [narrowed_of_group (hgroup m hm x hx), hx'])
  have h₂ : Agree T ((⟨6, narrowed d (forked d x y z) x⟩ : Tally).select d z)
      ⟨2, narrowed d (narrowed d (forked d x y z) x) z⟩ := by
    have hkept := (narrowed_of_apart hxz (hgroup z hz x hx)).trans hz'
    exact agree_select hgroup hz hkept (by norm_num) (by norm_num)
      (fun m hm => by rw [narrowed_of_group (hgroup m hm z hz), hkept])
  have hall := (((ht.select hx).trans h₁).select hz).trans h₂
  have hone : ∀ {share : LabelId → ℚ}, (∀ m, share m ≤ 1) → ∀ l m, narrowed d share l m ≤ 1 := by
    intro share hshare l m
    rw [narrowed]
    split_ifs
    · exact le_rfl
    · exact min_le_right _ _
    · exact hshare m
    · exact zero_le_one
  change (((t.select d x).select d z).run d (y :: rest)).size ≤ 2
  refine (run_size_le (hall.1 ▸ zero_le_two) (fun m hm => ?_)
    (List.forall_mem_cons.mpr ⟨hy, hrest⟩)).trans_eq hall.1
  rw [hall.2 m hm]
  exact hone (hone hle x) z m

/-- Shares of labels, two of which lie above a third. -/
def joined (d : Distribution) (x z m : LabelId) : ℚ :=
  if d.Under m x ∧ d.Under m z then 3 / 8 else if d.Under m x ∨ d.Under m z then 1 / 2 else 1

omit hy in
/-- From above, the two are taken to be independent. -/
theorem run_joined_from_above (ht : Agree T t ⟨8, joined d x z⟩) :
    (t.run d (x :: z :: rest)).size = 2 := by
  have hzx : ¬d.Under z x := fun hzx => hxz (Or.inr hzx)
  have hxz' : ¬d.Under x z := fun hxz' => hxz (Or.inl hxz')
  have hx' : joined d x z x = 1 / 2 := by
    rw [joined, if_neg (fun h => hxz' h.2), if_pos (Or.inl (Distribution.under_refl d x))]
  have h₁ : Agree T ((⟨8, joined d x z⟩ : Tally).select d x)
      ⟨4, fun m => if d.Under m z then (if d.Under m x then 3 / 4 else 1 / 2) else 1⟩ := by
    refine agree_select hgroup hx hx' (by norm_num) (by norm_num) (fun m hm => ?_)
    rw [joined]
    by_cases hxm : d.Under x m
    · rw [if_pos hxm, if_neg (fun hmz => hxz' (hd.trans hxm hmz))]
    · rw [if_neg hxm]
      by_cases hmx : d.Under m x <;> by_cases hmz : d.Under m z <;>
        (simp [hmx, hmz]; try norm_num)
  have h₂ : Agree T ((⟨4, fun m => if d.Under m z then (if d.Under m x then 3 / 4 else 1 / 2) else
      1⟩ : Tally).select d z) ⟨2, fun _ => 1⟩ := by
    have hz' : (if d.Under z z then (if d.Under z x then 3 / 4 else 1 / 2) else 1 : ℚ) = 1 / 2 := by
      rw [if_pos (Distribution.under_refl d z), if_neg hzx]
    refine agree_select hgroup hz hz' (by norm_num) (by norm_num) (fun m hm => ?_)
    by_cases hmz : d.Under m z
    · split_ifs <;> norm_num
    · rw [if_neg hmz, if_neg hmz, ite_self]
  have hall := (((ht.select hx).trans h₁).select hz).trans h₂
  change (((t.select d x).select d z).run d rest).size = 2
  rw [run_size_of_certain hgroup (fun m hm => hall.2 m hm) hrest, hall.1]

omit hxz hd in
/-- From below, the third makes both certain, and all that are not below one of them are so already.
-/
theorem run_joined_from_below (hyx : d.Under y x) (hyz : d.Under y z)
    (hchain : ∀ m ∈ T, d.Under m x ∨ d.Under m z → d.Comparable y m)
    (hboth : ∀ m, d.Under m y → d.Under m x ∧ d.Under m z)
    (ht : Agree T t ⟨8, joined d x z⟩) : (t.run d (y :: x :: z :: rest)).size = 3 := by
  have hy' : joined d x z y = 3 / 8 := if_pos ⟨hyx, hyz⟩
  have h₁ : Agree T ((⟨8, joined d x z⟩ : Tally).select d y) ⟨3, fun _ => 1⟩ := by
    refine agree_select hgroup hy hy' (by norm_num) (by norm_num) (fun m hm => ?_)
    rw [joined]
    by_cases hym : d.Under y m
    · rw [if_pos hym]
    · rw [if_neg hym]
      by_cases hmy : d.Under m y
      · rw [if_pos hmy, if_pos (hboth m hmy)]
        norm_num
      · have hmxz : ¬(d.Under m x ∨ d.Under m z) :=
          fun hmxz => (hchain m hm hmxz).elim hym hmy
        rw [if_neg hmy, if_neg (fun h => hmxz (Or.inl h.1)), if_neg hmxz]
  have hall := (ht.select hy).trans h₁
  change ((t.select d y).run d (x :: z :: rest)).size = 3
  rw [run_size_of_certain hgroup (fun m hm => hall.2 m hm)
    (List.forall_mem_cons.mpr ⟨hx, List.forall_mem_cons.mpr ⟨hz, hrest⟩⟩), hall.1]

end Group

end Tally

/-- Statistics that count nodes by label. -/
def counted (d : Distribution) (total : ℚ) (count : LabelId → ℚ) : Database ℚ :=
  ⟨⟨{ Store.empty total with labelCounts := OrderedMap.tabulate count d.labels }, false⟩, d⟩

section Counted

variable {d : Distribution} {total : ℚ} {count : LabelId → ℚ} {l : LabelId} {xs : List LabelId}
  {x y z : LabelId}

theorem counted_nodes (hany : anyLabel ∉ d.labels) (hl : l ∈ d.labels) :
    (counted d total count).nodes l = count l := by
  have hne : l ≠ anyLabel := fun heq => hany (heq ▸ hl)
  change (if l = anyLabel then total else (OrderedMap.tabulate count d.labels).getD l 0) = count l
  rw [if_neg hne, OrderedMap.getD, OrderedMap.get?_tabulate, if_pos hl]
  rfl

theorem plausible_counted (hd : d.Hierarchical)
    (hmade : ∃ groups direct, (Distribution.ofGroups groups direct : Except (Failure ℚ) _) = .ok d)
    (hany : anyLabel ∉ d.labels) (hpos : ∀ l, 0 < count l) (hle : ∀ l, count l ≤ total)
    (hmono : ∀ l m, d.Under l m → count l ≤ count m) : (counted d total count).Plausible where
  made := hmade
  inside := hd.inside
  nonneg := fun l hl => (counted_nodes hany hl).symm ▸ (hpos l).le
  le_total := fun l hl => (counted_nodes hany hl).symm ▸ hle l
  le_super := by
    intro sub l hbelow
    obtain ⟨g, hg, hsub, hl⟩ := hd.inside sub l hbelow
    rw [counted_nodes hany (Distribution.mem_labels.mpr ⟨g, hg, hsub⟩),
      counted_nodes hany (Distribution.mem_labels.mpr ⟨g, hg, hl⟩)]
    exact hmono sub l (Or.inr hbelow)

theorem start_counted (hany : anyLabel ∉ d.labels) (htotal : 0 < total)
    (hxs : ∀ l ∈ xs, l ∈ d.labels) (share : LabelId → ℚ) :
    Tally.Agree xs (Tally.start (counted d total (fun l => total * share l))) ⟨total, share⟩ := by
  refine ⟨rfl, fun l hl => ?_⟩
  change (if 0 < total then (counted d total _).nodes l / total else 0) = share l
  rw [if_pos htotal, counted_nodes hany (hxs l hl), mul_div_cancel_left₀ _ htotal.ne']

theorem forked_mono (hd : d.Hierarchical) (l m : LabelId) (hlm : d.Under l m) :
    Tally.forked d x y z l ≤ Tally.forked d x y z m := by
  have hx : d.Under m x → d.Under l x := hd.trans hlm
  have hy : d.Under m y → d.Under l y := hd.trans hlm
  have hz : d.Under m z → d.Under l z := hd.trans hlm
  rw [Tally.forked, Tally.forked]
  split_ifs <;> first | (exfalso; tauto) | norm_num

theorem joined_mono (hd : d.Hierarchical) (l m : LabelId) (hlm : d.Under l m) :
    Tally.joined d x z l ≤ Tally.joined d x z m := by
  have hx : d.Under m x → d.Under l x := hd.trans hlm
  have hz : d.Under m z → d.Under l z := hd.trans hlm
  rw [Tally.joined, Tally.joined]
  split_ifs <;> first | (exfalso; tauto) | norm_num

theorem forked_bounds (d : Distribution) (x y z l : LabelId) :
    0 < Tally.forked d x y z l ∧ Tally.forked d x y z l ≤ 1 := by
  rw [Tally.forked]
  split_ifs <;> norm_num

theorem joined_bounds (d : Distribution) (x z l : LabelId) :
    0 < Tally.joined d x z l ∧ Tally.joined d x z l ≤ 1 := by
  rw [Tally.joined]
  split_ifs <;> norm_num

/-- Three members of a list can stand in front, with one of them before or after the others. -/
theorem exists_perms (hx : x ∈ xs) (hy : y ∈ xs) (hz : z ∈ xs) (hxy : x ≠ y) (hzy : z ≠ y)
    (hzx : z ≠ x) : ∃ rest, (y :: x :: z :: rest).Perm xs ∧ (x :: z :: y :: rest).Perm xs := by
  have hx' : x ∈ xs.erase y := (List.mem_erase_of_ne hxy).mpr hx
  have hz' : z ∈ (xs.erase y).erase x :=
    (List.mem_erase_of_ne hzx).mpr ((List.mem_erase_of_ne hzy).mpr hz)
  have hfirst : (y :: x :: z :: ((xs.erase y).erase x).erase z).Perm xs :=
    ((List.perm_cons_erase hy).trans
      (((List.perm_cons_erase hx').trans ((List.perm_cons_erase hz').cons x)).cons y)).symm
  exact ⟨_, hfirst, (((List.Perm.swap y z _).cons x).trans (.swap y x _)).trans hfirst⟩

/-- For some total and some shares in accord with the hierarchy, two orders of the labels give
different sizes. -/
def OrderShows (d : Distribution) (xs : List LabelId) : Prop :=
  ∃ (total : ℚ) (share : LabelId → ℚ), 0 < total ∧ (∀ l, 0 < share l ∧ share l ≤ 1) ∧
    (∀ l m, d.Under l m → share l ≤ share m) ∧ ∃ ys zs, ys.Perm xs ∧ zs.Perm xs ∧
      ∀ t, Tally.Agree xs t ⟨total, share⟩ → (t.run d ys).size ≠ (t.run d zs).size

section Shows

variable (hd : d.Hierarchical) (hgroup : ∀ l ∈ xs, ∀ m ∈ xs, d.groupOf? l = d.groupOf? m)
  (hx : x ∈ xs) (hy : y ∈ xs) (hz : z ∈ xs) (hxz : ¬d.Comparable x z)

include hd hgroup hx hy hz hxz

theorem orderShows_of_fork (hxy : d.Under x y) (hzy : d.Under z y) : OrderShows d xs := by
  have hxy' : x ≠ y := fun heq => hxz (Or.inr (heq ▸ hzy))
  have hzy' : z ≠ y := fun heq => hxz (Or.inl (heq ▸ hxy))
  have hzx : z ≠ x := fun heq => hxz (heq ▸ Distribution.comparable_refl d z)
  obtain ⟨rest, hfirst, hlast⟩ := exists_perms hx hy hz hxy' hzy' hzx
  have hrest : ∀ l ∈ rest, l ∈ xs := fun l hl => hfirst.mem_iff.mp (by simp [hl])
  refine ⟨18, Tally.forked d x y z, by norm_num, forked_bounds d x y z, forked_mono hd, _, _,
    hfirst, hlast, fun t ht => ?_⟩
  have habove := Tally.run_forked_from_above hgroup hd hx hy hz hxz hrest hxy hzy ht
  have hbelow := Tally.run_forked_from_below hgroup hx hy hz hxz hrest ht
  linarith

/-- Labels below one of the two must be comparable with the third: otherwise they fork. -/
theorem orderShows_of_join (hyx : d.Under y x) (hyz : d.Under y z)
    (hchain : ∀ m ∈ xs, d.Under m x ∨ d.Under m z → d.Comparable y m) : OrderShows d xs := by
  have hxy : x ≠ y := fun heq => hxz (Or.inl (heq ▸ hyz))
  have hzy : z ≠ y := fun heq => hxz (Or.inr (heq ▸ hyx))
  have hzx : z ≠ x := fun heq => hxz (heq ▸ Distribution.comparable_refl d z)
  obtain ⟨rest, hfirst, hlast⟩ := exists_perms hx hy hz hxy hzy hzx
  have hrest : ∀ l ∈ y :: rest, l ∈ xs := fun l hl =>
    hfirst.mem_iff.mp (by rcases List.mem_cons.mp hl with rfl | hl <;> simp [*])
  refine ⟨8, Tally.joined d x z, by norm_num, joined_bounds d x z, joined_mono hd, _, _, hfirst,
    hlast, fun t ht => ?_⟩
  have hbelow := Tally.run_joined_from_below hgroup hx hy hz
    (fun l hl => hrest l (List.mem_cons_of_mem y hl)) hyx hyz hchain
    (fun m hmy => ⟨hd.trans hmy hyx, hd.trans hmy hyz⟩) ht
  have habove := Tally.run_joined_from_above hgroup hd hx hz hxz hrest ht
  rw [hbelow, habove]
  norm_num

end Shows

/-- Where labels branch, their order shows. -/
theorem orderShows_of_branched (hd : d.Hierarchical)
    (hgroup : ∀ l ∈ xs, ∀ m ∈ xs, d.groupOf? l = d.groupOf? m) (hxs : ¬d.Unbranched xs) :
    OrderShows d xs := by
  -- a label above two that are not comparable is preferred: without one, labels below another
  -- are a chain
  by_cases hfork : ∃ x ∈ xs, ∃ y ∈ xs, ∃ z ∈ xs, ¬d.Comparable x z ∧ d.Under x y ∧ d.Under z y
  · obtain ⟨x, hx, y, hy, z, hz, hxz, hxy, hzy⟩ := hfork
    exact orderShows_of_fork hd hgroup hx hy hz hxz hxy hzy
  · obtain ⟨x, hx, y, hy, z, hz, hxz, hbranch⟩ := hd.exists_of_not_unbranched hxs
    obtain ⟨hyx, hyz⟩ := hbranch.resolve_left
      (fun hfork' => hfork ⟨x, hx, y, hy, z, hz, hxz, hfork'⟩)
    refine orderShows_of_join hd hgroup hx hy hz hxz hyx hyz (fun m hm hmxz => ?_)
    by_contra hym
    rcases hmxz with hmx | hmz
    · exact hfork ⟨y, hy, x, hx, m, hm, hym, hyx, hmx⟩
    · exact hfork ⟨y, hy, z, hz, m, hm, hym, hyz, hmz⟩

end Counted

section Order

variable {db : Database ℚ} (h : db.Plausible) (v : String) {xs : List LabelId}
  (hxs : ∀ l ∈ xs, l ∈ db.labels)

include h hxs

theorem level_start (hpos : ∀ l ∈ xs, 0 < db.nodes l)
    (hgroup : ∀ l ∈ xs, ∀ m ∈ xs, db.distribution.groupOf? l = db.distribution.groupOf? m) :
    Tally.Level db.distribution xs (Tally.start db).share := by
  have hshare : ∀ l ∈ xs, 0 < db.total ∧ (Tally.start db).share l = db.nodes l / db.total := by
    intro l hl
    have htotal : 0 < db.total := (hpos l hl).trans_le (h.le_total l (hxs l hl))
    exact ⟨htotal, if_pos htotal⟩
  refine ⟨hgroup, fun l hl => ?_, fun l hl => ?_, fun l hl m hm hlm => ?_⟩
  · obtain ⟨htotal, heq⟩ := hshare l hl
    exact heq ▸ div_pos (hpos l hl) htotal
  · obtain ⟨htotal, heq⟩ := hshare l hl
    exact heq ▸ (div_le_one htotal).mpr (h.le_total l (hxs l hl))
  · obtain ⟨htotal, heq⟩ := hshare l hl
    rw [heq, (hshare m hm).2, div_le_div_iff_of_pos_right htotal]
    rcases hlm with rfl | hlm
    · exact le_rfl
    · exact h.le_super l m hlm

theorem run_start_eq_of_perm {ys : List LabelId} (hperm : ys.Perm xs)
    (hcase : (∃ l ∈ xs, db.nodes l = 0) ∨
      (∃ l ∈ xs, ∃ m ∈ xs, db.distribution.groupOf? l ≠ db.distribution.groupOf? m) ∨
      db.distribution.Unbranched xs) :
    ((Tally.start db).run db.distribution ys).size =
      ((Tally.start db).run db.distribution xs).size := by
  have hd := h.hierarchical
  by_cases hnone : ∃ l ∈ xs, db.nodes l = 0
  · obtain ⟨l, hl, hnone⟩ := hnone
    rw [Tally.run_start_of_nodes hd h.le_super hl hnone.le,
      Tally.run_start_of_nodes hd h.le_super (hperm.mem_iff.mpr hl) hnone.le]
  · by_cases hgroups : ∃ l ∈ xs, ∃ m ∈ xs, db.distribution.groupOf? l ≠ db.distribution.groupOf? m
    · obtain ⟨l, hl, m, hm, hlm⟩ := hgroups
      rw [Tally.run_size_of_groups hd hl hm hlm,
        Tally.run_size_of_groups hd (hperm.mem_iff.mpr hl) (hperm.mem_iff.mpr hm) hlm]
    · have hunbranched := (hcase.resolve_left hnone).resolve_left hgroups
      have hpos : ∀ l ∈ xs, 0 < db.nodes l := fun l hl =>
        lt_of_le_of_ne (h.nonneg l (hxs l hl)) (fun heq => hnone ⟨l, hl, heq.symm⟩)
      have hlevel := level_start h hxs hpos
        (fun l hl m hm => by_contra (fun hlm => hgroups ⟨l, hl, m, hm, hlm⟩))
      exact (Tally.run_agree_of_perm hd hunbranched hperm (fun l hl => hperm.mem_iff.mp hl)
        hlevel).1

/-- The order in which labels are selected among all nodes does not matter if one of them has no
nodes, if two are in different groups, or if they do not branch. For labels of one group that do
branch there are counts, all of them positive, for which it does. -/
theorem selectAll_order :
    ((∃ l ∈ xs, db.nodes l = 0) ∨
        (∃ l ∈ xs, ∃ m ∈ xs, db.distribution.groupOf? l ≠ db.distribution.groupOf? m) ∨
        db.distribution.Unbranched xs →
      ∀ ys, ys.Perm xs → ∃ p p', selectAll db v xs = .ok p ∧ selectAll db v ys = .ok p' ∧
        p'.size = p.size) ∧
      (anyLabel ∉ db.labels →
        (∀ l ∈ xs, ∀ m ∈ xs, db.distribution.groupOf? l = db.distribution.groupOf? m) →
        ¬db.distribution.Unbranched xs →
        ∃ db' : Database ℚ, db'.distribution = db.distribution ∧ db'.Plausible ∧
          (∀ l ∈ db'.labels, 0 < db'.nodes l) ∧
          ∃ ys zs, ys.Perm xs ∧ zs.Perm xs ∧ ∃ p p', selectAll db' v ys = .ok p ∧
            selectAll db' v zs = .ok p' ∧ p.size ≠ p'.size) := by
  have hd := h.hierarchical
  constructor
  · intro hcase ys hperm
    obtain ⟨p, hp, hsize⟩ := Tally.selectAll_size (v := v) hxs
    obtain ⟨p', hp', hsize'⟩ := Tally.selectAll_size (v := v)
      (fun l hl => hxs l (hperm.mem_iff.mp hl))
    refine ⟨p, p', hp, hp', ?_⟩
    rw [hsize, hsize', run_start_eq_of_perm h hxs hperm hcase]
  · intro hany hgroup hbranched
    obtain ⟨total, share, htotal, hshare, hmono, ys, zs, hys, hzs, hsizes⟩ :=
      orderShows_of_branched hd hgroup hbranched
    set db' := counted db.distribution total (fun l => total * share l) with hdb'
    have hcounted : db'.Plausible :=
      plausible_counted hd h.made hany (fun l => mul_pos htotal (hshare l).1)
        (fun l => mul_le_of_le_one_right htotal.le (hshare l).2)
        (fun l m hlm => mul_le_mul_of_nonneg_left (hmono l m hlm) htotal.le)
    have hselect : ∀ ws : List LabelId, ws.Perm xs → ∃ p, selectAll db' v ws = .ok p ∧
        p.size = ((Tally.start db').run db.distribution ws).size :=
      fun ws hws => Tally.selectAll_size (fun l hl => hxs l (hws.mem_iff.mp hl))
    obtain ⟨p, hp, hsize⟩ := hselect ys hys
    obtain ⟨p', hp', hsize'⟩ := hselect zs hzs
    refine ⟨db', rfl, hcounted, fun l hl => ?_, ys, zs, hys, hzs, p, p', hp, hp', ?_⟩
    · rw [hdb', counted_nodes hany hl]
      exact mul_pos htotal (hshare l).1
    · rw [hsize, hsize']
      exact hsizes _ (start_counted hany htotal hxs share)

end Order

/-- A label with two others below it. -/
def siblings : Database ℚ :=
  counted ⟨[OrderedSet.ofList [0, 1, 2]], .singleton 0 (OrderedSet.ofList [1, 2])⟩ 8
    (fun l => if l = 0 then 4 else 2)

theorem siblings_made : (Distribution.ofGroups [OrderedSet.ofList [0, 1, 2]]
    (.singleton 0 (OrderedSet.ofList [1, 2])) : Except (Failure ℚ) _) =
      .ok siblings.distribution :=
  Outcome.toOption_eq_some.mp (by decide +kernel)

theorem plausible_siblings : siblings.Plausible := by
  have hbelow : ∀ sub l, siblings.distribution.isBelow sub l = true →
      l = 0 ∧ (sub = 1 ∨ sub = 2) := by
    intro sub l h
    have hmem : sub ∈ ((OrderedMap.singleton 0 (OrderedSet.ofList [1, 2]) :
        SubLabels).get? l).getD ∅ := of_decide_eq_true h
    rw [OrderedMap.get?_singleton] at hmem
    split at hmem
    · next hl =>
      rw [Option.getD_some, OrderedSet.mem_ofList] at hmem
      exact ⟨hl, by simpa using hmem⟩
    · exact absurd hmem List.not_mem_nil
  have hnodes : ∀ l ∈ siblings.labels.toList, 0 ≤ siblings.nodes l ∧
      siblings.nodes l ≤ siblings.total := List.all_iff_forall_prop.mp (by decide +kernel)
  refine ⟨⟨_, _, siblings_made⟩, fun sub l h => ?_, fun l hl => (hnodes l hl).1,
    fun l hl => (hnodes l hl).2, fun sub l h => ?_⟩
  · obtain ⟨rfl, rfl | rfl⟩ := hbelow sub l h <;>
      exact ⟨_, List.mem_cons_self, by decide, by decide⟩
  · obtain ⟨rfl, rfl | rfl⟩ := hbelow sub l h <;> decide +kernel

theorem groupOf?_siblings : ∀ l ∈ [(0 : LabelId), 1, 2],
    l ∈ siblings.labels ∧ siblings.distribution.groupOf? l = some 0 :=
  List.all_iff_forall_prop.mp (by decide +kernel)

theorem selectAll_order_siblings :
    siblings.Plausible ∧ siblings.distribution.Unbranched [0, 1] ∧
      (∃ p p', selectAll siblings "a" [0, 1] = .ok p ∧ selectAll siblings "a" [1, 0] = .ok p' ∧
        p'.size = p.size) ∧
      ¬siblings.distribution.Unbranched [0, 1, 2] ∧
      ∃ db' : Database ℚ, db'.distribution = siblings.distribution ∧
        ∃ ys zs, ys.Perm [0, 1, 2] ∧ zs.Perm [0, 1, 2] ∧ ∃ p p', selectAll db' "a" ys = .ok p ∧
          selectAll db' "a" zs = .ok p' ∧ p.size ≠ p'.size := by
  have hunbranched : siblings.distribution.Unbranched [0, 1] := by decide +kernel
  have hbranched : ¬siblings.distribution.Unbranched [0, 1, 2] := by decide +kernel
  have hpair : ∀ l ∈ [(0 : LabelId), 1], l ∈ siblings.labels :=
    fun l hl => (groupOf?_siblings l (List.mem_of_mem_dropLast hl)).1
  obtain ⟨hsame, -⟩ := selectAll_order plausible_siblings "a" hpair
  obtain ⟨-, hdiffer⟩ := selectAll_order plausible_siblings "a"
    (fun l hl => (groupOf?_siblings l hl).1)
  obtain ⟨db', hdb', -, -, hsizes⟩ := hdiffer (by decide +kernel)
    (fun l hl m hm => (groupOf?_siblings l hl).2.trans (groupOf?_siblings m hm).2.symm) hbranched
  exact ⟨plausible_siblings, hunbranched,
    hsame (Or.inr (Or.inr hunbranched)) [1, 0] (.swap 0 1 []), hbranched, db', hdb', hsizes⟩

/-- Selected before its sub-labels, a label makes them independent among its own nodes; selected
after them it changes nothing any more. -/
theorem selectAll_order_matters :
    siblings.Plausible ∧ (∀ l ∈ [(0 : LabelId), 1, 2], l ∈ siblings.labels) ∧
      [(1 : LabelId), 2, 0].Perm [0, 1, 2] ∧
      (selectAll siblings "a" [0, 1, 2]).toOption.map Profile.size = some 1 ∧
      (selectAll siblings "a" [1, 2, 0]).toOption.map Profile.size = some (1 / 2) :=
  ⟨plausible_siblings, fun l hl => (groupOf?_siblings l hl).1, by decide, by decide +kernel,
    by decide +kernel⟩

end PatternCardinality.Estimate
