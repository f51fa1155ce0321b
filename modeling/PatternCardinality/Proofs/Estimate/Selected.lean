import PatternCardinality.Proofs.Estimate.Binding
import PatternCardinality.Proofs.Estimate.Operator
import PatternCardinality.Proofs.Labels.Branching
import PatternCardinality.Proofs.Number.Exact

/-!
# Labels selected one after the other

What a node variable keeps of the selections before is its share of each label. Over labels of one
group that do not branch, selections commute; a label without nodes, or one of another group, leaves
nothing in any order.
-/

namespace PatternCardinality.Estimate

open Labels

/-- All nodes, narrowed to labels one after the other. -/
def selectAll {α : Type} [Scalar α] (db : Database α) (v : String) (ls : List LabelId) :
    Except (Failure α) (Profile α) :=
  scan db v >>= fun p => ls.foldlM (fun p l => selectLabel db v l p) p

/-- A number of matches and the shares of labels at their only node variable. -/
structure Tally where
  size : ℚ
  share : LabelId → ℚ

namespace Tally

/-- The share of `m` once `l` is selected. -/
def narrowed (d : Distribution) (share : LabelId → ℚ) (l m : LabelId) : ℚ :=
  if d.Under l m then 1
  else if d.Under m l then min (share m / share l) 1
  else if d.groupOf? m = d.groupOf? l then share m
  else 0

def select (d : Distribution) (t : Tally) (l : LabelId) : Tally :=
  if t.share l ≤ 0 then ⟨0, t.share⟩ else ⟨t.size * t.share l, narrowed d t.share l⟩

def run (d : Distribution) (t : Tally) (ls : List LabelId) : Tally := ls.foldl (select d) t

/-- All nodes. -/
def start (db : Database ℚ) : Tally :=
  ⟨db.total, fun l => if 0 < db.total then db.nodes l / db.total else 0⟩

variable {d : Distribution} {share : LabelId → ℚ} {t t' : Tally} {l m x y : LabelId}
  {xs ys : List LabelId}

theorem narrowed_of_under (h : d.Under l m) : narrowed d share l m = 1 := if_pos h

theorem narrowed_of_over (h : ¬d.Under l m) (h' : d.Under m l) :
    narrowed d share l m = min (share m / share l) 1 := by
  rw [narrowed, if_neg h, if_pos h']

theorem narrowed_of_apart (h : ¬d.Comparable l m) (hgroup : d.groupOf? m = d.groupOf? l) :
    narrowed d share l m = share m := by
  rw [narrowed, if_neg (fun hlm => h (Or.inl hlm)), if_neg (fun hml => h (Or.inr hml)),
    if_pos hgroup]

/-- A selection leaves nothing in other groups. -/
theorem narrowed_of_other_group (h : d.Hierarchical) (hgroup : d.groupOf? m ≠ d.groupOf? l) :
    narrowed d share l m = 0 := by
  rw [narrowed, if_neg (fun hlm => hgroup (h.groupOf?_eq hlm).symm),
    if_neg (fun hml => hgroup (h.groupOf?_eq hml)), if_neg hgroup]

theorem select_of_pos (h : 0 < t.share l) :
    t.select d l = ⟨t.size * t.share l, narrowed d t.share l⟩ := if_neg (not_le.mpr h)

section Profiles

variable {db : Database ℚ} {v : String} {p : Profile ℚ}

/-- A result that has the size and the shares of a tally. -/
structure Describes (db : Database ℚ) (v : String) (t : Tally) (p : Profile ℚ) : Prop where
  binds : p.Binds {v} ∅
  size : p.size = t.size
  share : ∃ shares, p.nodes.get? v = some shares ∧ ∀ m ∈ db.labels, shares.of m = t.share m

theorem describes_scan (db : Database ℚ) (v : String) :
    ∃ p, scan db v = .ok p ∧ Describes db v (start db) p := by
  obtain ⟨p, hp, hbinds⟩ := scan_binds db v
  have hprofile := scan_eq_ok hp
  refine ⟨p, hp, hbinds, by rw [hprofile]; rfl, scanned db, ?_, fun m hm => ?_⟩
  · rw [hprofile, OrderedMap.get?_singleton, if_pos rfl]
  · rw [LabelShares.of, OrderedMap.getD, scanned, OrderedMap.get?_tabulate, if_pos hm]
    rfl

theorem narrowedShare_eq {shares : LabelShares ℚ} (hl : shares.of l = share l)
    (hm : shares.of m = share m) :
    narrowedShare db.distribution shares l (shares.of l) m =
      narrowed db.distribution share l m := by
  rw [narrowedShare, narrowed, Scalar.least_rat, hl, hm]
  have habove : (decide (m = l) || db.distribution.isBelow l m) = true ↔
      db.distribution.Under l m := by
    rw [Bool.or_eq_true, decide_eq_true_iff]
    exact or_congr_left eq_comm
  by_cases hlm : db.distribution.Under l m
  · rw [if_pos (habove.mpr hlm), if_pos hlm]
  · rw [if_neg (fun h => hlm (habove.mp h)), if_neg hlm]
    have hne : m ≠ l := fun heq => hlm (Or.inl heq.symm)
    simp only [Distribution.Under, hne, false_or]

theorem Describes.select (h : Describes db v t p) (hl : l ∈ db.labels) :
    ∃ p', selectLabel db v l p = .ok p' ∧ Describes db v (t.select db.distribution l) p' := by
  obtain ⟨p', hp', hbinds⟩ := selectLabel_binds db h.binds rfl l
  obtain ⟨shares, hget, hshare⟩ := h.share
  obtain ⟨shares', hget', hprofile⟩ := selectLabel_eq_ok hp'
  cases hget.symm.trans hget'
  rw [Tally.select, ← hshare l hl]
  by_cases hkept : shares.of l ≤ 0
  · rw [if_pos hkept] at hprofile ⊢
    exact ⟨p', hp', hbinds, by rw [hprofile], shares, by rw [hprofile]; exact hget, hshare⟩
  · rw [if_neg hkept] at hprofile ⊢
    refine ⟨p', hp', hbinds, by rw [hprofile, h.size], Estimate.narrowed db shares l, ?_,
      fun m hm => ?_⟩
    · rw [hprofile, OrderedMap.get?_insert, if_pos rfl]
    · rw [LabelShares.of, OrderedMap.getD, Estimate.narrowed, OrderedMap.get?_tabulate, if_pos hm]
      exact narrowedShare_eq (hshare l hl) (hshare m hm)

/-- Selections have results, of the size that the tally has after them. -/
theorem selectAll_size (hxs : ∀ l ∈ xs, l ∈ db.labels) :
    ∃ p, selectAll db v xs = .ok p ∧ p.size = ((start db).run db.distribution xs).size := by
  have hfold : ∀ {t p}, Describes db v t p → (∀ l ∈ xs, l ∈ db.labels) →
      ∃ p', xs.foldlM (fun p l => selectLabel db v l p) p = .ok p' ∧
        Describes db v (t.run db.distribution xs) p' := by
    clear hxs
    induction xs with
    | nil => exact fun h _ => ⟨_, rfl, h⟩
    | cons l xs ih =>
      intro t p h hxs
      obtain ⟨hl, hxs⟩ := List.forall_mem_cons.mp hxs
      obtain ⟨p₁, hp₁, h₁⟩ := h.select hl
      obtain ⟨p', hp', h'⟩ := ih h₁ hxs
      exact ⟨p', Outcome.bind_eq_ok.mpr ⟨p₁, hp₁, hp'⟩, h'⟩
  obtain ⟨p, hp, h⟩ := describes_scan db v
  obtain ⟨p', hp', h'⟩ := hfold h hxs
  exact ⟨p', Outcome.bind_eq_ok.mpr ⟨p, hp, hp'⟩, h'.size⟩

end Profiles

section Dead

variable {D : LabelId → Prop}

/-- Nothing is left, or nothing of some labels. -/
def Dead (D : LabelId → Prop) (t : Tally) : Prop := t.size = 0 ∨ ∀ l, D l → t.share l ≤ 0

theorem Dead.select (hD : ∀ l m, d.Under l m → D m → D l) (h : t.Dead D) (l : LabelId) :
    (t.select d l).Dead D := by
  rw [Tally.select]
  split
  · exact Or.inl rfl
  · next hkept =>
    rcases h with h | h
    · exact Or.inl (by rw [h, zero_mul])
    · refine Or.inr (fun m hm => ?_)
      have hpos : 0 < t.share l := not_le.mp hkept
      have hlm : ¬d.Under l m := fun hlm => hkept (h l (hD l m hlm hm))
      change narrowed d t.share l m ≤ 0
      rw [narrowed, if_neg hlm]
      split
      · exact (min_le_left _ _).trans (div_nonpos_of_nonpos_of_nonneg (h m hm) hpos.le)
      · split
        · exact h m hm
        · exact le_rfl

/-- To select one of such labels leaves nothing at the end. -/
theorem Dead.run_size (hD : ∀ l m, d.Under l m → D m → D l) (h : t.Dead D)
    (hxs : t.size = 0 ∨ ∃ l ∈ xs, D l) : (t.run d xs).size = 0 := by
  induction xs generalizing t with
  | nil => exact hxs.elim id (by simp)
  | cons l xs ih =>
    refine ih (h.select hD l) ?_
    rcases hxs with hsize | ⟨m, hm, hDm⟩
    · refine Or.inl ?_
      rw [Tally.select]
      split
      · rfl
      · rw [hsize, zero_mul]
    · rcases List.mem_cons.mp hm with rfl | hm
      · refine Or.inl ?_
        rw [Tally.select]
        split
        · rfl
        · next hkept => rw [h.resolve_right (fun hshare => hkept (hshare m hDm)), zero_mul]
      · exact Or.inr ⟨m, hm, hDm⟩

/-- Labels of different groups leave nothing. -/
theorem run_size_of_groups (h : d.Hierarchical) (hx : x ∈ xs) (hy : y ∈ xs)
    (hxy : d.groupOf? x ≠ d.groupOf? y) : (t.run d xs).size = 0 := by
  cases xs with
  | nil => cases hx
  | cons l xs =>
    have hdead : (t.select d l).Dead (fun m => d.groupOf? m ≠ d.groupOf? l) := by
      rw [Tally.select]
      split
      · exact Or.inl rfl
      · refine Or.inr (fun m hm => ?_)
        exact (narrowed_of_other_group h hm).le
    have hother : ∃ m ∈ xs, d.groupOf? m ≠ d.groupOf? l := by
      by_cases hxl : d.groupOf? x = d.groupOf? l
      · have hyl : d.groupOf? y ≠ d.groupOf? l := fun hyl => hxy (hxl.trans hyl.symm)
        exact ⟨y, (List.mem_cons.mp hy).resolve_left (fun heq => hyl (heq ▸ rfl)), hyl⟩
      · exact ⟨x, (List.mem_cons.mp hx).resolve_left (fun heq => hxl (heq ▸ rfl)), hxl⟩
    have hrest : ((t.select d l).run d xs).size = 0 :=
      hdead.run_size (fun a b hab hb hal => hb ((h.groupOf?_eq hab).symm.trans hal))
        (Or.inr hother)
    exact hrest

/-- A label without nodes leaves nothing. -/
theorem run_start_of_nodes {db : Database ℚ} (h : db.distribution.Hierarchical)
    (hle : ∀ l m, db.distribution.isBelow l m = true → db.nodes l ≤ db.nodes m) (hl : l ∈ xs)
    (hnone : db.nodes l ≤ 0) : ((start db).run db.distribution xs).size = 0 := by
  have hdead : (start db).Dead (fun m => db.distribution.Under m l) := by
    refine Or.inr (fun m hm => ?_)
    have hnodes : db.nodes m ≤ 0 := by
      rcases hm with rfl | hm
      · exact hnone
      · exact (hle m l hm).trans hnone
    rw [start]
    dsimp only
    split
    · next htotal => exact div_nonpos_of_nonpos_of_nonneg hnodes htotal.le
    · exact le_rfl
  exact hdead.run_size (fun _ _ => h.trans) (Or.inr ⟨l, hl, Distribution.under_refl _ l⟩)

end Dead

section Commuting

variable {T : List LabelId}

/-- Shares of labels of one group: positive, and larger for labels above others. -/
structure Level (d : Distribution) (T : List LabelId) (share : LabelId → ℚ) : Prop where
  group : ∀ l ∈ T, ∀ m ∈ T, d.groupOf? l = d.groupOf? m
  positive : ∀ l ∈ T, 0 < share l
  le_one : ∀ l ∈ T, share l ≤ 1
  mono : ∀ l ∈ T, ∀ m ∈ T, d.Under l m → share l ≤ share m

/-- Two tallies that cannot be told apart by selecting some labels. -/
def Agree (T : List LabelId) (t t' : Tally) : Prop :=
  t.size = t'.size ∧ ∀ m ∈ T, t.share m = t'.share m

theorem Agree.select (h : Agree T t t') (hl : l ∈ T) : Agree T (t.select d l) (t'.select d l) := by
  obtain ⟨hsize, hshare⟩ := h
  rw [Tally.select, Tally.select, hshare l hl, hsize]
  split
  · exact ⟨rfl, hshare⟩
  · refine ⟨rfl, fun m hm => ?_⟩
    change narrowed d t.share l m = narrowed d t'.share l m
    rw [narrowed, narrowed, hshare m hm, hshare l hl]

theorem Agree.run (h : Agree T t t') (hxs : ∀ l ∈ xs, l ∈ T) :
    Agree T (t.run d xs) (t'.run d xs) := by
  induction xs generalizing t t' with
  | nil => exact h
  | cons l xs ih =>
    obtain ⟨hl, hxs⟩ := List.forall_mem_cons.mp hxs
    exact ih (h.select hl) hxs

namespace Level

variable (h : Level d T share) (hd : d.Hierarchical)

include h

theorem narrowed_over (hl : l ∈ T) (hm : m ∈ T) (hlm : ¬d.Under l m) (hml : d.Under m l) :
    narrowed d share l m = share m / share l := by
  rw [narrowed_of_over hlm hml]
  exact min_eq_left ((div_le_one (h.positive l hl)).mpr (h.mono m hm l hl hml))

theorem narrowed_apart (hl : l ∈ T) (hm : m ∈ T) (hlm : ¬d.Comparable l m) :
    narrowed d share l m = share m :=
  narrowed_of_apart hlm (h.group m hm l hl)

include hd

theorem narrow (hT : d.Unbranched T) (hl : l ∈ T) : Level d T (narrowed d share l) := by
  have hl' := h.positive l hl
  have hcases : ∀ m ∈ T, 0 < narrowed d share l m ∧ narrowed d share l m ≤ 1 := by
    intro m hm
    by_cases hlm : d.Under l m
    · rw [narrowed_of_under hlm]
      exact ⟨zero_lt_one, le_rfl⟩
    · by_cases hml : d.Under m l
      · rw [h.narrowed_over hl hm hlm hml]
        exact ⟨div_pos (h.positive m hm) hl', (div_le_one hl').mpr (h.mono m hm l hl hml)⟩
      · rw [h.narrowed_apart hl hm (not_or.mpr ⟨hlm, hml⟩)]
        exact ⟨h.positive m hm, h.le_one m hm⟩
  refine ⟨h.group, fun m hm => (hcases m hm).1, fun m hm => (hcases m hm).2, ?_⟩
  intro a ha b hb hab
  by_cases hlb : d.Under l b
  · rw [narrowed_of_under hlb]
    exact (hcases a ha).2
  · have hla : ¬d.Under l a := fun hla => hlb (hd.trans hla hab)
    by_cases hbl : d.Under b l
    · rw [h.narrowed_over hl hb hlb hbl, h.narrowed_over hl ha hla (hd.trans hab hbl)]
      exact (div_le_div_iff_of_pos_right hl').mpr (h.mono a ha b hb hab)
    · have hbl' : ¬d.Comparable l b := not_or.mpr ⟨hlb, hbl⟩
      have hla' : ¬d.Comparable l a := fun hla' => hbl' (hT l hl a ha b hb hla' (Or.inl hab))
      rw [h.narrowed_apart hl hb hbl', h.narrowed_apart hl ha hla']
      exact h.mono a ha b hb hab

/-- Of two labels of a chain, only the lower one matters. -/
theorem narrowed_narrowed_of_under (hT : d.Unbranched T) (hx : x ∈ T) (hy : y ∈ T)
    (hyx : d.Under y x) (hm : m ∈ T) :
    narrowed d (narrowed d share x) y m = narrowed d share y m ∧
      narrowed d (narrowed d share y) x m = narrowed d share y m := by
  have hlevelx := h.narrow hd hT hx
  have hlevely := h.narrow hd hT hy
  have hxpos := h.positive x hx
  have hypos := h.positive y hy
  have hxone : narrowed d share y x = 1 := narrowed_of_under hyx
  by_cases hym : d.Under y m
  · refine ⟨by rw [narrowed_of_under hym, narrowed_of_under hym], ?_⟩
    by_cases hxm : d.Under x m
    · rw [narrowed_of_under hxm, narrowed_of_under hym]
    · have hmx : d.Under m x :=
        (hT x hx y hy m hm (Or.inr hyx) (Or.inl hym)).resolve_left hxm
      rw [hlevely.narrowed_over hx hm hxm hmx, hxone, div_one]
  · have hxm : ¬d.Under x m := fun hxm => hym (hd.trans hyx hxm)
    by_cases hmy : d.Under m y
    · have hmx : d.Under m x := hd.trans hmy hyx
      constructor
      · rw [hlevelx.narrowed_over hy hm hym hmy, h.narrowed_over hx hm hxm hmx,
          h.narrowed_over hy hm hym hmy]
        by_cases hxy : d.Under x y
        · have hsame : share x = share y :=
            le_antisymm (h.mono x hx y hy hxy) (h.mono y hy x hx hyx)
          rw [narrowed_of_under hxy, div_one, hsame]
        · rw [h.narrowed_over hx hy hxy hyx, div_div_div_cancel_right₀ hxpos.ne']
      · rw [hlevely.narrowed_over hx hm hxm hmx, hxone, div_one]
    · have hym' : ¬d.Comparable y m := not_or.mpr ⟨hym, hmy⟩
      have hxm' : ¬d.Comparable x m := fun hxm' =>
        hym' (hT y hy x hx m hm (Or.inl hyx) hxm')
      rw [hlevelx.narrowed_apart hy hm hym', hlevely.narrowed_apart hx hm hxm',
        h.narrowed_apart hx hm hxm', h.narrowed_apart hy hm hym']
      exact ⟨rfl, rfl⟩

omit hd in
theorem mul_narrowed_of_under (hx : x ∈ T) (hy : y ∈ T) (hyx : d.Under y x) :
    share x * narrowed d share x y = share y := by
  by_cases hxy : d.Under x y
  · rw [narrowed_of_under hxy, mul_one]
    exact le_antisymm (h.mono x hx y hy hxy) (h.mono y hy x hx hyx)
  · rw [h.narrowed_over hx hy hxy hyx, mul_div_cancel₀ _ (h.positive x hx).ne']

/-- Labels that are not comparable do not touch each other's chains. -/
theorem narrowed_comm_of_apart (hT : d.Unbranched T) (hx : x ∈ T) (hy : y ∈ T)
    (hxy : ¬d.Comparable x y) (hm : m ∈ T) (hmy : ¬d.Comparable y m) :
    narrowed d (narrowed d share x) y m = narrowed d (narrowed d share y) x m := by
  have hlevelx := h.narrow hd hT hx
  have hlevely := h.narrow hd hT hy
  have hyx : narrowed d share y x = share x :=
    h.narrowed_apart hy hx (fun hyx => hxy hyx.symm)
  rw [hlevelx.narrowed_apart hy hm hmy]
  by_cases hxm : d.Under x m
  · rw [narrowed_of_under hxm, narrowed_of_under hxm]
  · by_cases hmx : d.Under m x
    · rw [h.narrowed_over hx hm hxm hmx, hlevely.narrowed_over hx hm hxm hmx, hyx,
        h.narrowed_apart hy hm hmy]
    · have hapart : ¬d.Comparable x m := not_or.mpr ⟨hxm, hmx⟩
      rw [h.narrowed_apart hx hm hapart, hlevely.narrowed_apart hx hm hapart,
        h.narrowed_apart hy hm hmy]

theorem narrowed_comm (hT : d.Unbranched T) (hx : x ∈ T) (hy : y ∈ T) (hm : m ∈ T) :
    narrowed d (narrowed d share x) y m = narrowed d (narrowed d share y) x m := by
  by_cases hxy : d.Comparable x y
  · rcases hxy with hxy | hyx
    · obtain ⟨hleft, hright⟩ := h.narrowed_narrowed_of_under hd hT hy hx hxy hm
      rw [hleft, hright]
    · obtain ⟨hleft, hright⟩ := h.narrowed_narrowed_of_under hd hT hx hy hyx hm
      rw [hleft, hright]
  · by_cases hmy : d.Comparable y m
    · have hmx : ¬d.Comparable x m := fun hmx => hxy (hT x hx m hm y hy hmx hmy.symm)
      exact (h.narrowed_comm_of_apart hd hT hy hx (fun hyx => hxy hyx.symm) hm hmx).symm
    · exact h.narrowed_comm_of_apart hd hT hx hy hxy hm hmy

omit hd in
theorem mul_narrowed_comm (hx : x ∈ T) (hy : y ∈ T) :
    share x * narrowed d share x y = share y * narrowed d share y x := by
  by_cases hxy : d.Comparable x y
  · rcases hxy with hxy | hyx
    · rw [h.mul_narrowed_of_under hy hx hxy, narrowed_of_under hxy, mul_one]
    · rw [h.mul_narrowed_of_under hx hy hyx, narrowed_of_under hyx, mul_one]
  · rw [h.narrowed_apart hx hy hxy, h.narrowed_apart hy hx (fun hyx => hxy hyx.symm), mul_comm]

end Level

theorem select_of_level (h : Level d T t.share) (hl : l ∈ T) :
    t.select d l = ⟨t.size * t.share l, narrowed d t.share l⟩ := select_of_pos (h.positive l hl)

/-- The order of selections does not matter where the labels do not branch. -/
theorem run_agree_of_perm (hd : d.Hierarchical) (hT : d.Unbranched T) (hperm : xs.Perm ys)
    (hxs : ∀ l ∈ xs, l ∈ T) (h : Level d T t.share) : Agree T (t.run d xs) (t.run d ys) := by
  induction hperm generalizing t with
  | nil => exact ⟨rfl, fun _ _ => rfl⟩
  | cons l _ ih =>
    obtain ⟨hl, hxs⟩ := List.forall_mem_cons.mp hxs
    refine ih hxs ?_
    rw [select_of_level h hl]
    exact h.narrow hd hT hl
  | swap x y xs =>
    obtain ⟨hy, hxs⟩ := List.forall_mem_cons.mp hxs
    obtain ⟨hx, hxs⟩ := List.forall_mem_cons.mp hxs
    have hcomm : Agree T ((t.select d y).select d x) ((t.select d x).select d y) := by
      have hselecty := select_of_level h hy
      have hselectx := select_of_level h hx
      rw [hselecty, hselectx, select_of_pos (show 0 < narrowed d t.share y x from
        (h.narrow hd hT hy).positive x hx), select_of_pos (show 0 < narrowed d t.share x y from
        (h.narrow hd hT hx).positive y hy)]
      refine ⟨?_, fun m hm => (h.narrowed_comm hd hT hx hy hm).symm⟩
      dsimp only
      rw [mul_assoc, mul_assoc, h.mul_narrowed_comm hx hy]
    exact hcomm.run hxs
  | trans hperm _ ih ih' =>
    obtain ⟨hsize, hshare⟩ := ih hxs h
    obtain ⟨hsize', hshare'⟩ := ih' (fun l hl => hxs l (hperm.mem_iff.mpr hl)) h
    exact ⟨hsize.trans hsize', fun m hm => (hshare m hm).trans (hshare' m hm)⟩

end Commuting

end Tally

end PatternCardinality.Estimate
