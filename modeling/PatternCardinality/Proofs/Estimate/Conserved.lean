import Mathlib.Algebra.BigOperators.Ring.List
import PatternCardinality.Proofs.Estimate.Expression
import PatternCardinality.Proofs.Estimate.Partitioned

/-!
# Shares that stay a whole

Where every node carries exactly one label, the shares of the labels at a node variable make a
whole: among all nodes they are those of the labels, a step splits the relationships by the labels
at either end, and a selection makes its label certain. As long as a result has matches, this is
kept by every operator that only binds new variables.
-/

namespace PatternCardinality.Estimate

open Labels Statistics

variable {db : Database ℚ}

/-- Shares of all labels that are together one. -/
structure LabelShares.Whole (db : Database ℚ) (shares : LabelShares ℚ) : Prop where
  keys : shares.keys = db.labels.toList
  nonneg : ∀ l ∈ db.labels, 0 ≤ shares.of l
  sum : (db.labels.toList.map shares.of).sum = 1

namespace LabelShares

variable {shares : LabelShares ℚ}

/-- The values of a table are the shares of its labels. -/
theorem values_eq (shares : LabelShares ℚ) : shares.values = shares.keys.map shares.of := by
  rw [OrderedMap.values, OrderedMap.keys, List.map_map]
  refine List.map_congr_left (fun e he => ?_)
  have hget : shares.get? e.1 = some e.2 := OrderedMap.mem_entries_iff.mp he
  simp [LabelShares.of, OrderedMap.getD, hget]

theorem Whole.sum_values (h : shares.Whole db) : shares.values.sum = 1 := by
  rw [values_eq, h.keys, h.sum]

theorem keys_tabulate (f : LabelId → ℚ) (labels : OrderedSet LabelId) :
    (OrderedMap.tabulate f labels).keys = labels.toList := by
  rw [OrderedMap.keys, OrderedMap.tabulate, List.map_map]
  exact List.map_id _

theorem whole_tabulate {f : LabelId → ℚ} (hf : ∀ l ∈ db.labels, 0 ≤ f l)
    (hsum : (db.labels.toList.map f).sum = 1) :
    LabelShares.Whole db (OrderedMap.tabulate f db.labels) := by
  refine ⟨keys_tabulate f db.labels, fun l hl => ?_, ?_⟩
  · rw [LabelShares.of_tabulate hl]
    exact hf l hl
  · rw [← hsum]
    exact congrArg List.sum (List.map_congr_left (fun l hl => LabelShares.of_tabulate hl))

theorem of_eq_zero {l : LabelId} (hl : l ∉ shares.keys) : shares.of l = 0 := by
  rw [OrderedMap.mem_keys_iff, OrderedMap.contains, Bool.not_eq_true, Option.isSome_eq_false_iff,
    Option.isNone_iff_eq_none] at hl
  rw [LabelShares.of, OrderedMap.getD, hl, Option.getD_none]

/-- A label with a share is one of those that are known. -/
theorem Whole.mem_of_pos (h : shares.Whole db) {l : LabelId} (hl : 0 < shares.of l) :
    l ∈ db.labels := by
  rw [OrderedSet.mem_toList, ← h.keys]
  by_contra hnone
  exact hl.ne' (of_eq_zero hnone)

end LabelShares

/-- The parts of a whole that a function gives to labels. -/
theorem sum_div {f : LabelId → ℚ} {ls : List LabelId} {total : ℚ} (hsum : (ls.map f).sum = total)
    (htotal : total ≠ 0) : (ls.map (fun l => f l / total)).sum = 1 := by
  simp only [div_eq_mul_inv, List.sum_map_mul_right, hsum]
  exact mul_inv_cancel₀ htotal

theorem sum_map_comm {β γ : Type} (f : β → γ → ℚ) (ls : List β) (ms : List γ) :
    (ls.map (fun l => (ms.map (f l)).sum)).sum =
      (ms.map (fun m => (ls.map (fun l => f l m)).sum)).sum := by
  induction ls with
  | nil => simp
  | cons l ls ih => simp only [List.map_cons, List.sum_cons, List.sum_map_add, ih]

namespace Database.Partitioned

variable (h : db.Partitioned)

include h

theorem whole_scanned : LabelShares.Whole db (scanned db) := by
  have hif : ∀ l ∈ db.labels.toList, (if 0 < db.total then db.nodes l / db.total else 0) =
      db.nodes l / db.total := fun l _ => if_pos h.total_pos
  refine LabelShares.whole_tabulate (fun l hl => ?_) ?_
  · rw [hif l hl]
    exact div_nonneg (h.nodes_nonneg l hl) h.total_pos.le
  · rw [List.map_congr_left hif]
    exact sum_div h.total_eq.symm h.total_pos.ne'

/-- A selected label is certain. -/
theorem whole_narrowed (shares : LabelShares ℚ) {l : LabelId} (hl : l ∈ db.labels) :
    LabelShares.Whole db (narrowed db shares l) := by
  have hof : ∀ m ∈ db.labels, (narrowed db shares l).of m = if m = l then 1 else 0 :=
    fun m hm => h.of_narrowed shares hl hm
  refine ⟨LabelShares.keys_tabulate _ _, fun m hm => ?_, ?_⟩
  · rw [hof m hm]
    split <;> norm_num
  · have hcount : db.labels.toList.count l = 1 :=
      List.count_eq_one_of_mem (OrderedSet.nodup_toList db.labels) hl
    rw [List.map_congr_left hof, List.sum_map_ite_eq, hcount]
    simp

section Steps

variable (types : TypeSet) (direction : Direction)

/-- Seen from the other end, relationships are followed the other way. -/
theorem relationships_reverse (b w : LabelId) :
    db.relationships b types w direction = db.relationships w types b direction.reverse := by
  have htype : ∀ t, db.view.relationships b t w direction =
      db.view.relationships w t b direction.reverse := by
    intro t
    cases direction <;>
      simp only [View.relationships, Direction.reverse, h.relationshipCount_eq, add_comm]
  simp only [relationships, htype]

/-- The relationships to any nodes are those to the nodes of all labels. -/
theorem sum_relationships_to {b : LabelId} (hb : db.Known b) :
    (db.labels.toList.map (fun w => db.relationships b types w direction)).sum =
      db.relationships b types anyLabel direction := by
  simp only [h.relationships_reverse types direction b]
  exact h.sum_relationships hb types direction.reverse

theorem averageDegree_nonneg {b w : LabelId} (hb : b ∈ db.labels) (hw : db.Known w) :
    0 ≤ db.averageDegree b types w direction := by
  rw [averageDegree]
  split
  · exact le_rfl
  · next hpos =>
    exact div_nonneg (h.relationships_nonneg (Database.known_of_mem hb) hw types direction)
      (not_le.mp hpos).le

theorem sum_averageDegree {b : LabelId} (hb : b ∈ db.labels) :
    (db.labels.toList.map (fun w => db.averageDegree b types w direction)).sum =
      db.averageDegree b types anyLabel direction := by
  simp only [averageDegree]
  split
  · simp
  · simp only [div_eq_mul_inv, List.sum_map_mul_right,
      h.sum_relationships_to types direction (Database.known_of_mem hb)]

/-- The exact counts split by the label at either end. -/
theorem fromAllNodes_whole {base : LabelShares ℚ} {r : Traversal.Reached ℚ}
    (hr : (⟨db, types, direction⟩ : Traversal ℚ).fromAllNodes base = r) :
    0 ≤ r.size ∧ (0 < r.size → r.base.Whole db ∧ r.target.Whole db) := by
  subst hr
  have hnonneg := h.relationships_nonneg db.known_any db.known_any types direction
  rw [Traversal.fromAllNodes]
  split
  · next hnone => exact ⟨hnonneg, fun hpos => absurd hpos (not_lt.mpr hnone)⟩
  · next hsome =>
    have hpos := not_le.mp hsome
    refine ⟨hnonneg, fun _ => ⟨LabelShares.whole_tabulate (fun l hl => ?_) ?_,
      LabelShares.whole_tabulate (fun l hl => ?_) ?_⟩⟩
    · exact div_nonneg (h.relationships_nonneg (Database.known_of_mem hl) db.known_any _ _) hpos.le
    · exact sum_div (h.sum_relationships db.known_any types direction) hpos.ne'
    · exact div_nonneg (h.relationships_nonneg db.known_any (Database.known_of_mem hl) _ _) hpos.le
    · exact sum_div (h.sum_relationships_to types direction db.known_any) hpos.ne'

variable {shares : LabelShares ℚ} (hshares : shares.Whole db)

include hshares

theorem degreeTo_of_whole (target : LabelId) :
    (⟨db, types, direction⟩ : Traversal ℚ).degreeTo shares target =
      (db.labels.toList.map
        (fun l => shares.of l * db.averageDegree l types target direction)).sum :=
  h.degreeTo_eq_sum types direction hshares.nonneg hshares.sum target

theorem degreeTo_nonneg {target : LabelId} (htarget : db.Known target) :
    0 ≤ (⟨db, types, direction⟩ : Traversal ℚ).degreeTo shares target := by
  rw [h.degreeTo_of_whole types direction hshares]
  refine List.sum_nonneg (fun x hx => ?_)
  obtain ⟨l, hl, rfl⟩ := List.mem_map.mp hx
  exact mul_nonneg (hshares.nonneg l hl) (h.averageDegree_nonneg types direction hl htarget)

/-- The relationships per match split by the label that they lead to. -/
theorem sum_degreeTo :
    (db.labels.toList.map ((⟨db, types, direction⟩ : Traversal ℚ).degreeTo shares)).sum =
      (⟨db, types, direction⟩ : Traversal ℚ).degreeTo shares anyLabel := by
  have hlabel : ∀ l ∈ db.labels.toList, (db.labels.toList.map
      (fun w => shares.of l * db.averageDegree l types w direction)).sum =
        shares.of l * db.averageDegree l types anyLabel direction := by
    intro l hl
    rw [List.sum_map_mul_left, h.sum_averageDegree types direction hl]
  have htarget : ∀ w ∈ db.labels.toList, (⟨db, types, direction⟩ : Traversal ℚ).degreeTo shares w =
      (db.labels.toList.map (fun l => shares.of l * db.averageDegree l types w direction)).sum :=
    fun w _ => h.degreeTo_of_whole types direction hshares w
  rw [List.map_congr_left htarget, sum_map_comm, List.map_congr_left hlabel,
    h.degreeTo_of_whole types direction hshares]

/-- The share of a label at the base is its part of the relationships; it never has to be cut. -/
theorem baseShare_of_whole {size degree : ℚ} (hsize : 0 < size) (hdegree : 0 < degree)
    (heq : (⟨db, types, direction⟩ : Traversal ℚ).degreeTo shares anyLabel = degree)
    {l : LabelId} (hl : l ∈ db.labels) :
    (⟨db, types, direction⟩ : Traversal ℚ).baseShare size degree shares l =
      shares.of l * db.averageDegree l types anyLabel direction / degree := by
  simp only [Traversal.baseShare]
  rcases (hshares.nonneg l hl).eq_or_lt with hzero | hkept
  · simp [← hzero]
  · have hpart : shares.of l * db.averageDegree l types anyLabel direction ≤ degree := by
      rw [← heq, h.degreeTo_of_whole types direction hshares]
      refine List.single_le_sum (fun x hx => ?_) _ (List.mem_map_of_mem hl)
      obtain ⟨m, hm, rfl⟩ := List.mem_map.mp hx
      exact mul_nonneg (hshares.nonneg m hm)
        (h.averageDegree_nonneg types direction hm db.known_any)
    rw [if_neg (not_le.mpr hkept), if_pos (mul_pos hsize hkept),
      h.degreeTo_narrowed types direction shares hl, mul_comm, Scalar.least_rat,
      min_eq_left ((div_le_one hdegree).mpr hpart)]

omit hshares

/-- A step to a new variable splits the relationships by the labels at both ends. -/
theorem fromResult_whole {size : ℚ} (hsize : 0 ≤ size) (hshares : 0 < size → shares.Whole db)
    {r : Traversal.Reached ℚ}
    (hr : (⟨db, types, direction⟩ : Traversal ℚ).fromResult size shares none = r) :
    0 ≤ r.size ∧ (0 < r.size → 0 < size ∧ r.base.Whole db ∧ r.target.Whole db) := by
  subst hr
  rw [size_fromResult, Option.elim_none]
  rcases hsize.eq_or_lt with rfl | hpos
  · simp
  · have hwhole := hshares hpos
    have hnonneg := h.degreeTo_nonneg types direction hwhole db.known_any
    refine ⟨mul_nonneg hsize hnonneg, fun hmatches => ⟨hpos, ?_⟩⟩
    have hdegree := pos_of_mul_pos_right hmatches hsize
    have hbase : ∀ l ∈ db.labels, _ := fun l hl =>
      h.baseShare_of_whole types direction hwhole hpos hdegree rfl hl
    simp only [Traversal.fromResult, if_neg (not_le.mpr hdegree)]
    refine ⟨LabelShares.whole_tabulate (fun l hl => ?_) ?_,
      LabelShares.whole_tabulate (fun l hl => ?_) ?_⟩
    · rw [hbase l hl]
      exact div_nonneg (mul_nonneg (hwhole.nonneg l hl)
        (h.averageDegree_nonneg types direction hl db.known_any)) hdegree.le
    · rw [List.map_congr_left hbase]
      exact sum_div (h.degreeTo_of_whole types direction hwhole anyLabel).symm hdegree.ne'
    · exact div_nonneg (h.degreeTo_nonneg types direction hwhole (Database.known_of_mem hl))
        hdegree.le
    · exact sum_div (h.sum_degreeTo types direction hwhole) hdegree.ne'

end Steps

end Database.Partitioned

/-- Where a result has matches, the shares at each of its variables are a whole. A result of all
nodes has matches. -/
structure Profile.Conserved (db : Database ℚ) (p : Profile ℚ) : Prop where
  size_nonneg : 0 ≤ p.size
  initial_pos : p.initial = true → 0 < p.size
  whole : 0 < p.size → ∀ v shares, p.nodes.get? v = some shares → shares.Whole db

section Operators

variable {p p' left right : Profile ℚ} (h : db.Partitioned)

include h

theorem scan_conserved {v : String} (hscan : scan db v = .ok p') : p'.Conserved db := by
  rw [scan_eq_ok hscan]
  refine ⟨h.total_pos.le, fun _ => h.total_pos, fun _ w shares hw => ?_⟩
  obtain ⟨-, rfl⟩ := OrderedMap.eq_of_get?_singleton hw
  exact h.whole_scanned

theorem selectLabel_conserved (hp : p.Conserved db) {v : String} {l : LabelId}
    (hselect : selectLabel db v l p = .ok p') : p'.Conserved db := by
  obtain ⟨shares, hshares, rfl⟩ := selectLabel_eq_ok hselect
  split
  · exact ⟨le_rfl, by simp, fun hpos => absurd hpos (lt_irrefl 0)⟩
  · next hkept =>
    have hkept := not_le.mp hkept
    refine ⟨mul_nonneg hp.size_nonneg hkept.le, by simp, fun hpos w other hw => ?_⟩
    have hbefore := hp.whole (pos_of_mul_pos_left hpos hkept.le)
    rw [OrderedMap.get?_insert] at hw
    split at hw
    · cases hw
      exact h.whole_narrowed shares ((hbefore v shares hshares).mem_of_pos hkept)
    · exact hbefore w other hw

theorem expand_conserved (hp : p.Conserved db) {base relationship target : String}
    {direction : Direction} {types : TypeSet} (hfresh : p.isNode target = false)
    (hexpand : expand db base direction relationship types target p = .ok p') :
    p'.Conserved db := by
  obtain ⟨shares, hshares, rfl⟩ := expand_eq_ok hexpand
  have hnone : p.nodes.get? target = none := by
    rwa [Profile.isNode, OrderedMap.contains, Option.isSome_eq_false_iff,
      Option.isNone_iff_eq_none] at hfresh
  have hreached : 0 ≤ (reached ⟨db, types, direction⟩ target shares p).size ∧
      (0 < (reached ⟨db, types, direction⟩ target shares p).size → 0 < p.size ∧
        (reached ⟨db, types, direction⟩ target shares p).base.Whole db ∧
        (reached ⟨db, types, direction⟩ target shares p).target.Whole db) := by
    rw [reached, hnone]
    split
    · next hinitial =>
      obtain ⟨hsize, hends⟩ := h.fromAllNodes_whole types direction rfl
      exact ⟨hsize, fun hpos => ⟨hp.initial_pos hinitial, hends hpos⟩⟩
    · exact h.fromResult_whole types direction hp.size_nonneg
        (fun hpos => hp.whole hpos base shares hshares) rfl
  obtain ⟨hsize, hends⟩ := hreached
  refine ⟨hsize, by simp, fun hpos w other hw => ?_⟩
  obtain ⟨hbefore, hbase, htarget⟩ := hends hpos
  rw [OrderedMap.get?_insert, OrderedMap.get?_insert] at hw
  split at hw
  · cases hw
    exact htarget
  · split at hw
    · cases hw
      exact hbase
    · exact hp.whole hbefore w other hw

omit h

/-- Results that share no node variable are joined as they are. -/
theorem joinedNodes_of_apart {l r : OrderedMap String (LabelShares ℚ)}
    (hapart : ∀ v, r.contains v = true → l.contains v = false) :
    joinedNodes db l r = (l.union r, 0) := by
  have hnone : ∀ e ∈ r.entries, l.get? e.1 = none := by
    intro e he
    have hright : r.contains e.1 = true :=
      OrderedMap.contains_iff.mpr ⟨e.2, OrderedMap.mem_entries_iff.mp he⟩
    have hleft := hapart e.1 hright
    rwa [OrderedMap.contains, Option.isSome_eq_false_iff, Option.isNone_iff_eq_none] at hleft
  have hfold : ∀ f : OrderedMap String (LabelShares ℚ) × Nat → String × LabelShares ℚ → _,
      (∀ nodes e, e ∈ r.entries → f (nodes, 0) e = (nodes.insert e.1 e.2, 0)) →
      r.entries.foldl f (l, 0) = (r.entries.foldl (fun u e => u.insert e.1 e.2) l, 0) := by
    intro f
    clear hnone hapart
    generalize r.entries = entries
    induction entries generalizing l with
    | nil => exact fun _ => rfl
    | cons e entries ih =>
      intro hf
      rw [List.foldl_cons, List.foldl_cons, hf l e List.mem_cons_self]
      exact ih (fun nodes d hd => hf nodes d (List.mem_cons_of_mem _ hd))
  exact hfold _ (fun nodes e he => by simp only [hnone e he])

theorem join_conserved (hleft : left.Conserved db) (hright : right.Conserved db)
    (hapart : ∀ v, right.isNode v = true → left.isNode v = false)
    (hjoin : join db left right = .ok p') : p'.Conserved db := by
  rw [join_eq_ok hjoin, joinedNodes_of_apart hapart]
  have hsize : left.size * right.size * matchProbability db 0 = left.size * right.size := mul_one _
  simp only [hsize]
  refine ⟨mul_nonneg hleft.size_nonneg hright.size_nonneg, by simp, fun hpos v shares hv => ?_⟩
  have hl := pos_of_mul_pos_left hpos hright.size_nonneg
  have hr := pos_of_mul_pos_right hpos hleft.size_nonneg
  simp only [OrderedMap.get?_union, Option.or_eq_some_iff] at hv
  rcases hv with hv | ⟨-, hv⟩
  · exact hright.whole hr v shares hv
  · exact hleft.whole hl v shares hv

end Operators

namespace Expression

/-- Expressions in which every step leads to a new variable and joined results share none. -/
inductive Acyclic {α : Type} [Scalar α] [NumberHash α] (db : Database α) : Expression α → Prop
  | scan {v e} (made : leaf db (.scan v) = .ok e) : Acyclic db e
  | expand {base direction relationship types target e e'} (before : Acyclic db e)
      (fresh : e.profile.isNode target = false)
      (made : e.apply db (.expand base direction relationship types target) = .ok e') :
      Acyclic db e'
  | selectLabel {v l e e'} (before : Acyclic db e)
      (made : e.apply db (.selectLabel v l) = .ok e') : Acyclic db e'
  | join {left right e} (before : Acyclic db left) (beside : Acyclic db right)
      (apart : ∀ v, right.profile.isNode v = true → left.profile.isNode v = false)
      (made : make db .join [left, right] = .ok e) : Acyclic db e

/-- Without cycles all shares stay a whole. -/
theorem Acyclic.conserved [NumberHash ℚ] (h : db.Partitioned) {e : Expression ℚ}
    (he : e.Acyclic db) : e.profile.Conserved db := by
  induction he with
  | scan made =>
    obtain ⟨p, hp, rfl⟩ := make_eq_ok.mp made
    exact scan_conserved h hp
  | expand before fresh made ih =>
    obtain ⟨p, hp, rfl⟩ := make_eq_ok.mp made
    exact expand_conserved h ih fresh hp
  | selectLabel before made ih =>
    obtain ⟨p, hp, rfl⟩ := make_eq_ok.mp made
    exact selectLabel_conserved h ih hp
  | join before beside apart made ihl ihr =>
    obtain ⟨p, hp, rfl⟩ := make_eq_ok.mp made
    exact join_conserved ihl ihr apart hp

end Expression

end PatternCardinality.Estimate
