import Mathlib.Data.List.Chain
import Mathlib.Data.List.TakeWhile
import PatternCardinality.Proofs.Estimate.Binding
import PatternCardinality.Proofs.Estimate.Expression
import PatternCardinality.Proofs.Number.Exact

/-!
# Expressions listed

An expression is listed from the root down, each operator before its children and with its depth.
The entries behind an operator that are deeper than it, up to the first that is not, are what lies
below it, so depths alone tell which operator belongs to which: the tree of operators is read off
from the listing, no other tree has that listing, and the result of each operator is what it makes
of the results one step below.
-/

namespace PatternCardinality.Estimate

variable {α : Type}

/-- A tree of operators, without results. -/
inductive Outline (α : Type) where
  | node (operator : Operator α) (children : List (Outline α))

namespace Outline

mutual

/-- The operators from the root down, each before its children, with their depths. -/
def listFrom (depth : ℕ) : Outline α → List (ℕ × Operator α)
  | node op children => (depth, op) :: listAll (depth + 1) children

def listAll (depth : ℕ) : List (Outline α) → List (ℕ × Operator α)
  | [] => []
  | o :: rest => listFrom depth o ++ listAll depth rest

end

def listing (o : Outline α) : List (ℕ × Operator α) := listFrom 0 o

/-- Puts an operator on top of the first outlines that stand one step deeper. -/
def gather (entry : ℕ × Operator α) (later : List (ℕ × Outline α)) : List (ℕ × Outline α) :=
  let below := later.takeWhile (fun o => o.1 = entry.1 + 1)
  (entry.1, node entry.2 (below.map Prod.snd)) :: later.dropWhile (fun o => o.1 = entry.1 + 1)

/-- The outlines that a list is made of, with their depths. It is read from its end. -/
def assemble (entries : List (ℕ × Operator α)) : List (ℕ × Outline α) :=
  entries.foldr gather []

/-- The tree of operators that a list of operators and depths stands for. -/
def rebuild? (entries : List (ℕ × Operator α)) : Option (Outline α) :=
  match assemble entries with
  | [(0, o)] => some o
  | _ => none

/-- What is assembled starts as deep as the list. -/
theorem head?_assemble (entries : List (ℕ × Operator α)) :
    (assemble entries).head?.map Prod.fst = entries.head?.map Prod.fst := by
  cases entries <;> rfl

/-- Outlines on top of what is assembled from a list that does not go on below them. -/
theorem gather_append {depth : ℕ} {op : Operator α} {children : List (Outline α)}
    {later : List (ℕ × Outline α)} (h : ∀ n ∈ later.head?.map Prod.fst, n ≤ depth) :
    gather (depth, op) (children.map (fun o => (depth + 1, o)) ++ later) =
      (depth, node op children) :: later := by
  have hbelow : ∀ o ∈ children.map (fun o => (depth + 1, o)),
      decide (o.1 = depth + 1) = true := by
    intro o ho
    obtain ⟨child, -, rfl⟩ := List.mem_map.mp ho
    exact decide_eq_true rfl
  have hlater : later.takeWhile (fun o => o.1 = depth + 1) = [] ∧
      later.dropWhile (fun o => o.1 = depth + 1) = later := by
    cases later with
    | nil => exact ⟨rfl, rfl⟩
    | cons o later =>
      have ho : o.1 ≠ depth + 1 := by
        have hle := h o.1 rfl
        omega
      simp [ho]
  rw [gather, List.takeWhile_append_of_pos hbelow, List.dropWhile_append_of_pos hbelow, hlater.1,
    hlater.2, List.append_nil, List.map_map]
  simp [Function.comp_def]

mutual

/-- An outline is assembled from its listing, in front of a list that does not go on below it. -/
theorem assemble_listFrom {depth : ℕ} {tail : List (ℕ × Operator α)}
    (h : ∀ n ∈ tail.head?.map Prod.fst, n ≤ depth) (o : Outline α) :
    assemble (listFrom depth o ++ tail) = (depth, o) :: assemble tail := by
  cases o with
  | node op children =>
    have hdeep : ∀ n ∈ tail.head?.map Prod.fst, n ≤ depth + 1 :=
      fun n hn => Nat.le_succ_of_le (h n hn)
    have hchildren := assemble_listAll hdeep children
    have hassembled : ∀ n ∈ (assemble tail).head?.map Prod.fst, n ≤ depth :=
      head?_assemble tail ▸ h
    rw [listFrom, List.cons_append, assemble, List.foldr_cons, ← assemble, hchildren,
      gather_append hassembled]

theorem assemble_listAll {depth : ℕ} {tail : List (ℕ × Operator α)}
    (h : ∀ n ∈ tail.head?.map Prod.fst, n ≤ depth) (children : List (Outline α)) :
    assemble (listAll depth children ++ tail) =
      children.map (fun o => (depth, o)) ++ assemble tail := by
  cases children with
  | nil => rfl
  | cons o rest =>
    have hrest : ∀ n ∈ (listAll depth rest ++ tail).head?.map Prod.fst, n ≤ depth := by
      cases rest with
      | nil => exact h
      | cons o rest =>
        cases o
        simp [listAll, listFrom]
    rw [listAll, List.append_assoc, assemble_listFrom hrest o, assemble_listAll h rest,
      List.map_cons, List.cons_append]

end

/-- Nothing of a list is lost when it is assembled. -/
theorem flatMap_assemble (entries : List (ℕ × Operator α)) :
    (assemble entries).flatMap (fun o => listFrom o.1 o.2) = entries := by
  have hall : ∀ (depth : ℕ) (l : List (ℕ × Outline α)), (∀ o ∈ l, o.1 = depth) →
      listAll depth (l.map Prod.snd) = l.flatMap (fun o => listFrom o.1 o.2) := by
    intro depth l hl
    induction l with
    | nil => rfl
    | cons o l ih =>
      obtain ⟨ho, hl⟩ := List.forall_mem_cons.mp hl
      rw [List.map_cons, listAll, List.flatMap_cons, ih hl, ho]
  induction entries with
  | nil => rfl
  | cons entry entries ih =>
    have hbelow : ∀ o ∈ (assemble entries).takeWhile (fun o => o.1 = entry.1 + 1),
        o.1 = entry.1 + 1 := by
      intro o ho
      simpa using List.mem_takeWhile_imp ho
    rw [assemble, List.foldr_cons, ← assemble, gather, List.flatMap_cons, listFrom,
      hall _ _ hbelow, List.cons_append, ← List.flatMap_append, List.takeWhile_append_dropWhile, ih]

/-- A tree is rebuilt from its listing and from no other list. -/
theorem rebuild?_eq_some_iff {entries : List (ℕ × Operator α)} {o : Outline α} :
    rebuild? entries = some o ↔ o.listing = entries := by
  constructor
  · intro h
    rw [rebuild?] at h
    split at h
    · next o' hassemble =>
      cases h
      have hflat := flatMap_assemble entries
      rw [hassemble] at hflat
      simpa [listing] using hflat
    · cases h
  · rintro rfl
    have hassemble : assemble (listFrom 0 o ++ []) = (0, o) :: assemble [] :=
      assemble_listFrom (by simp) o
    rw [List.append_nil] at hassemble
    rw [rebuild?, listing, hassemble]
    rfl

end Outline

namespace Expression

mutual

/-- The tree of the operators of an expression. -/
def outline : Expression α → Outline α
  | node op children _ => .node op (outlines children)

def outlines : List (Expression α) → List (Outline α)
  | [] => []
  | e :: rest => outline e :: outlines rest

end

/-- What the listing shows of an expression without its results. -/
def depths (e : Expression α) : List (ℕ × Operator α) := e.walk.map (fun s => (s.1, s.2.1))

mutual

theorem length_walkFrom (depth : ℕ) (e : Expression α) :
    (walkFrom depth e).length = e.operatorCount := by
  cases e with
  | node op children p =>
    rw [walkFrom, List.length_cons, length_walkAll, operatorCount, Nat.add_comm]

theorem length_walkAll (depth : ℕ) (children : List (Expression α)) :
    (walkAll depth children).length = totalCount children := by
  cases children with
  | nil => rfl
  | cons e rest =>
    rw [walkAll, List.length_append, length_walkFrom depth e, length_walkAll depth rest, totalCount]

end

mutual

theorem listFrom_outline (depth : ℕ) (e : Expression α) :
    e.outline.listFrom depth = (walkFrom depth e).map (fun s => (s.1, s.2.1)) := by
  cases e with
  | node op children p =>
    rw [outline, Outline.listFrom, walkFrom, List.map_cons, listAll_outlines (depth + 1) children]

theorem listAll_outlines (depth : ℕ) (children : List (Expression α)) :
    Outline.listAll depth (outlines children) =
      (walkAll depth children).map (fun s => (s.1, s.2.1)) := by
  cases children with
  | nil => rfl
  | cons e rest =>
    rw [outlines, Outline.listAll, walkAll, List.map_append, listFrom_outline depth e,
      listAll_outlines depth rest]

end

/-- An expression is listed as the tree of its operators. -/
theorem listing_outline (e : Expression α) : e.outline.listing = e.depths := listFrom_outline 0 e

/-- Expressions that are told apart by their outlines, one after the other. -/
theorem eq_of_outlines {l l' : List (Expression α)}
    (h : ∀ e ∈ l, ∀ e' ∈ l', e.outline = e'.outline → e = e') (ho : outlines l = outlines l') :
    l = l' := by
  induction l generalizing l' with
  | nil =>
    cases l' with
    | nil => rfl
    | cons e' l' => cases ho
  | cons e l ih =>
    cases l' with
    | nil => cases ho
    | cons e' l' =>
      obtain ⟨he, hl⟩ := List.cons.inj ho
      rw [h e List.mem_cons_self e' List.mem_cons_self he,
        ih (fun f hf f' hf' => h f (List.mem_cons_of_mem _ hf) f' (List.mem_cons_of_mem _ hf')) hl]

/-- The root of an expression at some depth. -/
def entry (depth : ℕ) (e : Expression α) : ℕ × Operator α × Profile α :=
  (depth, e.operator, e.profile)

theorem walkFrom_eq_cons (depth : ℕ) (e : Expression α) :
    walkFrom depth e = e.entry depth :: walkAll (depth + 1) e.children := by
  cases e
  rfl

mutual

/-- Nothing that is listed stands above its root. -/
theorem le_depth_of_walkFrom {depth : ℕ} {s : ℕ × Operator α × Profile α} (e : Expression α)
    (hs : s ∈ walkFrom depth e) : depth ≤ s.1 := by
  cases e with
  | node op children p =>
    rcases List.mem_cons.mp hs with rfl | hs
    · exact Nat.le_refl _
    · exact Nat.le_of_succ_le (le_depth_of_walkAll children hs)

theorem le_depth_of_walkAll {depth : ℕ} {s : ℕ × Operator α × Profile α}
    (children : List (Expression α)) (hs : s ∈ walkAll depth children) : depth ≤ s.1 := by
  cases children with
  | nil => cases hs
  | cons e rest =>
    rcases List.mem_append.mp hs with hs | hs
    · exact le_depth_of_walkFrom e hs
    · exact le_depth_of_walkAll rest hs

end

/-- What is listed of several expressions begins at their depth. -/
theorem head?_walkAll (depth : ℕ) (children : List (Expression α))
    (tail : List (ℕ × Operator α × Profile α)) :
    children = [] ∨ ∃ e, (walkAll depth children ++ tail).head? = some (entry depth e) := by
  cases children with
  | nil => exact .inl rfl
  | cons e rest =>
    refine .inr ⟨e, ?_⟩
    rw [walkAll, walkFrom_eq_cons]
    rfl

mutual

/-- Along a listing depths grow one by one, though they may drop at once. -/
theorem isChain_walkFrom (depth : ℕ) (e : Expression α) :
    ((walkFrom depth e).map Prod.fst).IsChain (fun a b => b ≤ a + 1) := by
  cases e with
  | node op children p =>
    refine List.isChain_cons.mpr ⟨fun n hn => ?_, isChain_walkAll (depth + 1) children⟩
    have hhead := head?_walkAll (depth + 1) children []
    rw [List.append_nil] at hhead
    rw [List.head?_map] at hn
    rcases hhead with rfl | ⟨child, hchild⟩
    · cases hn
    · rw [hchild] at hn
      cases hn
      exact Nat.le_refl _

theorem isChain_walkAll (depth : ℕ) (children : List (Expression α)) :
    ((walkAll depth children).map Prod.fst).IsChain (fun a b => b ≤ a + 1) := by
  cases children with
  | nil => exact .nil
  | cons e rest =>
    rw [walkAll, List.map_append, List.isChain_append]
    refine ⟨isChain_walkFrom depth e, isChain_walkAll depth rest, fun a ha b hb => ?_⟩
    obtain ⟨s, hs, rfl⟩ := List.mem_map.mp (List.mem_of_mem_getLast? ha)
    have hdeep : depth ≤ s.1 := le_depth_of_walkFrom e hs
    have hhead := head?_walkAll depth rest []
    rw [List.append_nil] at hhead
    rcases hhead with rfl | ⟨next, hnext⟩
    · cases hb
    · rw [List.head?_map, hnext] at hb
      cases hb
      exact Nat.le_succ_of_le hdeep

end

/-- The entries one step below an entry, if `after` is listed behind it. -/
def entriesBelow (depth : ℕ) (after : List (ℕ × Operator α × Profile α)) :
    List (ℕ × Operator α × Profile α) :=
  (after.takeWhile (fun s => depth < s.1)).filter (fun s => s.1 = depth + 1)

/-- What stands one step below an operator are its children. -/
theorem entriesBelow_walkAll {depth : ℕ} {tail : List (ℕ × Operator α × Profile α)}
    (h : ∀ s ∈ tail.head?, s.1 ≤ depth) (children : List (Expression α)) :
    entriesBelow depth (walkAll (depth + 1) children ++ tail) =
      children.map (entry (depth + 1)) := by
  have hdeep : ∀ s ∈ walkAll (depth + 1) children, decide (depth < s.1) = true :=
    fun s hs => decide_eq_true (le_depth_of_walkAll children hs)
  have htail : tail.takeWhile (fun s => depth < s.1) = [] := by
    cases tail with
    | nil => rfl
    | cons s tail => exact List.takeWhile_cons_of_neg (by simpa using h s rfl)
  rw [entriesBelow, List.takeWhile_append_of_pos hdeep, htail, List.append_nil]
  clear hdeep
  induction children with
  | nil => rfl
  | cons e rest ih =>
    have hlower : (walkAll (depth + 1 + 1) e.children).filter (fun s => s.1 = depth + 1) = [] := by
      refine List.filter_eq_nil_iff.mpr (fun s hs heq => ?_)
      have hle : depth + 1 + 1 ≤ s.1 := le_depth_of_walkAll e.children hs
      rw [of_decide_eq_true heq] at hle
      exact absurd hle (Nat.not_succ_le_self _)
    have hroot : (e.entry (depth + 1)).1 = depth + 1 := rfl
    rw [walkAll, List.filter_append, walkFrom_eq_cons, List.filter_cons, hroot, hlower, ih,
      List.map_cons]
    simp

section Made

variable [Scalar α] [Statistics.NumberHash α] {db : Database α}

/-- Each entry of a listing has the result that its operator makes of the results one step below.
-/
def Explained (db : Database α) (entries : List (ℕ × Operator α × Profile α)) : Prop :=
  ∀ s after, s :: after <:+ entries →
    s.2.1.compute db ((entriesBelow s.1 after).map (fun t => t.2.2)) = .ok s.2.2

theorem explained_cons_iff {s : ℕ × Operator α × Profile α}
    {entries : List (ℕ × Operator α × Profile α)} : Explained db (s :: entries) ↔
      s.2.1.compute db ((entriesBelow s.1 entries).map (fun t => t.2.2)) = .ok s.2.2 ∧
        Explained db entries := by
  constructor
  · exact fun h => ⟨h s entries List.suffix_rfl,
      fun t after hafter => h t after (hafter.trans (List.suffix_cons _ _))⟩
  · rintro ⟨hs, hentries⟩ t after hafter
    rcases List.suffix_cons_iff.mp hafter with heq | hafter
    · cases heq
      exact hs
    · exact hentries t after hafter

/-- Expressions one after the other are explained if each of them is. -/
theorem explained_walkAll {depth : ℕ} {children : List (Expression α)}
    (hchildren : ∀ child ∈ children, ∀ tail, Explained db tail →
      (∀ s ∈ tail.head?, s.1 ≤ depth) → Explained db (walkFrom depth child ++ tail))
    {tail : List (ℕ × Operator α × Profile α)} (htail : Explained db tail)
    (h : ∀ s ∈ tail.head?, s.1 ≤ depth) : Explained db (walkAll depth children ++ tail) := by
  induction children with
  | nil => exact htail
  | cons e rest ih =>
    obtain ⟨he, hrest⟩ := List.forall_mem_cons.mp hchildren
    rw [walkAll, List.append_assoc]
    refine he _ (ih hrest) (fun s hs => ?_)
    rcases head?_walkAll depth rest tail with rfl | ⟨next, hnext⟩
    · exact h s hs
    · rw [hnext] at hs
      cases hs
      exact Nat.le_refl _

/-- What was made of operators shows how it was made, whatever is listed behind it. -/
theorem Built.explained {e : Expression α} (he : e.Built db) {depth : ℕ}
    {tail : List (ℕ × Operator α × Profile α)} (htail : Explained db tail)
    (h : ∀ s ∈ tail.head?, s.1 ≤ depth) : Explained db (walkFrom depth e ++ tail) := by
  induction he generalizing depth tail with
  | @make op children e before made ih =>
    obtain ⟨p, hp, rfl⟩ := make_eq_ok.mp made
    have hdeep : ∀ s ∈ tail.head?, s.1 ≤ depth + 1 := fun s hs => Nat.le_succ_of_le (h s hs)
    rw [walkFrom, List.cons_append, explained_cons_iff]
    refine ⟨?_, explained_walkAll (fun child hchild tail => ih child hchild) htail hdeep⟩
    rw [entriesBelow_walkAll h, List.map_map]
    exact hp

/-- Operators in the same tree have the same results. -/
theorem Built.eq_of_outline {e e' : Expression α} (he : e.Built db) (he' : e'.Built db)
    (h : e.outline = e'.outline) : e = e' := by
  induction he generalizing e' with
  | @make op children e before made ih =>
    cases he' with
    | @make op' children' _ before' made' =>
      obtain ⟨p, hp, rfl⟩ := make_eq_ok.mp made
      obtain ⟨p', hp', rfl⟩ := make_eq_ok.mp made'
      obtain ⟨rfl, houtlines⟩ := Outline.node.inj h
      obtain rfl : children = children' :=
        eq_of_outlines (fun e he e' he' => ih e he (before' e' he')) houtlines
      cases hp.symm.trans hp'
      rfl

/-- A listing has an entry for each operator, the root first, and depths that grow one by one below
it. Each entry has the result that its operator makes of those one step below, and of operators and
depths alone the tree of operators can be rebuilt, which no other expression has. -/
theorem Built.walk_faithful {e : Expression α} (he : e.Built db) :
    e.walk.length = e.operatorCount ∧
      (∃ later, e.walk = (0, e.operator, e.profile) :: later) ∧
      (e.walk.map Prod.fst).IsChain (fun a b => 1 ≤ b ∧ b ≤ a + 1) ∧
      Explained db e.walk ∧
      (∀ o, Outline.rebuild? e.depths = some o ↔ o = e.outline) ∧
      ∀ e' : Expression α, e'.Built db → e'.depths = e.depths → e' = e := by
  have hwalk : e.walk = e.entry 0 :: walkAll 1 e.children := walkFrom_eq_cons 0 e
  have hrebuild : Outline.rebuild? e.depths = some e.outline :=
    Outline.rebuild?_eq_some_iff.mpr e.listing_outline
  refine ⟨length_walkFrom 0 e, ⟨_, hwalk⟩, ?_, ?_, fun o => ?_, fun e' he' h => ?_⟩
  · have hlater : ∀ n ∈ (walkAll 1 e.children).map Prod.fst, 1 ≤ n :=
      List.forall_mem_map.mpr (fun s hs => le_depth_of_walkAll e.children hs)
    refine (isChain_walkFrom 0 e).imp_of_mem_tail_imp (fun a b _ hb hab => ⟨hlater b ?_, hab⟩)
    rwa [hwalk] at hb
  · have hexplained : Explained db (walkFrom 0 e ++ []) :=
      he.explained (fun _ _ h => by simp at h) (by simp)
    rwa [List.append_nil] at hexplained
  · rw [hrebuild, Option.some_inj, eq_comm]
  · rw [← h] at hrebuild
    have hlisting := Outline.rebuild?_eq_some_iff.mpr e'.listing_outline
    exact he'.eq_of_outline he (Option.some_inj.mp (hlisting.symm.trans hrebuild))

end Made

/-- All nodes, joined with those that have a label. -/
theorem walk_faithful_of_joined : ∃ (_ : Statistics.NumberHash ℚ) (e : Expression ℚ),
    e.Built ⟨⟨Statistics.Store.empty 10, true⟩, Labels.Distribution.single [1]⟩ ∧
      e.depths = [(0, .join), (1, .scan "a"), (1, .selectLabel "b" 1), (2, .scan "b")] ∧
      e.operatorCount = 4 ∧ ∀ o, Outline.rebuild? e.depths = some o ↔
        o = .node .join [.node (.scan "a") [], .node (.selectLabel "b" 1) [.node (.scan "b") []]] := by
  refine ⟨⟨fun _ => 0⟩, ?_⟩
  let hash : Statistics.NumberHash ℚ := ⟨fun _ => 0⟩
  let db : Database ℚ := ⟨⟨Statistics.Store.empty 10, true⟩, Labels.Distribution.single [1]⟩
  obtain ⟨p, hp, hbinds⟩ := scan_binds db "a"
  obtain ⟨q, hq, hbinds'⟩ := scan_binds db "b"
  obtain ⟨q', hq', hselected⟩ := selectLabel_binds db hbinds' (Set.mem_singleton "b") 1
  obtain ⟨r, hr, -⟩ := join_binds db hbinds hselected (by simp)
  have hscanA : Built db (.node (.scan "a") [] p) := .node (by simp) hp
  have hscanB : Built db (.node (.scan "b") [] q) := .node (by simp) hq
  have hlabelled : Built db (.node (.selectLabel "b" 1) [_] q') :=
    .node (List.forall_mem_singleton.mpr hscanB) hq'
  have hjoin : Built db (.node .join [_, _] r) :=
    .node (List.forall_mem_cons.mpr ⟨hscanA, List.forall_mem_singleton.mpr hlabelled⟩) hr
  obtain ⟨hlength, -, -, -, hrebuild, -⟩ := hjoin.walk_faithful
  exact ⟨_, hjoin, rfl, hlength.symm, hrebuild⟩

end Expression

end PatternCardinality.Estimate
