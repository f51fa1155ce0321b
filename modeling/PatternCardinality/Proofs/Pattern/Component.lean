import Mathlib.Data.List.Nodup
import Mathlib.Data.List.Perm.Basic
import Mathlib.Data.Set.Card
import Mathlib.Logic.Relation
import PatternCardinality.Pattern.Component
import PatternCardinality.Proofs.Outcome

/-!
# Connected components of patterns

Marks name the classes of the equivalence that the edges generate: two positions carry the same mark
exactly if edges link them, and the mark of a class is its least position. The components of a
pattern therefore divide its node variables into parts that no relationship leaves.
-/

namespace PatternCardinality.Pattern

/-- Edges lead from the one to the other, whichever way they point. -/
def Linked {β : Type} (edges : List (β × β)) : β → β → Prop :=
  Relation.EqvGen (fun i j => (i, j) ∈ edges)

namespace Linked

variable {β γ : Type} {edges more : List (β × β)} {i j k : β}

theorem refl (edges : List (β × β)) (i : β) : Linked edges i i := Relation.EqvGen.refl i

theorem symm (h : Linked edges i j) : Linked edges j i := Relation.EqvGen.symm i j h

theorem trans (h : Linked edges i j) (h' : Linked edges j k) : Linked edges i k :=
  Relation.EqvGen.trans i j k h h'

theorem of_mem (h : (i, j) ∈ edges) : Linked edges i j := Relation.EqvGen.rel i j h

/-- What agrees along every edge agrees on linked elements. -/
theorem eq_of_edges (f : β → γ) (hf : ∀ i j, (i, j) ∈ edges → f i = f j) (h : Linked edges i j) :
    f i = f j := by
  induction h with
  | rel i j hij => exact hf i j hij
  | refl i => rfl
  | symm i j _ ih => exact ih.symm
  | trans i j k _ _ ih ih' => exact ih.trans ih'

theorem map (f : β → γ) {images : List (γ × γ)} (hf : ∀ i j, (i, j) ∈ edges → (f i, f j) ∈ images)
    (h : Linked edges i j) : Linked images (f i) (f j) := by
  induction h with
  | rel i j hij => exact of_mem (hf i j hij)
  | refl i => exact refl images (f i)
  | symm i j _ ih => exact ih.symm
  | trans i j k _ _ ih ih' => exact ih.trans ih'

theorem mono (hsub : ∀ i j, (i, j) ∈ edges → (i, j) ∈ more) (h : Linked edges i j) :
    Linked more i j := map id hsub h

end Linked

section Marks

variable {size : Nat} {edges : List (Nat × Nat)} {marks : List Nat}

theorem length_connect (marks : List Nat) (e : Nat × Nat) :
    (connect marks e).length = marks.length := by
  simp [connect]

theorem getD_connect (e : Nat × Nat) {i : Nat} (h : i < marks.length) :
    (connect marks e).getD i 0 =
      if marks.getD i 0 = marks.getD e.1 0 ∨ marks.getD i 0 = marks.getD e.2 0 then
        min (marks.getD e.1 0) (marks.getD e.2 0)
      else marks.getD i 0 := by
  simp [connect, h]

/-- What the marks are once some edges are connected. -/
structure Marked (size : Nat) (edges : List (Nat × Nat)) (marks : List Nat) : Prop where
  length_eq : marks.length = size
  inside : ∀ i j, (i, j) ∈ edges → i < size ∧ j < size
  linked : ∀ i < size, ∀ j < size, marks.getD i 0 = marks.getD j 0 → Linked edges i j
  joined : ∀ i j, (i, j) ∈ edges → marks.getD i 0 = marks.getD j 0
  le_self : ∀ i < size, marks.getD i 0 ≤ i
  fixed : ∀ i < size, marks.getD (marks.getD i 0) 0 = marks.getD i 0

theorem marked_range (size : Nat) : Marked size [] (List.range size) := by
  have hget : ∀ i < size, (List.range size).getD i 0 = i := by
    intro i hi
    simp [hi]
  refine ⟨List.length_range, by simp, ?_, by simp, ?_, ?_⟩
  · intro i hi j hj h
    rw [hget i hi, hget j hj] at h
    exact h ▸ Linked.refl [] i
  · intro i hi
    exact Nat.le_of_eq (hget i hi)
  · intro i hi
    rw [hget i hi, hget i hi]

/-- A position keeps its mark or takes the smaller of the two that the edge brings together. -/
private theorem connect_cases (e : Nat × Nat) {i : Nat} (hi : i < marks.length) :
    (marks.getD i 0 = marks.getD e.1 0 ∨ marks.getD i 0 = marks.getD e.2 0) ∧
        (connect marks e).getD i 0 = min (marks.getD e.1 0) (marks.getD e.2 0) ∨
      (marks.getD i 0 ≠ marks.getD e.1 0 ∧ marks.getD i 0 ≠ marks.getD e.2 0) ∧
        (connect marks e).getD i 0 = marks.getD i 0 := by
  rw [getD_connect e hi]
  split <;> simp_all

private theorem linked_end (h : Marked size edges marks) {e : Nat × Nat} (he : e.1 < size)
    (he' : e.2 < size) {i : Nat} (hi : i < size)
    (hmark : marks.getD i 0 = marks.getD e.1 0 ∨ marks.getD i 0 = marks.getD e.2 0) :
    Linked (edges ++ [e]) i e.1 := by
  have hsub : ∀ i j, (i, j) ∈ edges → (i, j) ∈ edges ++ [e] := by
    intro i j hij
    exact List.mem_append_left _ hij
  have hedge : Linked (edges ++ [e]) e.1 e.2 := Linked.of_mem (by simp)
  rcases hmark with hmark | hmark
  · exact (h.linked i hi e.1 he hmark).mono hsub
  · exact ((h.linked i hi e.2 he' hmark).mono hsub).trans hedge.symm

/-- The smaller of two marks is the least position of its class, hence marked by itself. -/
private theorem connect_fixed (h : Marked size edges marks) {e : Nat × Nat} (he : e.1 < size)
    (he' : e.2 < size) {i : Nat} (hi : i < size) :
    (Pattern.connect marks e).getD ((Pattern.connect marks e).getD i 0) 0 =
      (Pattern.connect marks e).getD i 0 := by
  have hlen := h.length_eq
  have hcases := fun i (hi : i < size) => connect_cases e (show i < marks.length by omega)
  have hle := h.le_self i hi
  rcases hcases i hi with ⟨hmi, hi'⟩ | ⟨hmi, hi'⟩ <;> rw [hi']
  · have hle₁ := h.le_self e.1 he
    have hle₂ := h.le_self e.2 he'
    have hfix₁ := h.fixed e.1 he
    have hfix₂ := h.fixed e.2 he'
    have hmin : min (marks.getD e.1 0) (marks.getD e.2 0) = marks.getD e.1 0 ∨
        min (marks.getD e.1 0) (marks.getD e.2 0) = marks.getD e.2 0 := by omega
    have hself : marks.getD (min (marks.getD e.1 0) (marks.getD e.2 0)) 0 =
        min (marks.getD e.1 0) (marks.getD e.2 0) := by
      rcases hmin with hm | hm <;> rw [hm] <;> assumption
    rcases hcases (min (marks.getD e.1 0) (marks.getD e.2 0)) (by omega) with ⟨-, hm⟩ | ⟨hm, -⟩
    · exact hm
    · omega
  · have hfix := h.fixed i hi
    rcases hcases (marks.getD i 0) (by omega) with ⟨hm, -⟩ | ⟨-, hm⟩ <;> omega

theorem Marked.connect (h : Marked size edges marks) {e : Nat × Nat} (he : e.1 < size)
    (he' : e.2 < size) : Marked size (edges ++ [e]) (connect marks e) := by
  have hlen := h.length_eq
  have hcases := fun i (hi : i < size) => connect_cases e (show i < marks.length by omega)
  refine ⟨by rw [length_connect, hlen], ?_, ?_, ?_, ?_, ?_⟩
  · intro i j hij
    rcases List.mem_append.mp hij with hij | hij
    · exact h.inside i j hij
    · obtain rfl := List.mem_singleton.mp hij
      exact ⟨he, he'⟩
  · intro i hi j hj hij
    rcases hcases i hi with ⟨hmi, hi'⟩ | ⟨hmi, hi'⟩ <;>
      rcases hcases j hj with ⟨hmj, hj'⟩ | ⟨hmj, hj'⟩
    · exact (linked_end h he he' hi hmi).trans (linked_end h he he' hj hmj).symm
    · omega
    · omega
    · refine (h.linked i hi j hj (by omega)).mono ?_
      intro a b hab
      exact List.mem_append_left _ hab
  · intro i j hij
    rcases List.mem_append.mp hij with hij | hij
    · obtain ⟨hi, hj⟩ := h.inside i j hij
      rw [getD_connect e (hlen ▸ hi), getD_connect e (hlen ▸ hj), h.joined i j hij]
    · obtain rfl := List.mem_singleton.mp hij
      rcases hcases i he with ⟨-, hi'⟩ | ⟨hmi, -⟩
      · rcases hcases j he' with ⟨-, hj'⟩ | ⟨hmj, -⟩
        · rw [hi', hj']
        · exact absurd rfl hmj.2
      · exact absurd rfl hmi.1
  · intro i hi
    have hle := h.le_self i hi
    rcases hcases i hi with ⟨hmi, hi'⟩ | ⟨hmi, hi'⟩ <;> omega
  · intro i hi
    exact connect_fixed h he he' hi

private theorem marked_foldl (h : Marked size edges marks) (more : List (Nat × Nat))
    (hmore : ∀ e ∈ more, e.1 < size ∧ e.2 < size) :
    Marked size (edges ++ more) (more.foldl connect marks) := by
  induction more generalizing edges marks with
  | nil => simpa using h
  | cons e more ih =>
    obtain ⟨he, he'⟩ := hmore e List.mem_cons_self
    have hrest : ∀ e ∈ more, e.1 < size ∧ e.2 < size := by
      intro d hd
      exact hmore d (List.mem_cons_of_mem _ hd)
    simpa using ih (h.connect he he') hrest

theorem marked_marks (hedges : ∀ e ∈ edges, e.1 < size ∧ e.2 < size) :
    Marked size edges (Pattern.marks size edges) :=
  marked_foldl (marked_range size) edges hedges

end Marks

section Parts

variable {size : Nat} {edges : List (Nat × Nat)}

theorem mem_componentsOf {part : List Nat} :
    part ∈ componentsOf size edges ↔ ∃ i < size, (marks size edges).getD i 0 = i ∧
      part = (List.range size).filter (fun j => (marks size edges).getD j 0 = i) := by
  simp only [componentsOf, List.mem_map, List.mem_filter, List.mem_range, decide_eq_true_eq]
  constructor
  · rintro ⟨i, ⟨hi, hm⟩, rfl⟩
    exact ⟨i, hi, hm, rfl⟩
  · rintro ⟨i, hi, hm, rfl⟩
    exact ⟨i, ⟨hi, hm⟩, rfl⟩

/-- Every position lies in exactly one component. -/
theorem flatten_componentsOf_perm (hedges : ∀ e ∈ edges, e.1 < size ∧ e.2 < size) :
    (componentsOf size edges).flatten.Perm (List.range size) := by
  have h := marked_marks hedges
  have hnodup : (componentsOf size edges).flatten.Nodup := by
    refine List.nodup_flatten.mpr ⟨?_, ?_⟩
    · intro part hpart
      obtain ⟨i, -, -, rfl⟩ := mem_componentsOf.mp hpart
      exact List.nodup_range.filter _
    · refine List.pairwise_map.mpr (List.Pairwise.imp ?_ (List.nodup_range.filter _))
      intro i j hij k hki hkj
      simp only [List.mem_filter, decide_eq_true_eq] at hki hkj
      exact hij (hki.2.symm.trans hkj.2)
  refine (List.perm_ext_iff_of_nodup hnodup List.nodup_range).mpr (fun j => ?_)
  rw [List.mem_flatten]
  constructor
  · rintro ⟨part, hpart, hj⟩
    obtain ⟨i, -, -, rfl⟩ := mem_componentsOf.mp hpart
    exact (List.mem_filter.mp hj).1
  · intro hj
    have hj := List.mem_range.mp hj
    have hle := h.le_self j hj
    refine ⟨_, mem_componentsOf.mpr ⟨_, Nat.lt_of_le_of_lt hle hj, h.fixed j hj, rfl⟩, ?_⟩
    simp [hj]

/-- A component of positions: it is not empty, no edge leaves it, and edges link its members. -/
theorem component_spec (hedges : ∀ e ∈ edges, e.1 < size ∧ e.2 < size) {part : List Nat}
    (hpart : part ∈ componentsOf size edges) :
    part ≠ [] ∧ (∀ i j, (i, j) ∈ edges → (i ∈ part ↔ j ∈ part)) ∧
      ∀ i ∈ part, ∀ j ∈ part, Linked edges i j := by
  have h := marked_marks hedges
  obtain ⟨k, hk, hmark, rfl⟩ := mem_componentsOf.mp hpart
  simp only [List.mem_filter, List.mem_range, decide_eq_true_eq]
  refine ⟨List.ne_nil_of_mem (a := k) (by simpa using ⟨hk, hmark⟩), ?_, ?_⟩
  · intro i j hij
    have hin := h.inside i j hij
    rw [h.joined i j hij]
    exact and_congr_left (fun _ => iff_of_true hin.1 hin.2)
  · rintro i ⟨hi, hmi⟩ j ⟨hj, hmj⟩
    exact h.linked i hi j hj (hmi.trans hmj.symm)

end Parts

/-- The names of the node variables. -/
def names (p : Pattern) : List String := p.nodes.map (·.name)

/-- The names that relationships connect. -/
def ends (p : Pattern) : List (String × String) :=
  p.relationships.map (fun r => (r.source, r.target))

/-- Node variables have names of their own, and relationships lead from one to another. -/
structure Proper (p : Pattern) : Prop where
  distinct : p.names.Nodup
  source_mem : ∀ r ∈ p.relationships, r.source ∈ p.names
  target_mem : ∀ r ∈ p.relationships, r.target ∈ p.names

/-- Some node variables that relationships link with each other and with no further ones. -/
structure IsPart (p : Pattern) (members : List String) : Prop where
  ne_nil : members ≠ []
  closed : ∀ r ∈ p.relationships, r.source ∈ members ↔ r.target ∈ members
  linked : ∀ v ∈ members, ∀ w ∈ members, Linked p.ends v w

/-- The names at some positions. -/
def named (p : Pattern) (positions : List Nat) : List String :=
  positions.filterMap (fun i => (p.nodes[i]?).map (·.name))

section Names

variable {p : Pattern} {α : Type}

theorem named_range (p : Pattern) : p.named (List.range p.nodes.length) = p.names := by
  have h : ∀ l : List NodeVariable,
      (List.range l.length).filterMap (fun i => (l[i]?).map (·.name)) = l.map (·.name) := by
    intro l
    induction l with
    | nil => rfl
    | cons n l ih => simpa [List.range_succ_eq_map, List.filterMap_map] using ih
  exact h p.nodes

theorem mem_named {positions : List Nat} {v : String} :
    v ∈ p.named positions ↔ ∃ i ∈ positions, p.names[i]? = some v := by
  simp [named, names]

/-- With distinct names, a name stands at one position. -/
theorem mem_named_iff (h : p.names.Nodup) {positions : List Nat} {i : Nat} {v : String}
    (hi : p.names[i]? = some v) : v ∈ p.named positions ↔ i ∈ positions := by
  rw [mem_named]
  constructor
  · rintro ⟨j, hj, hv⟩
    obtain ⟨hil, hiv⟩ := List.getElem?_eq_some_iff.mp hi
    obtain ⟨hjl, hjv⟩ := List.getElem?_eq_some_iff.mp hv
    have hij : j = i := (List.Nodup.getElem_inj_iff h).mp (hjv.trans hiv.symm)
    exact hij ▸ hj
  · intro hmem
    exact ⟨i, hmem, hi⟩

theorem position?_of_mem {v : String} (h : v ∈ p.names) :
    ∃ i < p.nodes.length, p.position? v = some i ∧ p.names[i]? = some v := by
  cases hpos : p.position? v with
  | none =>
    obtain ⟨n, hn, rfl⟩ := List.mem_map.mp h
    have hne := List.findIdx?_eq_none_iff.mp hpos n hn
    simp at hne
  | some i =>
    obtain ⟨hi, hv, -⟩ := List.findIdx?_eq_some_iff_getElem.mp hpos
    exact ⟨i, hi, rfl, by simpa [names, hi] using hv⟩

/-- The edge of a relationship leads between the positions of its ends. -/
theorem edge_eq_ok (h : p.Proper) {r : Relationship} (hr : r ∈ p.relationships) :
    ∃ e : Nat × Nat, (p.edge r : Except (Failure α) _) = .ok e ∧ e.1 < p.nodes.length ∧
      e.2 < p.nodes.length ∧ p.names[e.1]? = some r.source ∧ p.names[e.2]? = some r.target := by
  obtain ⟨i, hi, hpi, hni⟩ := position?_of_mem (h.source_mem r hr)
  obtain ⟨j, hj, hpj, hnj⟩ := position?_of_mem (h.target_mem r hr)
  refine ⟨(i, j), ?_, hi, hj, hni, hnj⟩
  simp only [edge, endpoint, hpi, hpj]
  rfl

/-- Edges are those of the relationships of a proper pattern. -/
theorem edges_spec (h : p.Proper) :
    ∃ edges, p.relationships.mapM (p.edge (α := α)) = .ok edges ∧
      (∀ e ∈ edges, e.1 < p.nodes.length ∧ e.2 < p.nodes.length) ∧
      (∀ r ∈ p.relationships, ∃ e ∈ edges,
        p.names[e.1]? = some r.source ∧ p.names[e.2]? = some r.target) ∧
      ∀ e ∈ edges, ∃ r ∈ p.relationships,
        p.names[e.1]? = some r.source ∧ p.names[e.2]? = some r.target := by
  obtain ⟨edges, hedges⟩ : ∃ edges, p.relationships.mapM (p.edge (α := α)) = .ok edges := by
    refine Outcome.exists_mapM_eq_ok (fun r hr => ?_)
    obtain ⟨e, he, -⟩ := edge_eq_ok (α := α) h hr
    exact ⟨e, he⟩
  obtain ⟨hleft, hright⟩ := Outcome.mem_of_mapM_eq_ok hedges
  have hspec : ∀ r ∈ p.relationships, ∀ e, p.edge (α := α) r = .ok e →
      e.1 < p.nodes.length ∧ e.2 < p.nodes.length ∧
        p.names[e.1]? = some r.source ∧ p.names[e.2]? = some r.target := by
    intro r hr e hre
    obtain ⟨e', he', hspec⟩ := edge_eq_ok (α := α) h hr
    cases hre.symm.trans he'
    exact hspec
  refine ⟨edges, hedges, ?_, ?_, ?_⟩
  · intro e he
    obtain ⟨r, hr, hre⟩ := hright e he
    obtain ⟨hi, hj, -⟩ := hspec r hr e hre
    exact ⟨hi, hj⟩
  · intro r hr
    obtain ⟨e, he, hre⟩ := hleft r hr
    exact ⟨e, he, (hspec r hr e hre).2.2⟩
  · intro e he
    obtain ⟨r, hr, hre⟩ := hright e he
    exact ⟨r, hr, (hspec r hr e hre).2.2⟩

/-- The components of a proper pattern, by name, divide its node variables into parts. -/
theorem components_spec (h : p.Proper) :
    ∃ parts, (p.components : Except (Failure α) _) = .ok parts ∧
      (parts.map p.named).flatten.Perm p.names ∧ ∀ part ∈ parts, p.IsPart (p.named part) := by
  obtain ⟨edges, hedges, hinside, hleft, hright⟩ := edges_spec (α := α) h
  have hperm := flatten_componentsOf_perm hinside
  refine ⟨componentsOf p.nodes.length edges, ?_, ?_, ?_⟩
  · simp only [components, hedges]
    rfl
  · have hnamed := hperm.filterMap (fun i => (p.nodes[i]?).map NodeVariable.name)
    rw [List.filterMap_flatten] at hnamed
    exact hnamed.trans (.of_eq p.named_range)
  · intro part hpart
    obtain ⟨hne, hclosed, hlinked⟩ := component_spec hinside hpart
    refine ⟨?_, ?_, ?_⟩
    · obtain ⟨i, hi⟩ := List.exists_mem_of_ne_nil part hne
      have hlt : i < p.nodes.length :=
        List.mem_range.mp (hperm.mem_iff.mp (List.mem_flatten.mpr ⟨part, hpart, hi⟩))
      have hname : p.names[i]? = some (p.nodes[i].name) := by simp [names, hlt]
      exact List.ne_nil_of_mem (mem_named.mpr ⟨i, hi, hname⟩)
    · intro r hr
      obtain ⟨e, he, hs, ht⟩ := hleft r hr
      rw [mem_named_iff h.distinct hs, mem_named_iff h.distinct ht]
      exact hclosed e.1 e.2 he
    · intro v hv w hw
      obtain ⟨i, hi, hvi⟩ := mem_named.mp hv
      obtain ⟨j, hj, hwj⟩ := mem_named.mp hw
      have hends : ∀ i j, (i, j) ∈ edges → (p.names.getD i "", p.names.getD j "") ∈ p.ends := by
        intro i j hij
        obtain ⟨r, hr, hs, ht⟩ := hright _ hij
        refine List.mem_map.mpr ⟨r, hr, ?_⟩
        simp [List.getD_eq_getElem?_getD, hs, ht]
      have hlink := (hlinked i hi j hj).map (fun i => p.names.getD i "") hends
      simpa [List.getD_eq_getElem?_getD, hvi, hwj] using hlink

end Names

/-- The weakly connected components: the classes of linked node variables. -/
def classes (p : Pattern) : Set (Set String) :=
  {S | ∃ v ∈ p.names, S = {w | w ∈ p.names ∧ Linked p.ends v w}}

/-- The number of weakly connected components. -/
noncomputable def componentCount (p : Pattern) : ℕ := p.classes.ncard

section Count

variable {p : Pattern} {parts : List (List String)}

/-- A part holds whatever is linked with one of its members. -/
theorem IsPart.mem_of_linked {part : List String} (h : p.IsPart part) {v w : String}
    (hlink : Linked p.ends v w) : v ∈ part ↔ w ∈ part := by
  refine iff_of_eq (hlink.eq_of_edges (fun v => v ∈ part) (fun v w hvw => ?_))
  obtain ⟨r, hr, heq⟩ := List.mem_map.mp hvw
  cases heq
  exact propext (h.closed r hr)

private theorem IsPart.eq_class {part : List String} (h : p.IsPart part)
    (hsub : ∀ w ∈ part, w ∈ p.names) {v : String} (hv : v ∈ part) :
    {w | w ∈ part} = {w | w ∈ p.names ∧ Linked p.ends v w} := by
  ext w
  constructor
  · intro hw
    exact ⟨hsub w hw, h.linked v hv w hw⟩
  · rintro ⟨-, hlink⟩
    exact (h.mem_of_linked hlink).mp hv

/-- Parts that together hold every node variable once are all the components. -/
theorem componentCount_eq (hdistinct : p.names.Nodup) (hperm : parts.flatten.Perm p.names)
    (hparts : ∀ part ∈ parts, p.IsPart part) : p.componentCount = parts.length := by
  have hsub : ∀ part ∈ parts, ∀ w ∈ part, w ∈ p.names := by
    intro part hpart w hw
    exact hperm.mem_iff.mp (List.mem_flatten.mpr ⟨part, hpart, hw⟩)
  have hclasses : p.classes = {S | S ∈ parts.map (fun part => {w | w ∈ part})} := by
    ext S
    simp only [classes, Set.mem_ofPred_eq, List.mem_map]
    constructor
    · rintro ⟨v, hv, rfl⟩
      obtain ⟨part, hpart, hvp⟩ := List.mem_flatten.mp (hperm.mem_iff.mpr hv)
      exact ⟨part, hpart, (hparts part hpart).eq_class (hsub part hpart) hvp⟩
    · rintro ⟨part, hpart, rfl⟩
      obtain ⟨v, hv⟩ := List.exists_mem_of_ne_nil part (hparts part hpart).ne_nil
      exact ⟨v, hsub part hpart v hv, (hparts part hpart).eq_class (hsub part hpart) hv⟩
  have hnodup : (parts.map (fun part => {w | w ∈ part})).Nodup := by
    refine List.pairwise_map.mpr ?_
    have hdisjoint := (List.nodup_flatten.mp (hperm.nodup_iff.mpr hdistinct)).2
    refine hdisjoint.imp_of_mem (fun {a b} ha _ hab heq => ?_)
    obtain ⟨v, hv⟩ := List.exists_mem_of_ne_nil a (hparts a ha).ne_nil
    have hvb : v ∈ {w | w ∈ b} := heq ▸ hv
    exact hab hv hvb
  classical
  have hcard := List.toFinset_card_of_nodup hnodup
  rw [componentCount, hclasses, ← List.coe_toFinset, Set.ncard_coe_finset, hcard, List.length_map]

end Count

end PatternCardinality.Pattern
