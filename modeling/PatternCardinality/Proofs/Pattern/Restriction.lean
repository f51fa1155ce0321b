import PatternCardinality.Proofs.Pattern.Component

/-!
# Patterns restricted to their components

A component taken by itself is a pattern with one component: no relationship leaves it, so its
members are linked by relationships that it keeps.
-/

namespace PatternCardinality.Pattern

/-- The components of a pattern: their node variables in the order of the pattern, and they
themselves by their first node variables. -/
structure Components (p : Pattern) (parts : List (List String)) : Prop where
  names : parts.flatten.Perm p.names
  isPart : ∀ part ∈ parts, p.IsPart part
  inOrder : ∀ part ∈ parts, part.Sublist p.names
  byFirst : (parts.filterMap List.head?).Sublist p.names

section Order

variable {size : ℕ} {edges : List (ℕ × ℕ)}

/-- The least position of a component comes first in it. -/
theorem head?_componentsOf (hedges : ∀ e ∈ edges, e.1 < size ∧ e.2 < size) {i : ℕ}
    (hi : i < size) (hmark : (marks size edges).getD i 0 = i) :
    ((List.range size).filter (fun j => (marks size edges).getD j 0 = i)).head? = some i := by
  have hmem : i ∈ (List.range size).filter (fun j => (marks size edges).getD j 0 = i) := by
    simpa using ⟨hi, hmark⟩
  have hle : ∀ j ∈ (List.range size).filter (fun j => (marks size edges).getD j 0 = i), i ≤ j := by
    intro j hj
    obtain ⟨hj, hjmark⟩ := List.mem_filter.mp hj
    have hself := (marked_marks hedges).le_self j (List.mem_range.mp hj)
    rw [of_decide_eq_true hjmark] at hself
    exact hself
  have hsorted : ((List.range size).filter (fun j => (marks size edges).getD j 0 = i)).Pairwise
      (· < ·) := List.pairwise_lt_range.filter _
  cases hlist : (List.range size).filter (fun j => (marks size edges).getD j 0 = i) with
  | nil =>
    rw [hlist] at hmem
    cases hmem
  | cons j rest =>
    rw [hlist] at hmem hle hsorted
    rcases List.mem_cons.mp hmem with rfl | hrest
    · rfl
    · have hlt := (List.pairwise_cons.mp hsorted).1 i hrest
      have hji := hle j List.mem_cons_self
      omega

variable {p : Pattern} {α : Type}

theorem head?_named {positions : List ℕ} {i : ℕ} (hi : i < p.nodes.length)
    (h : positions.head? = some i) : (p.named positions).head? = p.names[i]? := by
  cases positions with
  | nil => cases h
  | cons j rest =>
    cases h
    simp [named, names, hi]

theorem components_ordered (h : p.Proper) :
    ∃ parts, (p.components : Except (Failure α) _) = .ok parts ∧
      p.Components (parts.map p.named) := by
  obtain ⟨edges, hedges, hinside, -, -⟩ := edges_spec (α := α) h
  obtain ⟨parts, hok, hperm, hparts⟩ := components_spec (α := α) h
  have heq : parts = componentsOf p.nodes.length edges := by
    simp only [components, hedges] at hok
    exact (Except.ok.inj hok).symm
  refine ⟨parts, hok, hperm, ?_, ?_, ?_⟩
  · intro part hpart
    obtain ⟨positions, hpositions, rfl⟩ := List.mem_map.mp hpart
    exact hparts positions hpositions
  · intro part hpart
    obtain ⟨positions, hpositions, rfl⟩ := List.mem_map.mp hpart
    rw [heq] at hpositions
    obtain ⟨i, -, -, rfl⟩ := mem_componentsOf.mp hpositions
    have hsub : (p.named ((List.range p.nodes.length).filter
        (fun j => (marks p.nodes.length edges).getD j 0 = i))).Sublist
          (p.named (List.range p.nodes.length)) := List.filter_sublist.filterMap _
    rwa [named_range] at hsub
  · have hfirst : ((parts.map p.named).filterMap List.head?) =
        p.named ((List.range p.nodes.length).filter
          (fun i => (marks p.nodes.length edges).getD i 0 = i)) := by
      rw [heq, componentsOf, List.map_map, List.filterMap_map, named]
      refine List.filterMap_congr (fun i hi => ?_)
      obtain ⟨hi, hmark⟩ := List.mem_filter.mp hi
      have hhead := head?_componentsOf hinside (List.mem_range.mp hi) (of_decide_eq_true hmark)
      refine (head?_named (List.mem_range.mp hi) hhead).trans ?_
      simp [names]
    have hsub : (p.named ((List.range p.nodes.length).filter
        (fun i => (marks p.nodes.length edges).getD i 0 = i))).Sublist
          (p.named (List.range p.nodes.length)) := List.filter_sublist.filterMap _
    rw [hfirst]
    rwa [named_range] at hsub

end Order

/-- The node variables among some names, and the relationships between them. -/
def restrict (p : Pattern) (members : List String) : Pattern :=
  ⟨p.nodes.filter (fun n => decide (n.name ∈ members)),
    p.relationships.filter (fun r => decide (r.source ∈ members ∧ r.target ∈ members))⟩

section Restrict

variable {p : Pattern} {members : List String} {α : Type}

theorem mem_relationships_restrict {r : Relationship} :
    r ∈ (p.restrict members).relationships ↔
      r ∈ p.relationships ∧ r.source ∈ members ∧ r.target ∈ members := by
  simp [restrict]

theorem names_restrict (p : Pattern) (members : List String) :
    (p.restrict members).names = p.names.filter (fun v => decide (v ∈ members)) := by
  rw [names, names, List.filter_map]
  rfl

/-- Names that stand in the order of the pattern are the names of the restricted pattern. -/
theorem names_restrict_of_sublist (hdistinct : p.names.Nodup) (hsub : members.Sublist p.names) :
    (p.restrict members).names = members := by
  have hall : members.filter (fun v => decide (v ∈ members)) = members :=
    List.filter_eq_self.mpr (fun v hv => decide_eq_true hv)
  have hsublist : members.Sublist (p.restrict members).names := by
    rw [names_restrict, ← hall]
    simpa [hall] using hsub.filter (fun v => decide (v ∈ members))
  refine (hsublist.eq_of_length ?_).symm
  have hperm : (p.restrict members).names.Perm members := by
    refine (List.perm_ext_iff_of_nodup ?_ (hdistinct.sublist hsub)).mpr (fun v => ?_)
    · rw [names_restrict]
      exact hdistinct.filter _
    · rw [names_restrict, List.mem_filter, decide_eq_true_iff]
      exact and_iff_right_of_imp (fun hv => hsub.subset hv)
  exact hperm.length_eq.symm

theorem Proper.restrict (h : p.Proper) (members : List String) : (p.restrict members).Proper := by
  have hmem : ∀ v, v ∈ (p.restrict members).names ↔ v ∈ p.names ∧ v ∈ members := by
    intro v
    rw [names_restrict, List.mem_filter, decide_eq_true_iff]
  refine ⟨?_, ?_, ?_⟩
  · rw [names_restrict]
    exact h.distinct.filter _
  · intro r hr
    obtain ⟨hr, hs, -⟩ := mem_relationships_restrict.mp hr
    exact (hmem r.source).mpr ⟨h.source_mem r hr, hs⟩
  · intro r hr
    obtain ⟨hr, -, ht⟩ := mem_relationships_restrict.mp hr
    exact (hmem r.target).mpr ⟨h.target_mem r hr, ht⟩

/-- What is linked from within a part is linked by relationships between its members. -/
theorem IsPart.linked_restrict (h : p.IsPart members) {v w : String} (hlink : Linked p.ends v w)
    (hv : v ∈ members) : Linked (p.restrict members).ends v w := by
  induction hlink with
  | rel v w hvw =>
    obtain ⟨r, hr, heq⟩ := List.mem_map.mp hvw
    cases heq
    have hkept : r ∈ (p.restrict members).relationships :=
      mem_relationships_restrict.mpr ⟨hr, hv, (h.closed r hr).mp hv⟩
    exact .of_mem (List.mem_map.mpr ⟨r, hkept, rfl⟩)
  | refl v => exact .refl _ v
  | symm v w hvw ih => exact (ih ((h.mem_of_linked hvw).mpr hv)).symm
  | trans v w x hvw hwx ih ih' => exact (ih hv).trans (ih' ((h.mem_of_linked hvw).mp hv))

theorem IsPart.restrict (h : p.IsPart members) : (p.restrict members).IsPart members := by
  refine ⟨h.ne_nil, fun r hr => ?_, fun v hv w hw => h.linked_restrict (h.linked v hv w hw) hv⟩
  obtain ⟨-, hs, ht⟩ := mem_relationships_restrict.mp hr
  exact iff_of_true hs ht

/-- A component taken by itself is the only component. -/
theorem components_restrict (hp : p.Proper) (h : p.IsPart members)
    (hsub : members.Sublist p.names) {parts : List (List String)}
    (hparts : (p.restrict members).Components parts) : parts = [members] := by
  have hnames := names_restrict_of_sublist hp.distinct hsub
  have hdistinct : (p.restrict members).names.Nodup := (hp.restrict members).distinct
  have hflat : [members].flatten.Perm (p.restrict members).names := by simp [hnames]
  have hone := componentCount_eq hdistinct hflat (by simpa using h.restrict)
  have hlength := componentCount_eq hdistinct hparts.names hparts.isPart
  rw [hone] at hlength
  obtain ⟨part, rfl⟩ := List.length_eq_one_iff.mp hlength.symm
  have hperm := hparts.names
  rw [List.flatten_singleton] at hperm
  have hpart := (hparts.inOrder part List.mem_cons_self).eq_of_length hperm.length_eq
  rw [hpart, hnames]

theorem labels?_restrict {v : String} (hv : v ∈ members) :
    (p.restrict members).labels? v = p.labels? v := by
  rw [labels?, labels?, restrict, List.find?_filter]
  congr 2
  funext n
  by_cases hn : n.name = v
  · simp [hn, hv]
  · simp [hn]

end Restrict

end PatternCardinality.Pattern
