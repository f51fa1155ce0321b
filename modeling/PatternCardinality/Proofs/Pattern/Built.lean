import PatternCardinality.Pattern.Reader
import PatternCardinality.Proofs.Outcome
import PatternCardinality.Proofs.Pattern.Component

/-!
# Patterns as they are built

Patterns that are made step by step, or read from a text, have node variables with names of their
own, and relationships lead from one to another. The text form admits no name that begins with a
dollar sign.
-/

namespace PatternCardinality

/-- Names that begin with a dollar sign are left to the names that plans make up. -/
def Reserved (v : String) : Prop := v.toList.head? = some '$'

instance : DecidablePred Reserved := fun v =>
  inferInstanceAs (Decidable (v.toList.head? = some '$'))

namespace Pattern

/-- Patterns made by adding node variables and relationships under names that are not reserved. -/
inductive Built : Pattern → Prop
  | empty : Built Pattern.empty
  | node {p name} (labels : List String) (before : Built p) (free : ¬Reserved name) :
      Built (p.addNode name labels)
  | relationship {p base next} (type : Option String) (direction : Direction) (before : Built p)
      (baseFree : ¬Reserved base) (nextFree : ¬Reserved next) :
      Built (p.addRelationship base type direction next)

theorem names_addNode (p : Pattern) (name : String) (labels : List String) :
    (p.addNode name labels).names = if name ∈ p.names then p.names else p.names ++ [name] := by
  have h : ∀ l : List NodeVariable, (withNode name labels l).map (·.name) =
      if name ∈ l.map (·.name) then l.map (·.name) else l.map (·.name) ++ [name] := by
    intro l
    induction l with
    | nil => rfl
    | cons n l ih =>
      rw [withNode]
      by_cases hn : n.name = name
      · simp [hn]
      · have hne : ¬name = n.name := fun h => hn h.symm
        simp only [hn, ↓reduceIte, List.map_cons, ih, List.mem_cons, hne, false_or]
        split <;> rfl
  exact h p.nodes

theorem mem_names_addNode {p : Pattern} {name v : String} {labels : List String} :
    v ∈ (p.addNode name labels).names ↔ v ∈ p.names ∨ v = name := by
  rw [names_addNode]
  split
  · next h => exact (or_iff_left_of_imp (fun hv => hv ▸ h)).symm
  · simp

theorem nodup_names_addNode {p : Pattern} (h : p.names.Nodup) (name : String)
    (labels : List String) : (p.addNode name labels).names.Nodup := by
  rw [names_addNode]
  split
  · exact h
  · next hname =>
    refine List.nodup_append.mpr ⟨h, List.nodup_singleton name, ?_⟩
    rintro v hv w hw rfl
    exact hname (List.mem_singleton.mp hw ▸ hv)

theorem Proper.addNode {p : Pattern} (h : p.Proper) (name : String) (labels : List String) :
    (p.addNode name labels).Proper := by
  refine ⟨nodup_names_addNode h.distinct name labels, ?_, ?_⟩
  · intro r hr
    exact mem_names_addNode.mpr (Or.inl (h.source_mem r hr))
  · intro r hr
    exact mem_names_addNode.mpr (Or.inl (h.target_mem r hr))

theorem names_addRelationship (p : Pattern) (base next : String) (type : Option String)
    (direction : Direction) :
    (p.addRelationship base type direction next).names =
      ((p.addNode base []).addNode next []).names := rfl

theorem mem_names_addRelationship {p : Pattern} {base next v : String} {type : Option String}
    {direction : Direction} :
    v ∈ (p.addRelationship base type direction next).names ↔
      (v ∈ p.names ∨ v = base) ∨ v = next := by
  rw [names_addRelationship, mem_names_addNode, mem_names_addNode]

theorem Proper.addRelationship {p : Pattern} (h : p.Proper) (base next : String)
    (type : Option String) (direction : Direction) :
    (p.addRelationship base type direction next).Proper := by
  have hbefore := (h.addNode base []).addNode next []
  have hends : ∀ r ∈ (p.addRelationship base type direction next).relationships,
      r.source ∈ (p.addRelationship base type direction next).names ∧
        r.target ∈ (p.addRelationship base type direction next).names := by
    intro r hr
    rcases List.mem_append.mp hr with hr | hr
    · exact ⟨hbefore.source_mem r hr, hbefore.target_mem r hr⟩
    · obtain rfl := List.mem_singleton.mp hr
      cases direction <;> simp [step, mem_names_addRelationship]
  exact ⟨hbefore.distinct, fun r hr => (hends r hr).1, fun r hr => (hends r hr).2⟩

theorem Built.proper {p : Pattern} (h : p.Built) : p.Proper := by
  induction h with
  | empty => exact ⟨List.nodup_nil, by simp [Pattern.empty], by simp [Pattern.empty]⟩
  | node labels _ _ ih => exact ih.addNode _ labels
  | relationship type direction _ _ _ ih => exact ih.addRelationship _ _ type direction

theorem Built.not_reserved {p : Pattern} (h : p.Built) : ∀ v ∈ p.names, ¬Reserved v := by
  induction h with
  | empty => simp [Pattern.empty, names]
  | node labels _ free ih =>
    intro v hv
    rcases mem_names_addNode.mp hv with hv | rfl
    · exact ih v hv
    · exact free
  | relationship type direction _ baseFree nextFree ih =>
    intro v hv
    rcases mem_names_addRelationship.mp hv with (hv | rfl) | rfl
    · exact ih v hv
    · exact baseFree
    · exact nextFree

section Reading

/-- What is found in a text was read at one of its places. -/
theorem mem_found {β : Type} {at? : List Char → Option β} {s : List Char} {b : β}
    (h : b ∈ found at? s) : ∃ s', at? s' = some b := by
  induction s with
  | nil => simp [found] at h
  | cons c s ih =>
    rw [found] at h
    split at h
    · next d hd =>
      rcases List.mem_cons.mp h with rfl | h
      · exact ⟨_, hd⟩
      · exact ih h
    · exact ih h

/-- A name of letters, digits and underscores is not reserved. -/
theorem not_reserved_of_isNameChar {l : List Char} (h : ∀ c ∈ l, isNameChar c = true) :
    ¬Reserved (String.ofList l) := by
  intro hr
  have hmem : '$' ∈ l := List.mem_of_mem_head? (by simpa [Reserved] using hr)
  have hchar := h _ hmem
  revert hchar
  decide

theorem nodeAt?_not_reserved {s : List Char} {node : String × List String}
    (h : nodeAt? s = some node) : ¬Reserved node.1 := by
  obtain ⟨⟨body, rest⟩, -, h⟩ := Option.bind_eq_some_iff.mp h
  dsimp only at h
  split at h
  · next name labels _ =>
    split at h
    · next hall =>
      cases h
      exact not_reserved_of_isNameChar (List.all_eq_true.mp hall.1)
    · cases h
  · cases h

theorem endpointAt?_not_reserved {s rest : List Char} {name : String}
    (h : endpointAt? s = some (name, rest)) : ¬Reserved name := by
  obtain ⟨⟨body, after⟩, -, h⟩ := Option.bind_eq_some_iff.mp h
  have hname : ¬Reserved (String.ofList (body.takeWhile isNameChar)) :=
    not_reserved_of_isNameChar (List.all_eq_true.mp List.all_takeWhile)
  dsimp only at h
  split at h
  · cases h
    exact hname
  · cases h
    exact hname
  · cases h

theorem hopAt?_not_reserved {s : List Char} {hop : Hop} (h : hopAt? s = some hop) :
    ¬Reserved hop.base ∧ ¬Reserved hop.next := by
  obtain ⟨⟨base, s₁⟩, hbase, h⟩ := Option.bind_eq_some_iff.mp h
  obtain ⟨⟨type, direction, s₂⟩, -, h⟩ := Option.bind_eq_some_iff.mp h
  obtain ⟨⟨next, s₃⟩, hnext, h⟩ := Option.bind_eq_some_iff.mp h
  cases h
  exact ⟨endpointAt?_not_reserved hbase, endpointAt?_not_reserved hnext⟩

variable {α : Type}

theorem addPart_built {p p' : Pattern} {part : List Char} (h : p.Built)
    (hadd : (addPart p part : Except (Failure α) _) = .ok p') : p'.Built := by
  obtain ⟨p₁, hnodes, hhops⟩ := Outcome.bind_eq_ok.mp hadd
  have hbuilt : p₁.Built := by
    refine Outcome.foldlM_invariant (P := Built) (fun p node p' hnode hp hp' => ?_) h hnodes
    rw [addFoundNode] at hp'
    split at hp'
    · cases hp'
    · cases hp'
      obtain ⟨s, hs⟩ := mem_found hnode
      exact .node node.2 hp (nodeAt?_not_reserved hs)
  refine Outcome.foldlM_invariant (P := Built) (fun p hop p' hhop hp hp' => ?_) hbuilt hhops
  rw [addFoundHop] at hp'
  split at hp'
  · cases hp'
  · cases hp'
    obtain ⟨s, hs⟩ := mem_found hhop
    obtain ⟨hbase, hnext⟩ := hopAt?_not_reserved hs
    exact .relationship hop.type hop.direction hp hbase hnext

/-- What is read from a text could have been built. -/
theorem parse_built {s : String} {p : Pattern}
    (h : (Pattern.parse s : Except (Failure α) _) = .ok p) : p.Built ∧ p.nodes ≠ [] := by
  obtain ⟨p', hparts, h⟩ := Outcome.bind_eq_ok.mp h
  split at h
  · cases h
  · next hne =>
    cases h
    refine ⟨Outcome.foldlM_invariant (P := Built) (fun _ _ _ _ hp hp' => addPart_built hp hp')
      .empty hparts, ?_⟩
    simpa using hne

end Reading

end Pattern

end PatternCardinality
