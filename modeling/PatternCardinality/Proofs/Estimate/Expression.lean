import PatternCardinality.Estimate.Expression
import PatternCardinality.Proofs.Estimate.Operator

/-!
# Expressions that were made

Each node of an expression has the result of its operator on the results of its children. What every
operator keeps, every expression has; and what an operator adds to a result, the expression has in
one of its operators.
-/

namespace PatternCardinality.Estimate

variable {α : Type}

namespace Expression

/-- The operators of an expression, from the root down. -/
def operators (e : Expression α) : List (Operator α) := e.walk.map (·.2.1)

mutual

theorem operators_walkFrom (m n : Nat) (e : Expression α) :
    (walkFrom m e).map (·.2.1) = (walkFrom n e).map (·.2.1) := by
  cases e with
  | node op children p =>
    simp only [walkFrom, List.map_cons, operators_walkAll (m + 1) (n + 1) children]

theorem operators_walkAll (m n : Nat) (children : List (Expression α)) :
    (walkAll m children).map (·.2.1) = (walkAll n children).map (·.2.1) := by
  cases children with
  | nil => rfl
  | cons e rest =>
    simp only [walkAll, List.map_append, operators_walkFrom m n e, operators_walkAll m n rest]

end

theorem operators_node (op : Operator α) (children : List (Expression α)) (p : Profile α) :
    (node op children p).operators = op :: children.flatMap operators := by
  have hall : ∀ l : List (Expression α), (walkAll 1 l).map (·.2.1) = l.flatMap operators := by
    intro l
    induction l with
    | nil => rfl
    | cons e l ih =>
      rw [walkAll, List.map_append, List.flatMap_cons, ih, operators_walkFrom 1 0 e]
      rfl
  simp only [operators, walk, walkFrom, List.map_cons, List.cons.injEq, true_and]
  exact hall children

end Expression

private theorem contains_insert_of_types? {p : Profile α} {v w : String}
    {types kept : TypeSet} (h : p.types? w = some types) :
    (p.relationships.insert w kept).contains v = true ↔ p.isRelationship v = true := by
  have hw : p.isRelationship w = true := OrderedMap.contains_iff.mpr ⟨types, h⟩
  rw [OrderedMap.contains_insert]
  exact or_iff_right_of_imp (fun hv => hv ▸ hw)

section Made

variable [Scalar α] [Statistics.NumberHash α] {db : Database α}

/-- An operator that has a result on some inputs takes that many. -/
theorem compute_arity {op : Operator α} {inputs : List (Profile α)} {p : Profile α}
    (h : op.compute db inputs = .ok p) : inputs.length = op.arity := by
  simp only [Operator.compute] at h
  split at h <;> first | rfl | cases h

theorem make_eq_ok {op : Operator α} {children : List (Expression α)} {e : Expression α} :
    Expression.make db op children = .ok e ↔
      ∃ p, op.compute db (children.map Expression.profile) = .ok p ∧ e = .node op children p := by
  rw [Expression.make]
  constructor
  · intro h
    split at h
    · cases h
    · obtain ⟨p, hp, h⟩ := Outcome.bind_eq_ok.mp h
      cases h
      exact ⟨p, hp, rfl⟩
  · rintro ⟨p, hp, rfl⟩
    have harity : children.length = op.arity := by simpa using compute_arity hp
    rw [if_neg (not_not.mpr harity)]
    exact Outcome.bind_eq_ok.mpr ⟨p, hp, rfl⟩

theorem apply_eq_ok {op : Operator α} {e e' : Expression α} :
    e.apply db op = .ok e' ↔ ∃ p, op.compute db [e.profile] = .ok p ∧ e' = .node op [e] p :=
  make_eq_ok

namespace Expression

/-- Expressions that were made of operators and expressions that were made before. -/
inductive Built (db : Database α) : Expression α → Prop
  | make {op children e} (before : ∀ child ∈ children, Built db child)
      (made : make db op children = .ok e) : Built db e

theorem Built.node {op : Operator α} {children : List (Expression α)} {p : Profile α}
    (h : ∀ child ∈ children, child.Built db) (hp : op.compute db (children.map profile) = .ok p) :
    (Expression.node op children p).Built db :=
  .make h (make_eq_ok.mpr ⟨p, hp, rfl⟩)

theorem Built.apply {e e' : Expression α} {op : Operator α} (h : e.Built db)
    (happly : e.apply db op = .ok e') : e'.Built db := by
  refine .make (fun child hchild => ?_) happly
  rw [List.mem_singleton.mp hchild]
  exact h

/-- What operators keep, expressions that were made have. -/
theorem Built.induct {P : Profile α → Prop} {e : Expression α} (h : e.Built db)
    (step : ∀ op ∈ e.operators, ∀ inputs p, (∀ i ∈ inputs, P i) → op.compute db inputs = .ok p →
      P p) : P e.profile := by
  induction h with
  | @make op children e before made ih =>
    obtain ⟨p, hp, rfl⟩ := make_eq_ok.mp made
    rw [operators_node] at step
    refine step op List.mem_cons_self _ p (fun i hi => ?_) hp
    obtain ⟨child, hchild, rfl⟩ := List.mem_map.mp hi
    refine ih child hchild (fun op hop => step op (List.mem_cons_of_mem _ ?_))
    exact List.mem_flatMap.mpr ⟨child, hchild, hop⟩

end Expression

/-- The relationship variable that an operator adds. -/
def Operator.added? : Operator α → Option String
  | .expand _ _ relationship _ _ => some relationship
  | _ => none

section Relationships

variable {p p' left right : Profile α} {v w : String}

/-- The relationship variables of a result are those of the inputs and that which is added. -/
theorem compute_isRelationship {op : Operator α} {inputs : List (Profile α)}
    (h : op.compute db inputs = .ok p') (v : String) : p'.isRelationship v = true ↔
      (∃ i ∈ inputs, i.isRelationship v = true) ∨ op.added? = some v := by
  simp only [Operator.compute] at h
  split at h
  · rw [scan_eq_ok h]
    simp [Profile.isRelationship, OrderedMap.contains, Operator.added?]
  · obtain ⟨shares, -, rfl⟩ := expand_eq_ok h
    refine OrderedMap.contains_insert.trans ?_
    simp only [Profile.isRelationship, List.mem_singleton, exists_eq_left, Operator.added?,
      Option.some_inj]
    tauto
  · obtain ⟨shares, -, rfl⟩ := selectLabel_eq_ok h
    split <;> simp [Profile.isRelationship, Operator.added?]
  · rcases (selectProperties_eq_ok h).2 with ⟨shares, -, rfl⟩ | ⟨types, htypes, -, rfl⟩
    · simp [Profile.isRelationship, Operator.added?]
    · simp only [List.mem_singleton, exists_eq_left, Operator.added?, reduceCtorEq, or_false]
      exact contains_insert_of_types? htypes
  · obtain ⟨old, ratio, hold, -, rfl⟩ := selectTypes_eq_ok h
    simp only [List.mem_singleton, exists_eq_left, Operator.added?, reduceCtorEq, or_false]
    exact contains_insert_of_types? hold
  · rw [join_eq_ok h]
    simp [Profile.isRelationship, OrderedMap.contains_union, Operator.added?]
  · obtain ⟨s, l, -, -, h⟩ := mergeOn_eq_ok h
    rw [identified_eq_ok h]
    simp [Profile.isRelationship, Operator.added?]
  · obtain ⟨s, l, -, -, h⟩ := selfJoin_eq_ok h
    rw [identified_eq_ok h]
    simp [Profile.isRelationship, Operator.added?]
  · cases h

/-- The relationship variables of an expression are those that its operators add. -/
theorem Expression.Built.isRelationship_iff {e : Expression α} (h : e.Built db) (v : String) :
    e.profile.isRelationship v = true ↔ ∃ op ∈ e.operators, op.added? = some v := by
  induction h with
  | @make op children e before made ih =>
    obtain ⟨p, hp, rfl⟩ := make_eq_ok.mp made
    rw [operators_node]
    refine (compute_isRelationship hp v).trans ?_
    simp only [List.mem_map, exists_exists_and_eq_and, List.mem_cons, List.mem_flatMap]
    constructor
    · rintro (⟨child, hchild, hv⟩ | hop)
      · obtain ⟨op', hop', hadded⟩ := (ih child hchild).mp hv
        exact ⟨op', Or.inr ⟨child, hchild, hop'⟩, hadded⟩
      · exact ⟨op, Or.inl rfl, hop⟩
    · rintro ⟨op', rfl | ⟨child, hchild, hop'⟩, hadded⟩
      · exact Or.inr hadded
      · exact Or.inl ⟨child, hchild, (ih child hchild).mpr ⟨op', hop', hadded⟩⟩

end Relationships

end Made

end PatternCardinality.Estimate
