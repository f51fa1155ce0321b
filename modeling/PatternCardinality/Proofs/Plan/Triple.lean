import PatternCardinality.Plan.Query
import PatternCardinality.Proofs.Estimate.Binding
import PatternCardinality.Proofs.Estimate.Expression

/-!
# Steps of plans, as triples

A plan is a chain of steps, each an operator or the reason why there is none. A triple says that the
steps lead from results with one property to results with another, unless one of the steps is a
failure, which is then where the chain ends. Operators never add a failure of their own.
-/

namespace PatternCardinality.Plan

open Estimate Statistics

variable {α : Type}

/-- The failure of the first step that is no operator. -/
def failure? (steps : List (Step α)) : Option (Failure α) :=
  steps.findSome? fun
    | .ok _ => none
    | .error f => some f

@[simp] theorem failure?_ok (op : Operator α) (steps : List (Step α)) :
    failure? (.ok op :: steps) = failure? steps := rfl

@[simp] theorem failure?_error (f : Failure α) (steps : List (Step α)) :
    failure? (.error f :: steps) = some f := rfl

theorem failure?_append (xs ys : List (Step α)) :
    failure? (xs ++ ys) = (failure? xs).or (failure? ys) := List.findSome?_append

theorem mem_of_failure? {steps : List (Step α)} {f : Failure α} (h : failure? steps = some f) :
    .error f ∈ steps := by
  obtain ⟨s, hs, hf⟩ := List.exists_of_findSome?_eq_some h
  cases s with
  | ok op => cases hf
  | error f' =>
    cases hf
    exact hs

variable [Scalar α] [NumberHash α] {db : Database α}

theorem follow_ok (db : Database α) (e : Expression α) (op : Operator α) (steps : List (Step α)) :
    follow db e (.ok op :: steps) = e.apply db op >>= fun e' => follow db e' steps := rfl

theorem follow_error (db : Database α) (e : Expression α) (f : Failure α) (steps : List (Step α)) :
    follow db e (.error f :: steps) = .error f := rfl

theorem follow_append (db : Database α) (e : Expression α) (xs ys : List (Step α)) :
    follow db e (xs ++ ys) = follow db e xs >>= fun e' => follow db e' ys :=
  List.foldlM_append

/-- Steps that are followed to their end are operators. -/
theorem failure?_eq_none {e e' : Expression α} {steps : List (Step α)}
    (h : follow db e steps = .ok e') : failure? steps = none := by
  induction steps generalizing e with
  | nil => rfl
  | cons s steps ih =>
    cases s with
    | error f =>
      rw [follow_error] at h
      cases h
    | ok op =>
      rw [follow_ok] at h
      obtain ⟨e₁, -, h⟩ := Outcome.bind_eq_ok.mp h
      exact ih h

/-- Steps lead from results with `P` to results with `Q`, or end with the failure of the first of
them that is no operator. -/
def Runs (db : Database α) (P : Profile α → Prop) (steps : List (Step α)) (Q : Profile α → Prop) :
    Prop :=
  ∀ e : Expression α, P e.profile →
    (∃ e', follow db e steps = .ok e' ∧ Q e'.profile) ∨
      ∃ f, follow db e steps = .error f ∧ failure? steps = some f

namespace Runs

variable {P Q R : Profile α → Prop} {xs ys : List (Step α)}

theorem nil (h : ∀ p, P p → Q p) : Runs db P [] Q := by
  intro e he
  exact Or.inl ⟨e, rfl, h _ he⟩

theorem append (hxs : Runs db P xs Q) (hys : Runs db Q ys R) : Runs db P (xs ++ ys) R := by
  intro e he
  rw [follow_append, failure?_append]
  rcases hxs e he with ⟨e', hok, hq⟩ | ⟨f, herr, hf⟩
  · rw [hok, failure?_eq_none hok]
    rcases hys e' hq with ⟨e'', hok', hr⟩ | ⟨f, herr, hf⟩
    · exact Or.inl ⟨e'', hok', hr⟩
    · exact Or.inr ⟨f, herr, hf⟩
  · rw [herr, hf]
    exact Or.inr ⟨f, rfl, rfl⟩

/-- One step: if it is an operator, it has a result. -/
theorem single {s : Step α}
    (h : ∀ op, s = .ok op → ∀ p, P p → ∃ p', op.compute db [p] = .ok p' ∧ Q p') :
    Runs db P [s] Q := by
  intro e he
  cases s with
  | error f => exact Or.inr ⟨f, rfl, rfl⟩
  | ok op =>
    obtain ⟨p', hp', hq⟩ := h op rfl e.profile he
    have happly : e.apply db op = .ok (.node op [e] p') := apply_eq_ok.mpr ⟨p', hp', rfl⟩
    refine Or.inl ⟨.node op [e] p', ?_, hq⟩
    rw [follow_ok, happly]
    rfl

/-- Steps of which each keeps a property. -/
theorem all {steps : List (Step α)}
    (h : ∀ op, .ok op ∈ steps → ∀ p, P p → ∃ p', op.compute db [p] = .ok p' ∧ P p') :
    Runs db P steps P := by
  induction steps with
  | nil => exact nil (fun _ hp => hp)
  | cons s steps ih =>
    have hs : Runs db P [s] P := by
      refine single (fun op hop => h op ?_)
      rw [hop]
      exact List.mem_cons_self
    exact hs.append (ih (fun op hop => h op (List.mem_cons_of_mem _ hop)))

end Runs

end PatternCardinality.Plan
