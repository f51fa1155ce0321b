import PatternCardinality.Proofs.Plan.Totality

/-!
# Plans joined from the plans of components

A plan is that of the first component, joined with those of the others in their order. What holds
of a plan of a query is shown by induction on how it is joined, one case for each of the two ways.
-/

namespace PatternCardinality.Plan

open Estimate Statistics Pattern

variable {α : Type} [Scalar α] [NumberHash α]

/-- How a plan of some components is joined. Its made-up names have numbers below the one given. -/
inductive Joined (c : Planner α) (db : Database α) (q : Query α) :
    List (List String) → ℕ → Expression α → Prop where
  | first {part route e} : Route.Through q.pattern part route → planRoute c db q 0 route = .ok e →
      Joined c db q [part] route.freshCount e
  | next {parts k part route left right e} : Joined c db q parts k left →
      Route.Through q.pattern part route → planRoute c db q k route = .ok right →
      Expression.make db .join [left, right] = .ok e →
      Joined c db q (parts ++ [part]) (k + route.freshCount) e

variable {db : Database α} {c : Planner α} {q : Query α}

theorem Joined.joinRoutes {parts more : List (List String)} {rs : List Route} {k : ℕ}
    {left e : Expression α} (h : Joined c db q parts k left)
    (hthrough : List.Forall₂ (Route.Through q.pattern) more rs)
    (hplan : joinRoutes c db q k left rs = .ok e) : ∃ n, Joined c db q (parts ++ more) n e := by
  induction hthrough generalizing parts k left with
  | nil =>
    cases hplan
    rw [List.append_nil]
    exact ⟨k, h⟩
  | @cons part route more rs hroute _ ih =>
    rw [Plan.joinRoutes] at hplan
    obtain ⟨right, hright, hplan⟩ := Outcome.bind_eq_ok.mp hplan
    obtain ⟨joined, hjoined, hplan⟩ := Outcome.bind_eq_ok.mp hplan
    rw [List.append_cons]
    exact ih (h.next hroute hright hjoined) hplan

/-- A plan of a query is joined from plans of its components. -/
theorem joined_of_planQuery (hdistinct : q.pattern.names.Nodup) {e : Expression α}
    (h : planQuery c db q = .ok e) :
    ∃ parts k, q.pattern.Components parts ∧ Joined c db q parts k e := by
  obtain ⟨positions, hpositions, hcomponents⟩ :=
    components_ordered (α := α) (proper_of_planQuery db hdistinct h)
  obtain ⟨rs, hroutes, hthrough⟩ := routes_of_components hpositions hcomponents
  obtain ⟨-, route, rest, first, hfound, hfirst, hrest⟩ := routes_of_planQuery db h
  cases hroutes.symm.trans hfound
  generalize positions.map q.pattern.named = parts at hcomponents hthrough
  cases hthrough with
  | @cons part _ more _ hroute hmore =>
    obtain ⟨k, hjoined⟩ := (Joined.first hroute hfirst).joinRoutes hmore hrest
    exact ⟨part :: more, k, hcomponents, hjoined⟩

section Bindings

variable {parts : List (List String)} {k : ℕ} {e : Expression α}

theorem Joined.mem_names (h : Joined c db q parts k e) :
    ∀ v ∈ parts.flatten, v ∈ q.pattern.names := by
  induction h with
  | first hroute _ =>
    rw [List.flatten_singleton]
    exact hroute.inOrder.subset
  | next _ hroute _ _ ih =>
    intro v hv
    rw [List.flatten_append, List.flatten_singleton, List.mem_append] at hv
    exact hv.elim (ih v) (fun hv => hroute.inOrder.subset hv)

variable (hdistinct : q.pattern.names.Nodup) (hfree : ∀ v ∈ q.pattern.names, ¬Reserved v)

include hdistinct hfree

theorem Route.Through.holds {part : List String} {route : Route}
    (h : Route.Through q.pattern part route) (hplan : planRoute c db q k route = .ok e) :
    Holds {v | v ∈ part} (k + route.freshCount) e.profile :=
  holds_of_planRoute db (h.covers hdistinct) (fun v hv => hfree v (h.inOrder.subset hv)) hplan

/-- A plan binds the node variables of its components. -/
theorem Joined.holds (h : Joined c db q parts k e) :
    Holds {v | v ∈ parts.flatten} k e.profile := by
  induction h with
  | first hroute hplan =>
    have hholds := hroute.holds hdistinct hfree hplan
    rw [Nat.zero_add] at hholds
    rwa [List.flatten_singleton]
  | @next parts k part route left right e hjoined hroute hplan hjoin ih =>
    have hright := hroute.holds hdistinct hfree hplan
    have hall : ∀ v ∈ {v | v ∈ parts.flatten} ∪ {v | v ∈ part}, ¬Reserved v := by
      rintro v (hv | hv)
      · exact hfree v (hjoined.mem_names v hv)
      · exact hfree v (hroute.inOrder.subset hv)
    have hunion : {v | v ∈ (parts ++ [part]).flatten} =
        {v | v ∈ parts.flatten} ∪ {v | v ∈ part} := by
      ext v
      simp
    obtain ⟨found, hfound, hboth⟩ := exists_join db (Nat.le_add_right _ _) hall ih hright
    cases hjoin.symm.trans hfound
    rwa [hunion]

/-- A plan of a query binds the node variables of the pattern. -/
theorem holds_of_planQuery (h : planQuery c db q = .ok e) :
    ∃ k, Holds {v | v ∈ q.pattern.names} k e.profile := by
  obtain ⟨parts, k, hcomponents, hjoined⟩ := joined_of_planQuery hdistinct h
  have hall : {v | v ∈ parts.flatten} = {v | v ∈ q.pattern.names} := by
    ext v
    exact hcomponents.names.mem_iff
  exact ⟨k, hall ▸ hjoined.holds hdistinct hfree⟩

end Bindings

end PatternCardinality.Plan
