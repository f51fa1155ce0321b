import PatternCardinality.Proofs.Pattern.Renaming
import PatternCardinality.Proofs.Plan.Route

/-!
# Routes through patterns under other names

Which variable a route starts from and in which order it takes relationships depends on where the
relationships lead, not on how variables are called. The search keeps that what it has met on either
side corresponds.
-/

namespace PatternCardinality.Plan

variable {R : String → String → Prop}

/-- Crossings that agree but for how variables are called. -/
structure Crossing.Renamed (R : String → String → Prop) (x x' : Crossing) : Prop where
  relationship : x.relationship.Renamed R x'.relationship
  base : R x.base x'.base
  direction : x'.direction = x.direction
  next : R x.next x'.next

theorem Crossing.of_renamed {r r' : Relationship} (h : r.Renamed R r') (fromSource : Bool) :
    (Crossing.of r fromSource).Renamed R (Crossing.of r' fromSource) := by
  cases fromSource with
  | true => exact ⟨h, h.source, by simp only [Crossing.of, ↓reduceIte, h.directed], h.target⟩
  | false => exact ⟨h, h.target, by simp [Crossing.of, h.directed], h.source⟩

namespace Route

/-- Routes that agree but for how variables are called. -/
structure Renamed (R : String → String → Prop) (route route' : Route) : Prop where
  start : R route.start route'.start
  crossings : List.Forall₂ (Crossing.Renamed R) route.crossings route'.crossings
  closing : List.Forall₂ (Relationship.Renamed R) route.closing route'.closing

theorem Renamed.freshCount {route route' : Route} (h : route.Renamed R route') :
    route'.freshCount = route.freshCount := by
  rw [Route.freshCount, Route.freshCount, h.crossings.length_eq, h.closing.length_eq]

section Search

variable (hR : Relator.BiUnique R)

include hR

theorem touches_renamed {r r' : Relationship} (h : r.Renamed R r') {v v' : String} (hv : R v v') :
    r.touches v = true ↔ r'.touches v' = true := by
  have hsource : r.source = v ↔ r'.source = v' := Relator.rel_eq hR h.source hv
  have htarget : r.target = v ↔ r'.target = v' := Relator.rel_eq hR h.target hv
  rw [touches_iff, touches_iff, hsource, htarget]

variable {l l' : List Relationship} (h : List.Forall₂ (Relationship.Renamed R) l l')

include h

theorem touching_renamed {v v' : String} (hv : R v v') :
    List.Forall₂ (Relationship.Renamed R) (touching v l) (touching v' l') := by
  rw [touching, touching]
  exact List.rel_filter (R := Relationship.Renamed R) (fun _ _ hr => touches_renamed hR hr hv) h

theorem apart_renamed {v v' : String} (hv : R v v') :
    List.Forall₂ (Relationship.Renamed R) (apart v l) (apart v' l') := by
  rw [apart, apart]
  refine List.rel_filter (R := Relationship.Renamed R) (fun r r' hr => ?_) h
  simp only [Bool.not_eq_true', ← Bool.not_eq_true]
  exact not_congr (touches_renamed hR hr hv)

theorem incidence_renamed {v v' : String} (hv : R v v') : incidence l' v' = incidence l v := by
  rw [incidence, incidence, List.countP_eq_length_filter, List.countP_eq_length_filter]
  exact (touching_renamed hR h hv).length_eq.symm

theorem busiest_renamed {first first' : String} {more more' : List String}
    (hfirst : R first first') (hmore : List.Forall₂ R more more') :
    R (busiest l first more) (busiest l' first' more') := by
  refine List.rel_foldl (P := R) (fun best best' hbest v v' hv => ?_) hfirst hmore
  rw [incidence_renamed hR h hbest, incidence_renamed hR h hv]
  split
  · exact hv
  · exact hbest

omit h

/-- What was met on either side of a search corresponds. -/
def SameSeen (R : String → String → Prop) (seen seen' : OrderedSet String) : Prop :=
  ∀ v v', R v v' → (v ∈ seen ↔ v' ∈ seen')

theorem SameSeen.insert {seen seen' : OrderedSet String} (hseen : SameSeen R seen seen')
    {w w' : String} (hw : R w w') : SameSeen R (seen.insert w) (seen'.insert w') := by
  intro v v' hv
  have hsame : v = w ↔ v' = w' := Relator.rel_eq hR hv hw
  rw [OrderedSet.mem_insert, OrderedSet.mem_insert, hseen v v' hv, hsame]

theorem sameSeen_singleton {w w' : String} (hw : R w w') :
    SameSeen R (OrderedSet.singleton w) (OrderedSet.singleton w') := by
  intro v v' hv
  rw [OrderedSet.mem_singleton, OrderedSet.mem_singleton]
  exact Relator.rel_eq hR hv hw

/-- A search that serves corresponding queues finds the same. -/
theorem serve_renamed (seen : OrderedSet String) (queue waiting : List Relationship) :
    ∀ {seen' : OrderedSet String} {queue' waiting' : List Relationship}, SameSeen R seen seen' →
      List.Forall₂ (Relationship.Renamed R) queue queue' →
      List.Forall₂ (Relationship.Renamed R) waiting waiting' →
      List.Forall₂ (Crossing.Renamed R) (serve seen queue waiting).1
          (serve seen' queue' waiting').1 ∧
        List.Forall₂ (Relationship.Renamed R) (serve seen queue waiting).2
          (serve seen' queue' waiting').2 := by
  -- the other side takes the same branch: whether an end was met does not depend on its name
  fun_induction serve seen queue waiting with
  | case1 seen waiting =>
    intro seen' queue' waiting' _ hqueue _
    cases hqueue
    rw [serve]
    exact ⟨.nil, .nil⟩
  | case2 seen waiting r queue hboth crossings closing hserve ih =>
    intro seen' queue' waiting' hseen hqueue hwaiting
    obtain ⟨r', queue', hr, htail, rfl⟩ := List.forall₂_cons_left_iff.mp hqueue
    have hboth' : r'.source ∈ seen' ∧ r'.target ∈ seen' :=
      ⟨(hseen _ _ hr.source).mp hboth.1, (hseen _ _ hr.target).mp hboth.2⟩
    obtain ⟨hcrossings, hclosing⟩ := ih hseen htail hwaiting
    rw [hserve] at hcrossings hclosing
    rw [serve, if_pos hboth']
    exact ⟨hcrossings, .cons hr hclosing⟩
  | case3 seen waiting r queue hboth c crossings closing hserve =>
    rename_i ih
    intro seen' queue' waiting' hseen hqueue hwaiting
    obtain ⟨r', queue', hr, htail, rfl⟩ := List.forall₂_cons_left_iff.mp hqueue
    have hsource : r.source ∈ seen ↔ r'.source ∈ seen' := hseen _ _ hr.source
    have hboth' : ¬(r'.source ∈ seen' ∧ r'.target ∈ seen') := by
      rwa [← hsource, ← hseen _ _ hr.target]
    have hc : c.Renamed R (Crossing.of r' (decide (r'.source ∈ seen'))) := by
      simp only [← hsource]
      exact Crossing.of_renamed hr _
    obtain ⟨hcrossings, hclosing⟩ := ih (hseen.insert hR hc.next)
      (List.rel_append htail (touching_renamed hR hwaiting hc.next))
      (apart_renamed hR hwaiting hc.next)
    rw [hserve] at hcrossings hclosing
    rw [serve, if_neg hboth']
    exact ⟨.cons hc hcrossings, hclosing⟩

include h in
theorem breadthFirst_renamed {start start' : String} (hstart : R start start') :
    (breadthFirst start l).Renamed R (breadthFirst start' l') := by
  obtain ⟨hcrossings, hclosing⟩ := serve_renamed hR _ _ _ (sameSeen_singleton hR hstart)
    (touching_renamed hR h hstart) (apart_renamed hR h hstart)
  exact ⟨hstart, hcrossings, hclosing⟩

end Search

section Patterns

variable {p p' : Pattern} (hR : Relator.BiUnique R) (h : p.Renamed R p')

include hR h

theorem through_renamed {first first' : String} {more more' : List String}
    (hfirst : R first first') (hmore : List.Forall₂ R more more') :
    (through p first more).Renamed R (through p' first' more') := by
  have hrelationships : List.Forall₂ (Relationship.Renamed R)
      (p.relationships.filter (fun r => decide (r.source ∈ first :: more)))
      (p'.relationships.filter (fun r => decide (r.source ∈ first' :: more'))) := by
    refine List.rel_filter (fun r r' hr => ?_) h.relationships
    simp only [decide_eq_true_eq]
    exact List.rel_mem hR hr.source (.cons hfirst hmore)
  exact breadthFirst_renamed hR hrelationships (busiest_renamed hR hrelationships hfirst hmore)

end Patterns

end Route

/-- The routes through a renamed pattern are those through the pattern, one by one. -/
theorem routes_renamed {α : Type} {p p' : Pattern} (hR : Relator.BiUnique R) (h : p.Renamed R p')
    (hp : p.Proper) : Outcome.Agree (List.Forall₂ (Route.Renamed R))
      (routes p : Except (Failure α) _) (routes p') := by
  obtain ⟨positions, hpositions, -⟩ := Pattern.components_spec (α := α) hp
  have hpositions' := (h.components (α := α) hR hp).trans hpositions
  simp only [routes, hpositions, hpositions', bind, Except.bind, pure, Except.pure]
  refine .ok (List.rel_filterMap (R := Eq) ?_ (List.forall₂_same.mpr (fun _ _ => rfl)))
  rintro part _ rfl
  have hnamed := h.named part
  rw [Pattern.named, Pattern.named] at hnamed
  dsimp only
  generalize List.filterMap (fun i => Option.map _ p.nodes[i]?) part = members at hnamed ⊢
  generalize List.filterMap (fun i => Option.map _ p'.nodes[i]?) part = members' at hnamed ⊢
  cases hnamed with
  | nil => exact .none
  | cons hfirst hmore => exact .some (Route.through_renamed hR h hfirst hmore)

end PatternCardinality.Plan
