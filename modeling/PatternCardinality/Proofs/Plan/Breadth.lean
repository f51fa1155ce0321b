import PatternCardinality.Proofs.Pattern.Distance
import PatternCardinality.Proofs.Plan.Route

/-!
# The search goes by distance

A relationship is queued once one of its ends is met, so its nearer end tells how far the search
is. The queue is ordered by these ends and spans two distances, and all variables at the lesser
distance are met: so crossings lead from a distance to the next one, and never back.
-/

namespace PatternCardinality.Plan

open Pattern

namespace Route

/-- The distance of the nearer end of a relationship. -/
def nearest (dist : String → ℕ) (r : Relationship) : ℕ := min (dist r.source) (dist r.target)

theorem nearest_eq {dist : String → ℕ} {r : Relationship} {v w : String} (h : r.Joins v w) :
    nearest dist r = min (dist v) (dist w) := by
  rcases h with ⟨rfl, rfl⟩ | ⟨rfl, rfl⟩
  · rfl
  · exact Nat.min_comm _ _

/-- The invariant of a search that has met all variables up to the distance `k`. -/
structure Level (members : List String) (relationships : List Relationship) (dist : String → ℕ)
    (k : ℕ) (seen : OrderedSet String) (queue waiting : List Relationship) : Prop where
  sorted : Sorted seen queue waiting
  among : ∀ r ∈ queue ++ waiting, r ∈ relationships
  taken : ∀ r ∈ relationships, r ∈ queue ∨ r ∈ waiting ∨ (r.source ∈ seen ∧ r.target ∈ seen)
  met : ∀ v ∈ members, dist v ≤ k → v ∈ seen
  ordered : queue.Pairwise (fun r s => nearest dist r ≤ nearest dist s)
  span : ∀ r ∈ queue, k ≤ nearest dist r ∧ nearest dist r ≤ k + 1

/-- Crossings from the distance `k` on: each leads one step further from the start, and none begins
nearer than the one before. -/
structure Climbs (dist : String → ℕ) (k : ℕ) (crossings : List Crossing) : Prop where
  base : ∀ c ∈ crossings, k ≤ dist c.base
  step : ∀ c ∈ crossings, dist c.next = dist c.base + 1
  ordered : crossings.Pairwise (fun c d => dist c.base ≤ dist d.base)

namespace Climbs

variable {dist : String → ℕ} {j k : ℕ} {crossings : List Crossing}

theorem nil : Climbs dist k [] := ⟨by simp, by simp, .nil⟩

theorem mono (hjk : j ≤ k) (h : Climbs dist k crossings) : Climbs dist j crossings :=
  ⟨fun c hc => hjk.trans (h.base c hc), h.step, h.ordered⟩

theorem cons {c : Crossing} (hbase : dist c.base = k) (hstep : dist c.next = k + 1)
    (h : Climbs dist k crossings) : Climbs dist k (c :: crossings) := by
  refine ⟨List.forall_mem_cons.mpr ⟨hbase.ge, h.base⟩, List.forall_mem_cons.mpr ⟨?_, h.step⟩,
    List.pairwise_cons.mpr ⟨fun d hd => ?_, h.ordered⟩⟩
  · rw [hstep, hbase]
  · rw [hbase]
    exact h.base d hd

end Climbs

namespace Level

variable {members : List String} {relationships queue waiting : List Relationship}
  {start : String} {dist : String → ℕ} {k : ℕ} {seen : OrderedSet String} {r : Relationship}

theorem first (hlayers : Layers members relationships start dist) :
    Level members relationships dist 0 (OrderedSet.singleton start)
      (touching start relationships) (apart start relationships) := by
  have hzero : ∀ r ∈ touching start relationships, nearest dist r = 0 := by
    intro r hr
    rw [nearest]
    rcases (mem_touching.mp hr).2 with hs | ht
    · rw [hs, hlayers.origin, Nat.zero_min]
    · rw [ht, hlayers.origin, Nat.min_zero]
  refine ⟨sorted_start start relationships, fun r hr => ?_, fun r hr => ?_, fun v hv hle => ?_, ?_,
    fun r hr => ?_⟩
  · exact (touching_append_apart_perm start relationships).mem_iff.mp hr
  · have hmem := (touching_append_apart_perm start relationships).mem_iff.mpr hr
    exact (List.mem_append.mp hmem).imp_right Or.inl
  · exact OrderedSet.mem_singleton.mpr (hlayers.zero v hv (Nat.le_zero.mp hle))
  · refine List.pairwise_of_forall_mem_list (fun r hr s _ => ?_)
    rw [hzero r hr]
    exact Nat.zero_le _
  · rw [hzero r hr]
    exact ⟨Nat.zero_le _, Nat.zero_le _⟩

/-- Where the queue has only the greater distance left, all variables at that distance are met. -/
theorem further (hlayers : Layers members relationships start dist)
    (h : Level members relationships dist k seen queue waiting)
    (hqueue : ∀ r ∈ queue, nearest dist r = k + 1) :
    Level members relationships dist (k + 1) seen queue waiting := by
  refine ⟨h.sorted, h.among, h.taken, fun v hv hle => ?_, h.ordered, fun r hr => ?_⟩
  · rcases Nat.le_succ_iff.mp hle with hle | heq
    · exact h.met v hv hle
    · obtain ⟨r, hr, u, hends, hu⟩ := hlayers.nearer v hv k heq
      have hmember : u ∈ members := ((hends.and_iff (· ∈ members)).mp (hlayers.inside r hr)).1
      have hseen : u ∈ seen := h.met u hmember hu.le
      rcases h.taken r hr with hq | hw | hboth
      · have hkey := hqueue r hq
        rw [nearest_eq hends, hu] at hkey
        omega
      · exact absurd hseen ((hends.and_iff (· ∉ seen)).mp (h.sorted.waiting r hw)).1
      · exact ((hends.and_iff (· ∈ seen)).mp hboth).2
  · rw [hqueue r hr]
    exact ⟨Nat.le_refl _, Nat.le_succ _⟩

/-- The first relationship of the queue tells how far the search is. -/
theorem atHead (hlayers : Layers members relationships start dist)
    (h : Level members relationships dist k seen (r :: queue) waiting) :
    k ≤ nearest dist r ∧
      Level members relationships dist (nearest dist r) seen (r :: queue) waiting := by
  obtain ⟨hle, hspan⟩ := h.span r List.mem_cons_self
  refine ⟨hle, ?_⟩
  rcases hle.eq_or_lt with heq | hlt
  · exact heq ▸ h
  · have hhead : nearest dist r = k + 1 := by omega
    rw [hhead]
    refine h.further hlayers (fun s hs => ?_)
    have hs' := (h.span s hs).2
    rcases List.mem_cons.mp hs with rfl | hs
    · exact hhead
    · have hafter := (List.pairwise_cons.mp h.ordered).1 s hs
      omega

/-- A relationship between variables that are met leaves the queue. -/
theorem drop (h : Level members relationships dist k seen (r :: queue) waiting)
    (hboth : r.source ∈ seen ∧ r.target ∈ seen) :
    Level members relationships dist k seen queue waiting := by
  refine ⟨⟨fun s hs => h.sorted.queue s (List.mem_cons_of_mem _ hs), h.sorted.waiting⟩,
    fun s hs => h.among s (List.mem_cons_of_mem _ hs), fun s hs => ?_, h.met, h.ordered.of_cons,
    fun s hs => h.span s (List.mem_cons_of_mem _ hs)⟩
  rcases h.taken s hs with hs | hs
  · rcases List.mem_cons.mp hs with rfl | hs
    · exact Or.inr (Or.inr hboth)
    · exact Or.inl hs
  · exact Or.inr hs

/-- The end of the first relationship that is not met is one step further than the other. -/
theorem crossing (hlayers : Layers members relationships start dist)
    (h : Level members relationships dist (nearest dist r) seen (r :: queue) waiting)
    {c : Crossing} (hc : c.Sound) (hr : c.relationship = r) (hnext : c.next ∉ seen) :
    dist c.base = nearest dist r ∧ dist c.next = nearest dist r + 1 := by
  have hin : r ∈ relationships := h.among r List.mem_cons_self
  have hends : r.Joins c.base c.next := hr ▸ hc.ends
  have hmember : c.next ∈ members := ((hends.and_iff (· ∈ members)).mp (hlayers.inside r hin)).2
  have hfar : nearest dist r < dist c.next :=
    Nat.lt_of_not_le (fun hle => hnext (h.met _ hmember hle))
  have hstep : dist c.next ≤ dist c.base + 1 := hlayers.across r hin _ _ hends
  rw [nearest_eq hends] at hfar ⊢
  omega

/-- What waits has no end that was met, so what touches a variable of the next level is of it. -/
theorem nearest_touching (hlayers : Layers members relationships start dist)
    (h : Level members relationships dist k seen queue waiting) {v : String} (hv : dist v = k + 1) :
    ∀ s ∈ touching v waiting, nearest dist s = k + 1 := by
  intro s hs
  obtain ⟨hs, hends⟩ := mem_touching.mp hs
  have hin : s ∈ relationships := h.among s (List.mem_append_right _ hs)
  obtain ⟨hsource, htarget⟩ := h.sorted.waiting s hs
  obtain ⟨hinside, hinside'⟩ := hlayers.inside s hin
  have hs' : k < dist s.source := Nat.lt_of_not_le (fun hle => hsource (h.met _ hinside hle))
  have ht' : k < dist s.target := Nat.lt_of_not_le (fun hle => htarget (h.met _ hinside' hle))
  rw [nearest]
  rcases hends with rfl | rfl <;> omega

/-- What touches a new variable is queued behind all that is there. -/
theorem meet (hlayers : Layers members relationships start dist)
    (h : Level members relationships dist k seen (r :: queue) waiting)
    {v : String} (hv : dist v = k + 1)
    (hnew : r.source ∈ seen.insert v ∧ r.target ∈ seen.insert v) :
    Level members relationships dist k (seen.insert v) (queue ++ touching v waiting)
      (Route.apart v waiting) := by
  have hqueue : ∀ s ∈ queue, s ∈ r :: queue := fun s hs => List.mem_cons_of_mem _ hs
  have hmove := touching_append_apart_perm v waiting
  have hkey := h.nearest_touching hlayers hv
  refine ⟨Sorted.meet ⟨fun s hs => h.sorted.queue s (hqueue s hs), h.sorted.waiting⟩ v,
    fun s hs => ?_, fun s hs => ?_, fun w hw hle => ?_, ?_, fun s hs => ?_⟩
  · rw [List.append_assoc] at hs
    rcases List.mem_append.mp hs with hs | hs
    · exact h.among s (List.mem_append_left _ (hqueue s hs))
    · exact h.among s (List.mem_append_right _ (hmove.mem_iff.mp hs))
  · rcases h.taken s hs with hs | hs | ⟨hsource, htarget⟩
    · rcases List.mem_cons.mp hs with rfl | hs
      · exact Or.inr (Or.inr hnew)
      · exact Or.inl (List.mem_append_left _ hs)
    · exact (List.mem_append.mp (hmove.mem_iff.mpr hs)).imp (List.mem_append_right _) Or.inl
    · exact Or.inr (Or.inr ⟨OrderedSet.mem_insert.mpr (Or.inr hsource),
        OrderedSet.mem_insert.mpr (Or.inr htarget)⟩)
  · exact OrderedSet.mem_insert.mpr (Or.inr (h.met w hw hle))
  · refine List.pairwise_append.mpr ⟨h.ordered.of_cons,
      List.pairwise_of_forall_mem_list (fun s hs t ht => ?_), fun s hs t ht => ?_⟩
    · rw [hkey s hs, hkey t ht]
    · rw [hkey t ht]
      exact (h.span s (hqueue s hs)).2
  · rcases List.mem_append.mp hs with hs | hs
    · exact h.span s (hqueue s hs)
    · rw [hkey s hs]
      exact ⟨Nat.le_succ k, Nat.le_refl _⟩

end Level

section Search

variable {members : List String} {relationships : List Relationship} {start : String}
  {dist : String → ℕ}

theorem serve_climbs (hlayers : Layers members relationships start dist)
    (seen : OrderedSet String) (queue waiting : List Relationship) :
    ∀ k, Level members relationships dist k seen queue waiting →
      Climbs dist k (serve seen queue waiting).1 := by
  fun_induction serve seen queue waiting with
  | case1 => exact fun _ _ => .nil
  | case2 seen waiting r queue hboth crossings closing hserve ih =>
    intro k h
    have hrest := ih k (h.drop hboth)
    rwa [hserve] at hrest
  | case3 seen waiting r queue hboth c crossings closing hserve ih =>
    intro k h
    obtain ⟨hle, hhead⟩ := h.atHead hlayers
    obtain ⟨hbase, hnext⟩ := of_met (h.sorted.queue r List.mem_cons_self) hboth
    have hsound : c.Sound := Crossing.of_sound r _
    have hrel : c.relationship = r := Crossing.of_relationship r _
    obtain ⟨hdist, hstep⟩ := hhead.crossing hlayers hsound hrel hnext
    have hends : r.source ∈ seen.insert c.next ∧ r.target ∈ seen.insert c.next := by
      refine ((hrel ▸ hsound.ends : r.Joins c.base c.next).and_iff (· ∈ seen.insert c.next)).mpr ?_
      exact ⟨OrderedSet.mem_insert.mpr (Or.inr hbase), OrderedSet.mem_insert.mpr (Or.inl rfl)⟩
    have hrest := ih _ (hhead.meet hlayers hstep hends)
    rw [hserve] at hrest
    exact (hrest.cons hdist hstep).mono hle

/-- The search goes from each distance to the next. -/
theorem breadthFirst_climbs (hlayers : Layers members relationships start dist) :
    Climbs dist 0 (breadthFirst start relationships).crossings :=
  serve_climbs hlayers _ _ _ 0 (Level.first hlayers)

end Search

/-- Of the variables that most relationships touch, the search starts from the first. -/
theorem busiest_first (relationships : List Relationship) (first : String) (more : List String) :
    ∃ before after, first :: more = before ++ busiest relationships first more :: after ∧
      (∀ v ∈ before, incidence relationships v <
        incidence relationships (busiest relationships first more)) ∧
      ∀ v ∈ after, incidence relationships v ≤
        incidence relationships (busiest relationships first more) := by
  induction more using List.reverseRecOn with
  | nil => exact ⟨[], [], rfl, by simp, by simp⟩
  | append_singleton more v ih =>
    obtain ⟨before, after, hsplit, hbefore, hafter⟩ := ih
    have hlast : busiest relationships first (more ++ [v]) =
        if incidence relationships (busiest relationships first more) < incidence relationships v
        then v else busiest relationships first more := by
      rw [busiest, List.foldl_append]
      rfl
    rw [hlast, ← List.cons_append, hsplit]
    split
    · next hlt =>
      refine ⟨before ++ busiest relationships first more :: after, [], rfl, fun w hw => ?_,
        by simp⟩
      refine lt_of_le_of_lt ?_ hlt
      rcases List.mem_append.mp hw with hw | hw
      · exact (hbefore w hw).le
      · rcases List.mem_cons.mp hw with rfl | hw
        · exact Nat.le_refl _
        · exact hafter w hw
    · next hle =>
      refine ⟨before, after ++ [v], by simp, hbefore, fun w hw => ?_⟩
      rcases List.mem_append.mp hw with hw | hw
      · exact hafter w hw
      · rw [List.mem_singleton.mp hw]
        exact Nat.le_of_not_lt hle

/-- A route starts from the first of the busiest variables of its part and goes by the distance from
there. -/
theorem Through.climbs {p : Pattern} {part : List String} {route : Route}
    (h : Route.Through p part route) (hdistinct : p.names.Nodup) :
    Climbs (p.graph.dist route.start) 0 route.crossings := by
  have hstart : route.start ∈ part :=
    (h.covers hdistinct).visits.mem_iff.mp List.mem_cons_self
  obtain ⟨hpart, -, first, more, rfl, rfl⟩ := h
  exact breadthFirst_climbs (hpart.layers hstart)

end Route

end PatternCardinality.Plan
