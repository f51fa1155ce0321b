import PatternCardinality.Plan.Query
import PatternCardinality.Proofs.Ordered.Set
import PatternCardinality.Proofs.Pattern.Restriction

/-!
# Routes through the components of a pattern

A route meets every node variable of its component once and takes every relationship once, either to
a variable that was not met before or, at the end, between two that were. The invariant is on the
work list of the search: what is queued touches a variable that was met, and what waits does not.
-/

namespace PatternCardinality.Plan

/-- A crossing follows its relationship from one end to the other. -/
def Crossing.Sound (c : Crossing) : Prop :=
  ∃ fromSource, c = Crossing.of c.relationship fromSource

theorem Crossing.of_sound (r : Relationship) (fromSource : Bool) :
    (Crossing.of r fromSource).Sound := by
  refine ⟨fromSource, ?_⟩
  cases fromSource <;> rfl

@[simp] theorem Crossing.of_relationship (r : Relationship) (fromSource : Bool) :
    (Crossing.of r fromSource).relationship = r := by
  cases fromSource <;> rfl

/-- The ends of the relationship of a crossing are its base and its next variable. -/
theorem Crossing.Sound.ends {c : Crossing} (h : c.Sound) :
    (c.relationship.source = c.base ∧ c.relationship.target = c.next) ∨
      (c.relationship.source = c.next ∧ c.relationship.target = c.base) := by
  obtain ⟨fromSource, hc⟩ := h
  rw [hc]
  cases fromSource <;> simp [Crossing.of]

namespace Route

/-- The variables that were met once some crossings are taken. -/
def met (seen : OrderedSet String) (crossings : List Crossing) : OrderedSet String :=
  crossings.foldl (fun s c => s.insert c.next) seen

theorem mem_met {seen : OrderedSet String} {crossings : List Crossing} {v : String} :
    v ∈ met seen crossings ↔ v ∈ seen ∨ v ∈ crossings.map Crossing.next := by
  induction crossings generalizing seen with
  | nil => simp [met]
  | cons c crossings ih =>
    have hcons : met seen (c :: crossings) = met (seen.insert c.next) crossings := rfl
    rw [hcons, ih, OrderedSet.mem_insert, List.map_cons, List.mem_cons]
    tauto

/-- Each crossing leads from a variable that was met to one that was not. -/
inductive Follows : OrderedSet String → List Crossing → Prop
  | nil {seen} : Follows seen []
  | cons {seen c crossings} (sound : c.Sound) (base : c.base ∈ seen) (next : c.next ∉ seen)
      (rest : Follows (seen.insert c.next) crossings) : Follows seen (c :: crossings)

/-- The variables that crossings lead to are new and differ from each other. -/
theorem Follows.nodup {seen : OrderedSet String} {crossings : List Crossing}
    (h : Follows seen crossings) :
    (crossings.map Crossing.next).Nodup ∧ ∀ v ∈ crossings.map Crossing.next, v ∉ seen := by
  induction h with
  | nil => simp
  | @cons seen c crossings _ _ next _ ih =>
    obtain ⟨hnodup, hnew⟩ := ih
    have hc : c.next ∉ crossings.map Crossing.next := by
      intro hmem
      exact hnew _ hmem (OrderedSet.mem_insert.mpr (Or.inl rfl))
    refine ⟨List.nodup_cons.mpr ⟨hc, hnodup⟩, ?_⟩
    intro v hv hseen
    rcases List.mem_cons.mp hv with rfl | hv
    · exact next hseen
    · exact hnew v hv (OrderedSet.mem_insert.mpr (Or.inr hseen))

theorem touches_iff {r : Relationship} {v : String} :
    r.touches v = true ↔ r.source = v ∨ r.target = v := by
  simp [Relationship.touches]

theorem touching_append_apart_perm (v : String) (l : List Relationship) :
    (touching v l ++ apart v l).Perm l :=
  List.filter_append_perm (fun r : Relationship => r.touches v) l

theorem mem_touching {v : String} {l : List Relationship} {r : Relationship} :
    r ∈ touching v l ↔ r ∈ l ∧ (r.source = v ∨ r.target = v) := by
  rw [touching, List.mem_filter, touches_iff]

theorem mem_apart {v : String} {l : List Relationship} {r : Relationship} :
    r ∈ apart v l ↔ r ∈ l ∧ r.source ≠ v ∧ r.target ≠ v := by
  rw [apart, List.mem_filter]
  simp [Relationship.touches]

/-- The invariant of the work list. -/
structure Sorted (seen : OrderedSet String) (queue waiting : List Relationship) : Prop where
  queue : ∀ r ∈ queue, r.source ∈ seen ∨ r.target ∈ seen
  waiting : ∀ r ∈ waiting, r.source ∉ seen ∧ r.target ∉ seen

/-- What serving the work list leaves: the relationships in `rest` touch nothing that was met. -/
structure Served (seen : OrderedSet String) (work : List Relationship) (crossings : List Crossing)
    (closing rest : List Relationship) : Prop where
  follows : Follows seen crossings
  perm : (crossings.map Crossing.relationship ++ closing ++ rest).Perm work
  closing : ∀ r ∈ closing, r.source ∈ met seen crossings ∧ r.target ∈ met seen crossings
  rest : ∀ r ∈ rest, r.source ∉ met seen crossings ∧ r.target ∉ met seen crossings

/-- A relationship with one end among the variables that were met is followed to its other end. -/
theorem of_met {seen : OrderedSet String} {r : Relationship}
    (h : r.source ∈ seen ∨ r.target ∈ seen) (hnot : ¬(r.source ∈ seen ∧ r.target ∈ seen)) :
    (Crossing.of r (decide (r.source ∈ seen))).base ∈ seen ∧
      (Crossing.of r (decide (r.source ∈ seen))).next ∉ seen := by
  by_cases hs : r.source ∈ seen
  · have ht : r.target ∉ seen := fun ht => hnot ⟨hs, ht⟩
    simp [Crossing.of, hs, ht]
  · have ht : r.target ∈ seen := h.resolve_left hs
    simp [Crossing.of, hs, ht]

/-- Meeting a variable moves the relationships that it touches to the queue. -/
theorem Sorted.meet {seen : OrderedSet String} {queue waiting : List Relationship}
    (h : Sorted seen queue waiting) (v : String) :
    Sorted (seen.insert v) (queue ++ touching v waiting) (apart v waiting) := by
  constructor
  · intro r hr
    simp only [OrderedSet.mem_insert]
    rcases List.mem_append.mp hr with hr | hr
    · have hq := h.queue r hr
      tauto
    · have ht := (mem_touching.mp hr).2
      tauto
  · intro r hr
    obtain ⟨hr, hs, ht⟩ := mem_apart.mp hr
    obtain ⟨hs', ht'⟩ := h.waiting r hr
    simp only [OrderedSet.mem_insert]
    tauto

theorem serve_served (seen : OrderedSet String) (queue waiting : List Relationship)
    (h : Sorted seen queue waiting) :
    ∃ rest, Served seen (queue ++ waiting) (serve seen queue waiting).1
      (serve seen queue waiting).2 rest := by
  fun_induction serve seen queue waiting with
  | case1 seen waiting => exact ⟨waiting, .nil, .refl _, by simp, h.waiting⟩
  | case2 seen waiting r queue hboth crossings closing hserve ih =>
    obtain ⟨rest, hrest⟩ := ih ⟨fun q hq => h.queue q (List.mem_cons_of_mem _ hq), h.waiting⟩
    rw [hserve] at hrest
    refine ⟨rest, hrest.follows, ?_, ?_, hrest.rest⟩
    · have hmove : (crossings.map Crossing.relationship ++ (r :: closing) ++ rest).Perm
          (r :: (crossings.map Crossing.relationship ++ closing ++ rest)) := by
        simp [List.append_assoc]
      exact hmove.trans (hrest.perm.cons r)
    · intro q hq
      rcases List.mem_cons.mp hq with rfl | hq
      · exact ⟨mem_met.mpr (Or.inl hboth.1), mem_met.mpr (Or.inl hboth.2)⟩
      · exact hrest.closing q hq
  | case3 seen waiting r queue hboth c crossings closing hserve ih =>
    obtain ⟨hbase, hnext⟩ := of_met (h.queue r List.mem_cons_self) hboth
    have hqueue : Sorted seen queue waiting :=
      ⟨fun q hq => h.queue q (List.mem_cons_of_mem _ hq), h.waiting⟩
    obtain ⟨rest, hrest⟩ := ih (hqueue.meet c.next)
    rw [hserve] at hrest
    refine ⟨rest, .cons (Crossing.of_sound r _) hbase hnext hrest.follows, ?_, hrest.closing,
      hrest.rest⟩
    have hmove : (queue ++ touching c.next waiting ++ apart c.next waiting).Perm
        (queue ++ waiting) := by
      simpa [List.append_assoc] using
        (touching_append_apart_perm c.next waiting).append_left queue
    have hrel : c.relationship = r := Crossing.of_relationship r _
    simpa [hrel] using (hrest.perm.trans hmove).cons r

theorem Follows.sound {seen : OrderedSet String} {crossings : List Crossing}
    (h : Follows seen crossings) : ∀ c ∈ crossings, c.Sound := by
  induction h with
  | nil => simp
  | cons sound _ _ _ ih =>
    intro d hd
    rcases List.mem_cons.mp hd with rfl | hd
    · exact sound
    · exact ih d hd

theorem Follows.ends_met {seen : OrderedSet String} {crossings : List Crossing}
    (h : Follows seen crossings) :
    ∀ c ∈ crossings, c.relationship.source ∈ met seen crossings ∧
      c.relationship.target ∈ met seen crossings := by
  induction h with
  | nil => simp
  | @cons seen c crossings sound base _ _ ih =>
    intro d hd
    rcases List.mem_cons.mp hd with rfl | hd
    · have hbase : d.base ∈ met seen (d :: crossings) := mem_met.mpr (Or.inl base)
      have hnext : d.next ∈ met seen (d :: crossings) := mem_met.mpr (Or.inr (by simp))
      rcases sound.ends with ⟨hs, ht⟩ | ⟨hs, ht⟩ <;> rw [hs, ht] <;> exact ⟨‹_›, ‹_›⟩
    · exact ih d hd

/-- Once the work is done, a relationship has both ends or none among the variables met. -/
theorem Served.met_iff {seen : OrderedSet String} {work closing rest : List Relationship}
    {crossings : List Crossing} (h : Served seen work crossings closing rest) {r : Relationship}
    (hr : r ∈ work) : r.source ∈ met seen crossings ↔ r.target ∈ met seen crossings := by
  rcases List.mem_append.mp (h.perm.mem_iff.mpr hr) with hr | hr
  · rcases List.mem_append.mp hr with hr | hr
    · obtain ⟨c, hc, rfl⟩ := List.mem_map.mp hr
      have hends := h.follows.ends_met c hc
      exact iff_of_true hends.1 hends.2
    · exact iff_of_true (h.closing r hr).1 (h.closing r hr).2
  · exact iff_of_false (h.rest r hr).1 (h.rest r hr).2

/-- A route meets every variable of a part once and takes every relationship once. -/
structure Covers (route : Route) (members : List String) (relationships : List Relationship) :
    Prop where
  follows : Follows (OrderedSet.singleton route.start) route.crossings
  visits : (route.start :: route.crossings.map Crossing.next).Perm members
  takes : (route.crossings.map Crossing.relationship ++ route.closing).Perm relationships
  closes : ∀ r ∈ route.closing, r.source ∈ members ∧ r.target ∈ members

/-- Once the crossings of a route are taken, its part is met. -/
theorem Covers.mem_met {route : Route} {members : List String}
    {relationships : List Relationship} (h : route.Covers members relationships) {v : String} :
    v ∈ met (OrderedSet.singleton route.start) route.crossings ↔ v ∈ members := by
  rw [Route.mem_met, OrderedSet.mem_singleton, ← List.mem_cons]
  exact h.visits.mem_iff

theorem busiest_mem (relationships : List Relationship) (first : String) (more : List String) :
    busiest relationships first more ∈ first :: more := by
  have h : ∀ (l : List String) (best : String), l.foldl (fun best v =>
      if incidence relationships best < incidence relationships v then v else best) best ∈
        best :: l := by
    intro l
    induction l with
    | nil => simp
    | cons v l ih =>
      intro best
      rw [List.foldl_cons]
      split
      · exact List.mem_cons_of_mem _ (ih v)
      · rcases List.mem_cons.mp (ih best) with hb | hb
        · rw [hb]
          exact List.mem_cons_self
        · exact List.mem_cons_of_mem _ (List.mem_cons_of_mem _ hb)
  exact h more first

/-- The relationships of a pattern among some of its node variables. -/
def among (p : Pattern) (members : List String) : List Relationship :=
  p.relationships.filter (fun r => decide (r.source ∈ members))

theorem sorted_start (start : String) (relationships : List Relationship) :
    Sorted (OrderedSet.singleton start) (touching start relationships)
      (apart start relationships) := by
  constructor
  · intro r hr
    simpa only [OrderedSet.mem_singleton] using (mem_touching.mp hr).2
  · intro r hr
    simpa only [OrderedSet.mem_singleton] using (mem_apart.mp hr).2

private theorem breadthFirst_served (start : String) (relationships : List Relationship) :
    ∃ rest, Served (OrderedSet.singleton start) relationships
      (breadthFirst start relationships).crossings (breadthFirst start relationships).closing
      rest := by
  obtain ⟨rest, h⟩ := serve_served _ _ _ (sorted_start start relationships)
  exact ⟨rest, h.follows, h.perm.trans (touching_append_apart_perm start relationships),
    h.closing, h.rest⟩

private theorem ends_of_among {p : Pattern} {members : List String} (hpart : p.IsPart members)
    {r : Relationship} (hr : r ∈ among p members) : r.source ∈ members ∧ r.target ∈ members := by
  obtain ⟨hr, hs⟩ := List.mem_filter.mp hr
  have hs := of_decide_eq_true hs
  exact ⟨hs, (hpart.closed r hr).mp hs⟩

/-- Relationships lead everywhere in a part, so all of it is met. -/
private theorem Served.mem_met {p : Pattern} {members : List String} (hpart : p.IsPart members)
    {start : String} (hstart : start ∈ members) {crossings : List Crossing}
    {closing rest : List Relationship}
    (h : Served (OrderedSet.singleton start) (among p members) crossings closing rest) {v : String}
    (hv : v ∈ members) : v ∈ met (OrderedSet.singleton start) crossings := by
  -- along a relationship, being met and a member does not change
  have hstep : ∀ v w, (v, w) ∈ p.ends →
      (v ∈ members ∧ v ∈ met (OrderedSet.singleton start) crossings) =
        (w ∈ members ∧ w ∈ met (OrderedSet.singleton start) crossings) := by
    intro v w hvw
    obtain ⟨r, hr, heq⟩ := List.mem_map.mp hvw
    cases heq
    have hclosed := hpart.closed r hr
    by_cases hs : r.source ∈ members
    · have hin : r ∈ among p members := List.mem_filter.mpr ⟨hr, decide_eq_true hs⟩
      exact propext (and_congr hclosed (h.met_iff hin))
    · exact propext (iff_of_false (fun hv => hs hv.1) (fun hw => hs (hclosed.mpr hw.1)))
  have hagree := (hpart.linked start hstart v hv).eq_of_edges
    (fun v => v ∈ members ∧ v ∈ met (OrderedSet.singleton start) crossings) hstep
  have hfirst : start ∈ met (OrderedSet.singleton start) crossings :=
    Route.mem_met.mpr (Or.inl (OrderedSet.mem_singleton.mpr rfl))
  exact (hagree.mp ⟨hstart, hfirst⟩).2

/-- The search from any variable of a part covers the part: its relationships lead everywhere. -/
theorem breadthFirst_covers {p : Pattern} {members : List String} (hpart : p.IsPart members)
    (hnodup : members.Nodup) {start : String} (hstart : start ∈ members) :
    (breadthFirst start (among p members)).Covers members (among p members) := by
  obtain ⟨rest, h⟩ := breadthFirst_served start (among p members)
  set crossings := (breadthFirst start (among p members)).crossings
  set closing := (breadthFirst start (among p members)).closing
  have hmet : ∀ v ∈ members, v ∈ met (OrderedSet.singleton start) crossings :=
    fun v hv => h.mem_met hpart hstart hv
  have hrest : rest = [] := by
    refine List.eq_nil_iff_forall_not_mem.mpr (fun r hr => ?_)
    have hin : r ∈ among p members := h.perm.mem_iff.mp (List.mem_append_right _ hr)
    exact (h.rest r hr).1 (hmet _ (ends_of_among hpart hin).1)
  have hin : ∀ r ∈ crossings.map Crossing.relationship ++ closing, r ∈ among p members := by
    intro r hr
    exact h.perm.mem_iff.mp (List.mem_append_left _ hr)
  obtain ⟨hnextNodup, hnextNew⟩ := h.follows.nodup
  refine ⟨h.follows, ?_, by simpa [hrest] using h.perm, ?_⟩
  · have hnew : start ∉ crossings.map Crossing.next := by
      intro hmem
      exact hnextNew start hmem (OrderedSet.mem_singleton.mpr rfl)
    refine (List.perm_ext_iff_of_nodup (List.nodup_cons.mpr ⟨hnew, hnextNodup⟩) hnodup).mpr
      (fun v => ?_)
    constructor
    · intro hv
      rcases List.mem_cons.mp hv with rfl | hv
      · exact hstart
      · obtain ⟨c, hc, rfl⟩ := List.mem_map.mp hv
        have hc' := ends_of_among hpart
          (hin _ (List.mem_append_left _ (List.mem_map.mpr ⟨c, hc, rfl⟩)))
        rcases (h.follows.sound c hc).ends with ⟨-, ht⟩ | ⟨hs, -⟩
        · exact ht ▸ hc'.2
        · exact hs ▸ hc'.1
    · intro hv
      rcases mem_met.mp (hmet v hv) with hv | hv
      · rw [OrderedSet.mem_singleton.mp hv]
        exact List.mem_cons_self
      · exact List.mem_cons_of_mem _ hv
  · intro r hr
    exact ends_of_among hpart (hin r (List.mem_append_right _ hr))

theorem through_covers {p : Pattern} {first : String} {more : List String}
    (hpart : p.IsPart (first :: more)) (hnodup : (first :: more).Nodup) :
    (through p first more).Covers (first :: more) (among p (first :: more)) :=
  breadthFirst_covers hpart hnodup (busiest_mem _ first more)

end Route

/-- The route through a component. -/
structure Route.Through (p : Pattern) (part : List String) (route : Route) : Prop where
  isPart : p.IsPart part
  inOrder : part.Sublist p.names
  isRoute : ∃ first more, part = first :: more ∧ route = Route.through p first more

theorem Route.Through.covers {p : Pattern} {part : List String} {route : Route}
    (h : Route.Through p part route) (hdistinct : p.names.Nodup) :
    route.Covers part (Route.among p part) := by
  obtain ⟨hpart, hsub, first, more, rfl, rfl⟩ := h
  exact Route.through_covers hpart (hdistinct.sublist hsub)

/-- There is one route through each component. -/
theorem routes_of_components {α : Type} {p : Pattern} {positions : List (List Nat)}
    (hpositions : (p.components : Except (Failure α) _) = .ok positions)
    (h : p.Components (positions.map p.named)) :
    ∃ rs, (routes p : Except (Failure α) _) = .ok rs ∧
      List.Forall₂ (Route.Through p) (positions.map p.named) rs := by
  simp only [routes, hpositions, bind, Except.bind, pure, Except.pure]
  refine ⟨_, rfl, ?_⟩
  have hparts : ∀ part ∈ positions,
      p.IsPart (p.named part) ∧ (p.named part).Sublist p.names := fun part hpart =>
    ⟨h.isPart _ (List.mem_map_of_mem hpart), h.inOrder _ (List.mem_map_of_mem hpart)⟩
  clear h hpositions
  induction positions with
  | nil => exact .nil
  | cons part positions ih =>
    have hrest := ih (fun part hpart => hparts part (List.mem_cons_of_mem _ hpart))
    obtain ⟨hpart, hsub⟩ := hparts part List.mem_cons_self
    cases hnames : p.named part with
    | nil => exact absurd hnames hpart.ne_nil
    | cons first more =>
      rw [hnames] at hpart hsub
      rw [List.map_cons, hnames]
      rw [Pattern.named] at hnames
      rw [List.filterMap_cons]
      simp only [hnames]
      exact .cons ⟨hpart, hsub, first, more, rfl, rfl⟩ hrest

/-- Routes that together cover a pattern: one for each component. -/
structure Cover (p : Pattern) (routes : List Route) (parts : List (List String)) : Prop where
  covers : List.Forall₂ (fun route part => Route.Covers route part (Route.among p part))
    routes parts
  isPart : ∀ part ∈ parts, p.IsPart part
  names : parts.flatten.Perm p.names

theorem routes_cover {α : Type} {p : Pattern} (h : p.Proper) :
    ∃ rs parts, (routes p : Except (Failure α) _) = .ok rs ∧ Cover p rs parts := by
  obtain ⟨positions, hpositions, hcomponents⟩ := Pattern.components_ordered (α := α) h
  obtain ⟨rs, hrs, hthrough⟩ := routes_of_components hpositions hcomponents
  exact ⟨rs, _, hrs, hthrough.flip.imp (fun route part hroute => hroute.covers h.distinct),
    hcomponents.isPart, hcomponents.names⟩

/-- A pattern is only divided into components if relationships end at its node variables. -/
theorem ends_of_routes {α : Type} {p : Pattern} {rs : List Route}
    (h : (routes p : Except (Failure α) _) = .ok rs) :
    ∀ r ∈ p.relationships, r.source ∈ p.names ∧ r.target ∈ p.names := by
  obtain ⟨components, hcomponents, -⟩ := Outcome.bind_eq_ok.mp h
  obtain ⟨edges, hedges, -⟩ := Outcome.bind_eq_ok.mp hcomponents
  have hname : ∀ r name i, (p.endpoint r name : Except (Failure α) _) = .ok i →
      name ∈ p.names := by
    intro r name i hi
    rw [Pattern.endpoint] at hi
    split at hi
    · next hsome =>
      obtain ⟨hlt, hv, -⟩ := List.findIdx?_eq_some_iff_getElem.mp hsome
      exact List.mem_map.mpr ⟨_, List.getElem_mem hlt, of_decide_eq_true hv⟩
    · cases hi
  intro r hr
  obtain ⟨edge, -, hedge⟩ := (Outcome.mem_of_mapM_eq_ok hedges).1 r hr
  obtain ⟨i, hi, hedge⟩ := Outcome.bind_eq_ok.mp hedge
  obtain ⟨j, hj, -⟩ := Outcome.bind_eq_ok.mp hedge
  exact ⟨hname r r.source i hi, hname r r.target j hj⟩

namespace Cover

variable {p : Pattern} {routes : List Route} {parts : List (List String)}

theorem length_eq (h : Cover p routes parts) (hdistinct : p.names.Nodup) :
    routes.length = p.componentCount := by
  rw [Pattern.componentCount_eq hdistinct h.names h.isPart]
  exact h.covers.length_eq

theorem sound (h : Cover p routes parts) : ∀ route ∈ routes, ∀ x ∈ route.crossings, x.Sound := by
  have hcovers := h.covers
  clear h
  induction hcovers with
  | nil => simp
  | cons hcover _ ih =>
    intro route hroute
    rcases List.mem_cons.mp hroute with rfl | hroute
    · exact hcover.follows.sound
    · exact ih route hroute

/-- The variables of all routes are the node variables of the pattern. -/
theorem visits (h : Cover p routes parts) :
    (routes.flatMap (fun r => r.start :: r.crossings.map Crossing.next)).Perm p.names := by
  refine List.Perm.trans ?_ h.names
  have hcovers := h.covers
  clear h
  induction hcovers with
  | nil => exact .refl _
  | cons hcover _ ih => exact hcover.visits.append ih

private theorem filter_mem_append_perm (l : List Relationship) {a b : List String}
    (hab : a.Disjoint b) :
    (l.filter (fun r => decide (r.source ∈ a)) ++ l.filter (fun r => decide (r.source ∈ b))).Perm
      (l.filter (fun r => decide (r.source ∈ a ++ b))) := by
  induction l with
  | nil => exact .refl _
  | cons r l ih =>
    by_cases ha : r.source ∈ a
    · have hb : r.source ∉ b := fun hb => hab ha hb
      simpa [ha, hb] using ih
    · by_cases hb : r.source ∈ b
      · have hmove : (l.filter (fun r => decide (r.source ∈ a)) ++
            r :: l.filter (fun r => decide (r.source ∈ b))).Perm
              (r :: l.filter (fun r => decide (r.source ∈ a ++ b))) :=
          List.perm_middle.trans (ih.cons r)
        simpa [ha, hb] using hmove
      · simpa [ha, hb] using ih

/-- The relationships of all routes are those of the pattern. -/
theorem takes (h : Cover p routes parts) (hp : p.Proper) :
    (routes.flatMap (fun r => r.crossings.map Crossing.relationship ++ r.closing)).Perm
      p.relationships := by
  have hall : (Route.among p parts.flatten).Perm p.relationships := by
    refine .of_eq (List.filter_eq_self.mpr (fun r hr => ?_))
    exact decide_eq_true (h.names.mem_iff.mpr (hp.source_mem r hr))
  have hnodup : parts.flatten.Nodup := h.names.nodup_iff.mpr hp.distinct
  refine List.Perm.trans ?_ hall
  have hcovers := h.covers
  clear h hall
  induction hcovers with
  | nil => simp [Route.among]
  | @cons route part routes parts hcover _ ih =>
    obtain ⟨-, hrest, hdisjoint⟩ := List.nodup_append'.mp hnodup
    exact (hcover.takes.append (ih hrest)).trans
      (filter_mem_append_perm p.relationships hdisjoint)

end Cover

end PatternCardinality.Plan
