import Mathlib.Algebra.Order.Group.Multiset
import Mathlib.Tactic.Abel
import PatternCardinality.Proofs.Plan.Totality

/-!
# The steps of a plan, route by route

A plan follows each relationship from one of its ends, as a leg. The account of some routes says
which steps they take: those of the variables that they meet, those of their legs, and one more for
each leg that closes a cycle. Accounts of routes add up, and the operators of a plan are the steps
that were followed.
-/

namespace PatternCardinality

open Estimate Statistics

namespace Plan

/-- A relationship that a plan follows from one of its ends: the number of the name it gets, and the
variable that it leads to. -/
structure Leg where
  relationship : Relationship
  fromSource : Bool
  number : Nat
  target : String

namespace Leg

def name (l : Leg) : String := relationshipName l.number

/-- The end that a leg starts from. -/
def base (l : Leg) : String :=
  if l.fromSource then l.relationship.source else l.relationship.target

/-- The end that a leg does not start from. -/
def far (l : Leg) : String :=
  if l.fromSource then l.relationship.target else l.relationship.source

def direction (l : Leg) : Direction :=
  if l.relationship.directed then (if l.fromSource then .outgoing else .incoming) else .both

end Leg

variable {α : Type}

/-- The step that begins a route. -/
def scanStep (α : Type) (v : String) : Step α := .ok (.scan v)

def joinStep (α : Type) : Step α := .ok .join

namespace Planner

/-- The step by which a plan follows a leg. -/
def expandStep (c : Planner α) (l : Leg) : Step α :=
  (c.types l.relationship).map (fun types => .expand l.base l.direction l.name types l.target)

/-- The step by which the variable at the end of a leg becomes one with the end of its
relationship. -/
def identifyStep (c : Planner α) (l : Leg) : Step α :=
  .ok (c.identify l.relationship.target l.target)

/-- The predicates of the relationship of a leg. -/
def selectionSteps (c : Planner α) (q : Query α) (l : Leg) : List (Step α) :=
  c.propertySteps l.name (q.relationshipPredicates? l.relationship.name)

end Planner

/-- The steps of some routes: those at each variable where a route starts or a leg leads, those of
each leg, and one more for each leg that closes a cycle. Legs are numbered from `n` up to `m`. -/
structure Account (c : Planner α) (q : Query α) (n m : Nat) (starts : List String)
    (tree closing : List Leg) (steps : List (Step α)) : Prop where
  steps : (steps : Multiset (Step α)) =
    ↑((starts ++ tree.map Leg.target).flatMap (c.nodeSteps q)) +
      ↑((tree ++ closing).map c.expandStep) + ↑((tree ++ closing).flatMap (c.selectionSteps q)) +
        ↑(closing.map c.identifyStep)
  across : ∀ l ∈ tree, l.target = l.far
  apart : ∀ l ∈ closing, l.fromSource = true ∧
    ∃ k, n ≤ k ∧ l.number = k + 1 ∧ l.target = temporaryName k
  numbers : ((tree ++ closing).map Leg.number).Nodup
  range : n ≤ m ∧ ∀ l ∈ tree ++ closing, n ≤ l.number ∧ l.number < m

namespace Account

variable {c : Planner α} {q : Query α} {n m k : Nat}

theorem nil : Account c q n n [] [] [] [] := by
  refine ⟨?_, by simp, by simp, by simp, by simp⟩
  simp

/-- Accounts of steps that follow each other, with numbers that do. -/
theorem append {starts starts' : List String} {tree tree' closing closing' : List Leg}
    {steps steps' : List (Step α)} (h : Account c q n m starts tree closing steps)
    (h' : Account c q m k starts' tree' closing' steps') :
    Account c q n k (starts ++ starts') (tree ++ tree') (closing ++ closing')
      (steps ++ steps') := by
  obtain ⟨hnm, hrange⟩ := h.range
  obtain ⟨hmk, hrange'⟩ := h'.range
  have hperm : (tree ++ tree' ++ (closing ++ closing')).Perm
      ((tree ++ closing) ++ (tree' ++ closing')) := by
    rw [← Multiset.coe_eq_coe]
    simp only [← Multiset.coe_add]
    abel
  refine ⟨?_, ?_, ?_, ?_, by omega, ?_⟩
  · rw [← Multiset.coe_add, h.steps, h'.steps]
    simp only [List.map_append, List.flatMap_append, ← Multiset.coe_add]
    abel
  · intro l hl
    rcases List.mem_append.mp hl with hl | hl
    · exact h.across l hl
    · exact h'.across l hl
  · intro l hl
    rcases List.mem_append.mp hl with hl | hl
    · exact h.apart l hl
    · obtain ⟨hsource, i, hi, hnumber, htarget⟩ := h'.apart l hl
      exact ⟨hsource, i, by omega, hnumber, htarget⟩
  · rw [(hperm.map Leg.number).nodup_iff, List.map_append]
    refine List.nodup_append'.mpr ⟨h.numbers, h'.numbers, ?_⟩
    intro i hi hi'
    obtain ⟨l, hl, rfl⟩ := List.mem_map.mp hi
    obtain ⟨l', hl', heq⟩ := List.mem_map.mp hi'
    have hlt := (hrange l hl).2
    have hle := (hrange' l' hl').1
    omega
  · intro l hl
    rcases List.mem_append.mp (hperm.mem_iff.mp hl) with hl | hl
    · obtain ⟨hle, hlt⟩ := hrange l hl
      omega
    · obtain ⟨hle, hlt⟩ := hrange' l hl
      omega

/-- A variable that a route starts from. -/
theorem start (v : String) : Account c q n n [v] [] [] (c.nodeSteps q v) := by
  refine ⟨?_, by simp, by simp, by simp, by simp⟩
  simp

/-- A crossing is a leg to the other end of its relationship. -/
theorem crossing {x : Crossing} (h : x.Sound) :
    ∃ l, l.relationship = x.relationship ∧ l.target = x.next ∧
      Account c q n (n + 1) [] [l] [] (c.crossingSteps q n x) := by
  obtain ⟨fromSource, hx⟩ := h
  obtain ⟨r, base, direction, next⟩ := x
  refine ⟨⟨r, fromSource, n, next⟩, rfl, rfl, ?_, ?_, by simp, by simp, by simp⟩
  · have hbase : base = (⟨r, fromSource, n, next⟩ : Leg).base := by
      cases fromSource <;> simp_all [Crossing.of, Leg.base]
    have hdirection : direction = (⟨r, fromSource, n, next⟩ : Leg).direction := by
      cases fromSource <;> simp_all [Crossing.of, Leg.direction]
    subst hbase hdirection
    simp only [Planner.crossingSteps, Planner.expandSteps, List.nil_append, List.append_nil,
      List.map_cons, List.map_nil, List.flatMap_cons, List.flatMap_nil, Planner.expandStep,
      Planner.selectionSteps, Leg.name, List.cons_append, ← Multiset.cons_coe, ← Multiset.coe_add,
      ← Multiset.singleton_add, Multiset.coe_nil]
    abel
  · intro l hl
    rw [List.mem_singleton.mp hl]
    cases fromSource <;> simp_all [Crossing.of, Leg.far]

/-- A relationship that closes a cycle is a leg from its source to a new variable. -/
theorem closes (r : Relationship) :
    ∃ l, l.relationship = r ∧ Account c q n (n + 2) [] [] [l] (c.closingSteps q n r) := by
  refine ⟨⟨r, true, n + 1, temporaryName n⟩, rfl, ?_, by simp, ?_, by simp, by simp⟩
  · simp only [Planner.closingSteps, Planner.expandSteps, List.nil_append, List.map_cons,
      List.map_nil, List.flatMap_cons, List.flatMap_nil, Planner.expandStep, Leg.base,
      Leg.direction, Planner.selectionSteps, Planner.identifyStep, Leg.name, List.cons_append,
      ← Multiset.cons_coe, ← Multiset.coe_add, ← Multiset.singleton_add, Multiset.coe_nil,
      ↓reduceIte]
    abel
  · intro l hl
    rw [List.mem_singleton.mp hl]
    exact ⟨rfl, n, Nat.le_refl n, rfl, rfl⟩

theorem crossings {crossings : List Crossing} (h : ∀ x ∈ crossings, x.Sound) :
    ∃ tree : List Leg, tree.map Leg.relationship = crossings.map Crossing.relationship ∧
      tree.map Leg.target = crossings.map Crossing.next ∧
      Account c q n (n + crossings.length) [] tree []
        (Planner.numbered (c.crossingSteps q) 1 n crossings) := by
  induction crossings generalizing n with
  | nil => exact ⟨[], rfl, rfl, nil⟩
  | cons x crossings ih =>
    obtain ⟨l, hrelationship, htarget, hl⟩ := crossing (c := c) (q := q) (n := n)
      (h x List.mem_cons_self)
    obtain ⟨tree, hrelationships, htargets, htree⟩ :=
      ih (n := n + 1) (fun y hy => h y (List.mem_cons_of_mem _ hy))
    refine ⟨l :: tree, ?_, ?_, ?_⟩
    · rw [List.map_cons, List.map_cons, hrelationship, hrelationships]
    · rw [List.map_cons, List.map_cons, htarget, htargets]
    · have hlen : n + (x :: crossings).length = n + 1 + crossings.length := by
        simp only [List.length_cons]
        omega
      rw [hlen]
      exact hl.append htree

theorem closings (rs : List Relationship) :
    ∃ closing : List Leg, closing.map Leg.relationship = rs ∧
      Account c q n (n + 2 * rs.length) [] [] closing
        (Planner.numbered (c.closingSteps q) 2 n rs) := by
  induction rs generalizing n with
  | nil => exact ⟨[], rfl, nil⟩
  | cons r rs ih =>
    obtain ⟨l, hrelationship, hl⟩ := closes (c := c) (q := q) (n := n) r
    obtain ⟨closing, hrelationships, hclosing⟩ := ih (n := n + 2)
    refine ⟨l :: closing, by rw [List.map_cons, hrelationship, hrelationships], ?_⟩
    have hlen : n + 2 * (r :: rs).length = n + 2 + 2 * rs.length := by
      simp only [List.length_cons]
      omega
    rw [hlen]
    exact hl.append hclosing

/-- The steps of a route are those of its first variable, of its crossings and of its cycles. -/
theorem route {route : Route} (h : ∀ x ∈ route.crossings, x.Sound) :
    ∃ tree closing : List Leg,
      tree.map Leg.relationship = route.crossings.map Crossing.relationship ∧
      tree.map Leg.target = route.crossings.map Crossing.next ∧
      closing.map Leg.relationship = route.closing ∧
      Account c q n (n + route.freshCount) [route.start] tree closing
        (c.routeSteps q n route) := by
  obtain ⟨tree, hrelationships, htargets, htree⟩ := crossings (c := c) (q := q) (n := n) h
  obtain ⟨closing, hcycles, hclosing⟩ := closings (c := c) (q := q)
    (n := n + route.crossings.length) route.closing
  refine ⟨tree, closing, hrelationships, htargets, hcycles, ?_⟩
  have hlen : n + route.freshCount = n + route.crossings.length + 2 * route.closing.length := by
    simp only [Route.freshCount]
    omega
  rw [hlen]
  simpa [Planner.routeSteps] using ((start route.start).append htree).append hclosing

variable {starts : List String} {tree closing : List Leg} {steps : List (Step α)}

theorem names_nodup (h : Account c q n m starts tree closing steps) :
    ((tree ++ closing).map Leg.name).Nodup := by
  have hname : (tree ++ closing).map Leg.name =
      ((tree ++ closing).map Leg.number).map relationshipName := by
    rw [List.map_map]
    rfl
  rw [hname]
  exact h.numbers.map (fun _ _ => relationshipName_inj.mp)

theorem temporaries_nodup (h : Account c q n m starts tree closing steps) :
    (closing.map Leg.target).Nodup := by
  have hnumbers : (closing.map Leg.number).Nodup := by
    have hall := h.numbers
    rw [List.map_append] at hall
    exact hall.of_append_right
  refine List.Nodup.map_on (fun l hl l' hl' heq => ?_) hnumbers.of_map
  obtain ⟨-, k, -, hk, ht⟩ := h.apart l hl
  obtain ⟨-, k', -, hk', ht'⟩ := h.apart l' hl'
  have hkk := temporaryName_inj.mp (ht.symm.trans (heq.trans ht'))
  exact List.inj_on_of_nodup_map hnumbers hl hl' (by omega)

end Account

theorem added_of_expandStep {c : Planner α} {l : Leg} {op : Operator α}
    (h : c.expandStep l = .ok op) : op.added? = some l.name := by
  obtain ⟨types, -, rfl⟩ := Outcome.map_eq_ok.mp h
  rfl

section Selections

variable {c : Planner α} {q : Query α} {v : String} {op : Operator α}

theorem mem_propertySteps {predicates : Option (Predicates α)}
    (h : .ok op ∈ c.propertySteps v predicates) :
    ∃ byId, op = .selectProperties v byId c.fixed := by
  cases predicates with
  | none => cases h
  | some predicates =>
    obtain ⟨byId, -, rfl⟩ := Outcome.map_eq_ok.mp (List.mem_singleton.mp h).symm
    exact ⟨byId, rfl⟩

theorem mem_nodeSteps (h : .ok op ∈ c.nodeSteps q v) :
    (∃ l, op = .selectLabel v l) ∨ ∃ byId, op = .selectProperties v byId c.fixed := by
  rcases List.mem_append.mp h with h | h
  · obtain ⟨name, -, h⟩ := List.mem_map.mp h
    rw [Planner.labelStep] at h
    split at h
    · cases h
      exact Or.inl ⟨_, rfl⟩
    · cases h
  · exact Or.inr (mem_propertySteps h)

end Selections

/-- Only legs of an account add relationship variables. -/
theorem Account.exists_leg {c : Planner α} {q : Query α} {n m : Nat} {starts : List String}
    {tree closing : List Leg} {steps : List (Step α)}
    (h : Account c q n m starts tree closing steps) {op : Operator α} {v : String}
    (hop : .ok op ∈ steps) (hadded : op.added? = some v) :
    ∃ l ∈ tree ++ closing, v = l.name := by
  rw [← Multiset.mem_coe, h.steps] at hop
  simp only [Multiset.mem_add, Multiset.mem_coe] at hop
  rcases hop with ((hop | hop) | hop) | hop
  · obtain ⟨w, -, hop⟩ := List.mem_flatMap.mp hop
    rcases mem_nodeSteps hop with ⟨l, rfl⟩ | ⟨byId, rfl⟩ <;> cases hadded
  · obtain ⟨l, hl, hop⟩ := List.mem_map.mp hop
    rw [added_of_expandStep hop] at hadded
    exact ⟨l, hl, (Option.some_inj.mp hadded).symm⟩
  · obtain ⟨l, -, hop⟩ := List.mem_flatMap.mp hop
    obtain ⟨byId, rfl⟩ := mem_propertySteps hop
    cases hadded
  · obtain ⟨l, -, hop⟩ := List.mem_map.mp hop
    cases hop
    rw [Planner.identify] at hadded
    split at hadded <;> cases hadded

section Operators

/-- The operators of an expression, as the steps that led to it. -/
def taken (e : Expression α) : Multiset (Step α) := ↑(e.operators.map (Except.ok (ε := Failure α)))

theorem taken_node (op : Operator α) (children : List (Expression α)) (p : Profile α) :
    taken (.node op children p) = {.ok op} + (children.map taken).sum := by
  have hchildren : ∀ l : List (Expression α),
      (((l.flatMap Expression.operators).map Except.ok : List (Step α)) : Multiset (Step α)) =
        (l.map taken).sum := by
    intro l
    induction l with
    | nil => rfl
    | cons e l ih =>
      rw [List.flatMap_cons, List.map_append, ← Multiset.coe_add, ih, List.map_cons, List.sum_cons]
      rfl
  rw [taken, Expression.operators_node, List.map_cons, ← Multiset.cons_coe, hchildren]
  rfl

/-- A plan has an operator for each leg that it takes. -/
theorem Account.exists_operator {c : Planner α} {q : Query α} {n m k : ℕ} {starts : List String}
    {tree closing : List Leg} {steps : List (Step α)}
    (h : Account c q n m starts tree closing steps) {e : Expression α}
    (htaken : taken e = ↑(starts.map (scanStep α)) + Multiset.replicate k (joinStep α) + ↑steps)
    {l : Leg} (hl : l ∈ tree ++ closing) : ∃ op ∈ e.operators, c.expandStep l = .ok op := by
  have hstep : c.expandStep l ∈ taken e := by
    rw [htaken, h.steps]
    simp only [Multiset.mem_add, Multiset.mem_coe]
    exact Or.inr (Or.inl (Or.inl (Or.inr (List.mem_map_of_mem hl))))
  obtain ⟨op, hop, heq⟩ := List.mem_map.mp (Multiset.mem_coe.mp hstep)
  exact ⟨op, hop, heq.symm⟩

variable [Scalar α] [NumberHash α] {db : Database α} {c : Planner α} {q : Query α} {n : Nat}

/-- An expression that was made has its operator besides those of its children. -/
theorem taken_make {op : Operator α} {children : List (Expression α)} {e : Expression α}
    (h : Expression.make db op children = .ok e) :
    taken e = {.ok op} + (children.map taken).sum := by
  obtain ⟨p, -, rfl⟩ := make_eq_ok.mp h
  exact taken_node op children p

/-- Every step that was followed is there. -/
theorem taken_follow {e e' : Expression α} {steps : List (Step α)}
    (h : follow db e steps = .ok e') : taken e' = taken e + steps := by
  induction steps generalizing e with
  | nil =>
    cases h
    simp
  | cons s steps ih =>
    cases s with
    | error f =>
      rw [follow_error] at h
      cases h
    | ok op =>
      rw [follow_ok] at h
      obtain ⟨e₁, he₁, h⟩ := Outcome.bind_eq_ok.mp h
      rw [ih h, taken_make he₁, ← Multiset.cons_coe, ← Multiset.singleton_add]
      simp only [List.map_cons, List.map_nil, List.sum_cons, List.sum_nil]
      abel

theorem taken_planRoute {route : Route} {e : Expression α}
    (h : planRoute c db q n route = .ok e) :
    taken e = {scanStep α route.start} + ↑(c.routeSteps q n route) := by
  obtain ⟨scan, hscan, h⟩ := Outcome.bind_eq_ok.mp h
  rw [taken_follow h, taken_make hscan]
  simp [scanStep]

/-- The scan of each route, a join for each, and the steps of all of them. -/
theorem taken_joinRoutes {rs : List Route} (hrs : ∀ route ∈ rs, ∀ x ∈ route.crossings, x.Sound)
    {left e : Expression α} (h : joinRoutes c db q n left rs = .ok e) :
    ∃ (m : Nat) (tree closing : List Leg) (steps : List (Step α)),
      tree.map Leg.relationship = rs.flatMap (·.crossings.map Crossing.relationship) ∧
      tree.map Leg.target = rs.flatMap (·.crossings.map Crossing.next) ∧
      closing.map Leg.relationship = rs.flatMap Route.closing ∧
      Account c q n m (rs.map Route.start) tree closing steps ∧
      taken e = taken left + ↑((rs.map Route.start).map (scanStep α)) +
        Multiset.replicate rs.length (joinStep α) + ↑steps := by
  induction rs generalizing n left with
  | nil =>
    cases h
    exact ⟨n, [], [], [], rfl, rfl, rfl, .nil, by simp⟩
  | cons route rs ih =>
    rw [joinRoutes] at h
    obtain ⟨right, hright, h⟩ := Outcome.bind_eq_ok.mp h
    obtain ⟨joined, hjoined, h⟩ := Outcome.bind_eq_ok.mp h
    obtain ⟨tree, closing, hrel, htarget, hcycle, haccount⟩ :=
      Account.route (c := c) (q := q) (n := n) (hrs route List.mem_cons_self)
    obtain ⟨m, tree', closing', steps, hrel', htarget', hcycle', haccount', htaken⟩ :=
      ih (fun r hr => hrs r (List.mem_cons_of_mem _ hr)) h
    refine ⟨m, tree ++ tree', closing ++ closing', c.routeSteps q n route ++ steps, ?_, ?_, ?_,
      haccount.append haccount', ?_⟩
    · rw [List.map_append, hrel, hrel', List.flatMap_cons]
    · rw [List.map_append, htarget, htarget', List.flatMap_cons]
    · rw [List.map_append, hcycle, hcycle', List.flatMap_cons]
    · rw [htaken, taken_make hjoined]
      simp only [List.map_cons, List.map_nil, List.sum_cons, List.sum_nil, taken_planRoute hright,
        List.length_cons, Multiset.replicate_succ, ← Multiset.cons_coe, ← Multiset.singleton_add,
        ← Multiset.coe_add, joinStep]
      abel

end Operators

variable [Scalar α] [NumberHash α] {db : Database α} {c : Planner α} {q : Query α}

/-- The operators of a plan are an account of its routes. -/
theorem taken_planQuery {rs : List Route} {e : Expression α}
    (hroutes : (routes q.pattern : Except (Failure α) _) = .ok rs)
    (hsound : ∀ route ∈ rs, ∀ x ∈ route.crossings, x.Sound) (h : planQuery c db q = .ok e) :
    ∃ (m : Nat) (tree closing : List Leg) (steps : List (Step α)),
      tree.map Leg.relationship = rs.flatMap (·.crossings.map Crossing.relationship) ∧
      tree.map Leg.target = rs.flatMap (·.crossings.map Crossing.next) ∧
      closing.map Leg.relationship = rs.flatMap Route.closing ∧
      Account c q 0 m (rs.map Route.start) tree closing steps ∧
      taken e = ↑((rs.map Route.start).map (scanStep α)) +
        Multiset.replicate (rs.length - 1) (joinStep α) + ↑steps := by
  rw [planQuery] at h
  split at h
  · cases h
  · obtain ⟨found, hfound, h⟩ := Outcome.bind_eq_ok.mp h
    rw [hroutes] at hfound
    cases hfound
    cases rs with
    | nil => cases h
    | cons route rs =>
      obtain ⟨first, hfirst, h⟩ := Outcome.bind_eq_ok.mp h
      obtain ⟨tree, closing, hrel, htarget, hcycle, haccount⟩ :=
        Account.route (c := c) (q := q) (n := 0) (hsound route List.mem_cons_self)
      rw [Nat.zero_add] at haccount
      obtain ⟨m, tree', closing', steps, hrel', htarget', hcycle', haccount', htaken⟩ :=
        taken_joinRoutes (fun r hr => hsound r (List.mem_cons_of_mem _ hr)) h
      refine ⟨m, tree ++ tree', closing ++ closing', c.routeSteps q 0 route ++ steps, ?_, ?_, ?_,
        haccount.append haccount', ?_⟩
      · rw [List.map_append, hrel, hrel', List.flatMap_cons]
      · rw [List.map_append, htarget, htarget', List.flatMap_cons]
      · rw [List.map_append, hcycle, hcycle', List.flatMap_cons]
      · rw [htaken, taken_planRoute hfirst]
        simp only [List.map_cons, List.length_cons, Nat.add_sub_cancel, ← Multiset.cons_coe,
          ← Multiset.singleton_add, ← Multiset.coe_add]
        abel

theorem built_follow {e e' : Expression α} {steps : List (Step α)} (he : e.Built db)
    (h : follow db e steps = .ok e') : e'.Built db := by
  refine Outcome.foldlM_invariant (P := Expression.Built db) (fun e s e' _ he hs => ?_) he h
  obtain ⟨op, -, happly⟩ := Outcome.bind_eq_ok.mp hs
  exact he.apply happly

theorem built_planRoute {n : Nat} {route : Route} {e : Expression α}
    (h : planRoute c db q n route = .ok e) : e.Built db := by
  obtain ⟨scan, hscan, h⟩ := Outcome.bind_eq_ok.mp h
  exact built_follow (.make (by simp) hscan) h

theorem built_joinRoutes {rs : List Route} {n : Nat} {left e : Expression α}
    (hleft : left.Built db) (h : joinRoutes c db q n left rs = .ok e) : e.Built db := by
  induction rs generalizing n left with
  | nil =>
    cases h
    exact hleft
  | cons route rs ih =>
    rw [joinRoutes] at h
    obtain ⟨right, hright, h⟩ := Outcome.bind_eq_ok.mp h
    obtain ⟨joined, hjoined, h⟩ := Outcome.bind_eq_ok.mp h
    refine ih (.make (fun child hchild => ?_) hjoined) h
    rcases List.mem_cons.mp hchild with rfl | hchild
    · exact hleft
    · rw [List.mem_singleton.mp hchild]
      exact built_planRoute hright

theorem built_planQuery {e : Expression α} (h : planQuery c db q = .ok e) : e.Built db := by
  rw [planQuery] at h
  split at h
  · cases h
  · obtain ⟨rs, -, h⟩ := Outcome.bind_eq_ok.mp h
    split at h
    · cases h
    · obtain ⟨first, hfirst, h⟩ := Outcome.bind_eq_ok.mp h
      exact built_joinRoutes (built_planRoute hfirst) h

/-- The routes of a plan start in as many variables as there are components, meet every node variable
once and take every relationship once; what was taken is their account. -/
theorem account_planQuery (hp : q.pattern.Proper) {e : Expression α}
    (h : planQuery c db q = .ok e) :
    ∃ (m : ℕ) (starts : List String) (tree closing : List Leg) (steps : List (Step α)),
      Account c q 0 m starts tree closing steps ∧ starts.length = q.pattern.componentCount ∧
      (starts ++ tree.map Leg.target).Perm q.pattern.names ∧
      ((tree ++ closing).map Leg.relationship).Perm q.pattern.relationships ∧
      taken e = ↑(starts.map (scanStep α)) +
        Multiset.replicate (starts.length - 1) (joinStep α) + ↑steps := by
  obtain ⟨rs, parts, hroutes, hcover⟩ := routes_cover (α := α) hp
  obtain ⟨m, tree, closing, steps, hrel, htarget, hcycle, haccount, htaken⟩ :=
    taken_planQuery hroutes hcover.sound h
  refine ⟨m, rs.map Route.start, tree, closing, steps, haccount, ?_, ?_, ?_, ?_⟩
  · rw [List.length_map]
    exact hcover.length_eq hp.distinct
  · rw [htarget]
    exact (List.map_append_flatMap_perm rs Route.start _).trans hcover.visits
  · rw [List.map_append, hrel, hcycle]
    exact (List.flatMap_append_perm rs _ _).trans (hcover.takes hp)
  · rw [List.length_map]
    exact htaken

namespace Account

variable {n m k : ℕ} {starts : List String} {tree closing : List Leg} {steps : List (Step α)}
  {e : Expression α}

/-- Relationship variables of a plan are the names of the legs that it takes. -/
theorem isRelationship_iff (h : Account c q n m starts tree closing steps) (he : e.Built db)
    (htaken : taken e = ↑(starts.map (scanStep α)) + Multiset.replicate k (joinStep α) + ↑steps)
    (v : String) : e.profile.isRelationship v = true ↔ v ∈ (tree ++ closing).map Leg.name := by
  rw [he.isRelationship_iff]
  constructor
  · rintro ⟨op, hop, hadded⟩
    have hstep : .ok op ∈ taken e := Multiset.mem_coe.mpr (List.mem_map_of_mem hop)
    rw [htaken] at hstep
    simp only [Multiset.mem_add, Multiset.mem_coe, List.mem_map] at hstep
    rcases hstep with (⟨w, -, hscan⟩ | hjoin) | hstep
    · cases hscan
      cases hadded
    · cases Multiset.eq_of_mem_replicate hjoin
      cases hadded
    · obtain ⟨l, hl, rfl⟩ := h.exists_leg hstep hadded
      exact List.mem_map_of_mem hl
  · intro hv
    obtain ⟨l, hl, rfl⟩ := List.mem_map.mp hv
    obtain ⟨op, hop, hstep⟩ := h.exists_operator htaken hl
    exact ⟨op, hop, added_of_expandStep hstep⟩

end Account

end Plan

end PatternCardinality
