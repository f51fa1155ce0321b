import PatternCardinality.Pattern.Basic

/-! The order in which the relationships of a connected part are taken: breadth first from its
busiest node variable. A relationship between two variables that were met already closes a cycle
and is left for the end. -/

namespace PatternCardinality.Plan

/-- A relationship followed from a variable that is bound to one that is not. -/
structure Crossing where
  relationship : Relationship
  base : String
  direction : Direction
  next : String
  deriving DecidableEq

/-- Follows a relationship from its source if that is bound, otherwise from its target. -/
def Crossing.of (r : Relationship) (fromSource : Bool) : Crossing :=
  if fromSource then ⟨r, r.source, if r.directed then .outgoing else .both, r.target⟩
  else ⟨r, r.target, if r.directed then .incoming else .both, r.source⟩

/-- Where to begin, the relationships that lead to new variables, and those that close cycles. -/
structure Route where
  start : String
  crossings : List Crossing
  closing : List Relationship
  deriving DecidableEq

namespace Route

/-- The relationships at a variable. -/
def touching (v : String) (l : List Relationship) : List Relationship := l.filter (·.touches v)

def apart (v : String) (l : List Relationship) : List Relationship := l.filter (!·.touches v)

theorem length_touching_add (v : String) (l : List Relationship) :
    (touching v l).length + (apart v l).length = l.length := by
  induction l with
  | nil => rfl
  | cons r rest ih =>
    cases h : r.touches v <;> simp_all [touching, apart] <;> omega

/-- Serves the queue. A variable that is met moves its relationships from `waiting` to the end of
the queue. -/
def serve (seen : OrderedSet String) (queue waiting : List Relationship) :
    List Crossing × List Relationship :=
  match queue with
  | [] => ([], [])
  | r :: queue =>
    if r.source ∈ seen ∧ r.target ∈ seen then
      let (crossings, closing) := serve seen queue waiting
      (crossings, r :: closing)
    else
      let c := Crossing.of r (decide (r.source ∈ seen))
      let (crossings, closing) := serve (seen.insert c.next)
        (queue ++ touching c.next waiting) (apart c.next waiting)
      (c :: crossings, closing)
termination_by queue.length + waiting.length
decreasing_by
  · simp only [List.length_cons]
    omega
  · have := length_touching_add (Crossing.of r (decide (r.source ∈ seen))).next waiting
    simp only [List.length_append, List.length_cons]
    omega

def incidence (relationships : List Relationship) (v : String) : Nat :=
  relationships.countP (·.touches v)

/-- The first of the variables that most relationships touch. -/
def busiest (relationships : List Relationship) (first : String) (more : List String) : String :=
  more.foldl (fun best v =>
    if incidence relationships best < incidence relationships v then v else best) first

def breadthFirst (start : String) (relationships : List Relationship) : Route :=
  let (crossings, closing) := serve (OrderedSet.singleton start)
    (touching start relationships) (apart start relationships)
  ⟨start, crossings, closing⟩

/-- The route through the variables `first` and `more`, which are connected. -/
def through (p : Pattern) (first : String) (more : List String) : Route :=
  let relationships := p.relationships.filter (fun r => decide (r.source ∈ first :: more))
  breadthFirst (busiest relationships first more) relationships

/-- How many variables have to be made up: one for each relationship and one more for each that
closes a cycle. -/
def freshCount (r : Route) : Nat := r.crossings.length + 2 * r.closing.length

end Route

end PatternCardinality.Plan
