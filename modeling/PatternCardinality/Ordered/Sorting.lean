/-! Sorting a list by insertion; elements that a comparison does not tell apart keep their order. -/

namespace PatternCardinality

variable {α : Type}

/-- Puts `a` in front of the first element that is not before it. -/
def placeBy (le : α → α → Bool) (a : α) : List α → List α
  | [] => [a]
  | b :: rest => if le a b then a :: b :: rest else b :: placeBy le a rest

def sortBy (le : α → α → Bool) : List α → List α
  | [] => []
  | a :: rest => placeBy le a (sortBy le rest)

theorem placeBy_perm (le : α → α → Bool) (a : α) (l : List α) : (placeBy le a l).Perm (a :: l) := by
  induction l with
  | nil => exact .refl _
  | cons b rest ih =>
    unfold placeBy
    split
    · exact .refl _
    · exact (ih.cons b).trans (.swap a b rest)

theorem sortBy_perm (le : α → α → Bool) (l : List α) : (sortBy le l).Perm l := by
  induction l with
  | nil => exact .refl _
  | cons a rest ih => exact (placeBy_perm le a _).trans (ih.cons a)

end PatternCardinality
