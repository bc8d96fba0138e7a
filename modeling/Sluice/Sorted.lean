/-!
# Sorting by insertion

A stable sort by structural recursion, for short lists.
-/

namespace Sluice

variable {α : Type}

/-- Puts an element into a sorted list, in front of its equals. -/
def insertSorted (le : α → α → Bool) (x : α) : List α → List α
  | [] => [x]
  | y :: rest => if le x y then x :: y :: rest else y :: insertSorted le x rest

/-- Sorts a list; elements that are equal in the order stay as they stood. -/
def sortBy (le : α → α → Bool) : List α → List α
  | [] => []
  | x :: rest => insertSorted le x (sortBy le rest)

end Sluice
