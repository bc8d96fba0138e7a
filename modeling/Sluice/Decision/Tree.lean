import Sluice.Decision.Occurrence
import Sluice.IdSet
import Sluice.Literal

/-!
# Decision trees

What remains of a match: tests of parts of the scrutinee against literals,
guards, and the arms that are selected in the end.
-/

namespace Sluice.Decision

/-- A local bound by an arm's pattern, and the part it is bound to. -/
structure Binding where
  id : Nat
  occurrence : Occurrence
  deriving DecidableEq, Repr

/-- A decision tree. A `guard` selects its arm if the arm's guard holds. A `test` compares a part
with the literals in order; it has a default unless the literals are all values there are. -/
inductive Tree where
  | leaf (arm : Nat) (bindings : List Binding)
  | guard (arm : Nat) (bindings : List Binding) (fallback : Tree)
  | test (occurrence : Occurrence) (branches : List (Literal × Tree)) (default : Option Tree)
  | fail

namespace Tree

mutual

/-- The arms a tree selects, from left to right. -/
def arms : Tree → List Nat
  | leaf arm _ => [arm]
  | guard arm _ fallback => arm :: fallback.arms
  | test _ branches none => branchArms branches
  | test _ branches (some default) => branchArms branches ++ default.arms
  | fail => []

/-- The arms the branches of a test select. -/
def branchArms : List (Literal × Tree) → List Nat
  | [] => []
  | (_, t) :: rest => t.arms ++ branchArms rest

end

/-- The set of arms that a tree can select. -/
def reachable (t : Tree) : IdSet :=
  .ofList t.arms

mutual

/-- The occurrences that a tree tests or binds, from left to right. -/
def used : Tree → List Occurrence
  | leaf _ bindings => bindings.map (·.occurrence)
  | guard _ bindings fallback => bindings.map (·.occurrence) ++ fallback.used
  | test o branches none => o :: branchUsed branches
  | test o branches (some default) => o :: (branchUsed branches ++ default.used)
  | fail => []

/-- The occurrences that the branches of a test use. -/
def branchUsed : List (Literal × Tree) → List Occurrence
  | [] => []
  | (_, t) :: rest => t.used ++ branchUsed rest

end

/-- The occurrences a tree uses and all on the way to them, each once, the shallow ones first, so
that a part comes after the part it lies in. -/
def occurrences (t : Tree) : List Occurrence :=
  sortBy Occurrence.loadsBefore (t.used.flatMap Occurrence.chain).eraseDups

mutual

/-- The number of nodes on the longest way down a tree. -/
def depth : Tree → Nat
  | leaf _ _ | fail => 1
  | guard _ _ fallback => 1 + fallback.depth
  | test _ branches none => 1 + branchDepth branches
  | test _ branches (some default) => 1 + max (branchDepth branches) default.depth

/-- The greatest depth among the branches of a test. -/
def branchDepth : List (Literal × Tree) → Nat
  | [] => 0
  | (_, t) :: rest => max t.depth (branchDepth rest)

end

/-! ## Ways to fail -/

end Tree

/-- What a test tells about the part it looks at. -/
inductive Constraint where
  | is (value : Literal)
  | isNot (values : List Literal)
  deriving DecidableEq, Repr

/-- What the tests on a way down a tree tell. -/
abbrev Knowledge := List (Occurrence × Constraint)

namespace Tree

mutual

/-- What is known of the scrutinee at the leftmost failure, if the tree has one. -/
def firstFailure? : Tree → Option Knowledge
  | leaf _ _ => none
  | guard _ _ fallback => fallback.firstFailure?
  | test o branches none => branchFailure? o branches
  | test o branches (some default) =>
    (branchFailure? o branches).or
      (default.firstFailure?.map ((o, .isNot (branches.map (·.1))) :: ·))
  | fail => some []

/-- What is known at the leftmost failure among the branches of a test. -/
def branchFailure? (o : Occurrence) : List (Literal × Tree) → Option Knowledge
  | [] => none
  | (l, t) :: rest => (t.firstFailure?.map ((o, .is l) :: ·)).or (branchFailure? o rest)

end

end Tree

end Sluice.Decision
