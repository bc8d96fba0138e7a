import Sluice.Decision.Tree
import Sluice.Typed.Tree

/-!
# Compiling matches

Records have one shape, so a record pattern is the conjunction of its field
patterns, and an arm comes down to literal tests on occurrences and the locals
it binds. The first arm that remains decides what is tested next: if it has no
test left it is selected, guarded or not; otherwise its first test is made,
with one branch for every literal that some arm wants at that place.
-/

namespace Sluice.Decision

open Typed (Pattern)

mutual

/-- The literal tests of a pattern at a place, from left to right. -/
def patternTests (o : Occurrence) : Pattern → List (Occurrence × Literal)
  | .wildcard _ | .binding _ _ => []
  | .literal _ value => [(o, value)]
  | .record _ _ fields => fieldTests o fields

/-- The literal tests of field patterns. -/
def fieldTests (o : Occurrence) : List (Typed.Field Pattern) → List (Occurrence × Literal)
  | [] => []
  | ⟨_, _, index, p⟩ :: rest => patternTests (o.child index) p ++ fieldTests o rest

end

mutual

/-- The locals a pattern binds at a place, from left to right. -/
def patternBindings (o : Occurrence) : Pattern → List Binding
  | .wildcard _ | .literal _ _ => []
  | .binding _ id => [⟨id, o⟩]
  | .record _ _ fields => fieldBindings o fields

/-- The locals field patterns bind. -/
def fieldBindings (o : Occurrence) : List (Typed.Field Pattern) → List Binding
  | [] => []
  | ⟨_, _, index, p⟩ :: rest => patternBindings (o.child index) p ++ fieldBindings o rest

end

/-- An arm, reduced to the literal tests it has to pass. -/
structure Row where
  arm : Nat
  tests : List (Occurrence × Literal)
  bindings : List Binding
  guarded : Bool
  deriving DecidableEq, Repr

namespace Row

/-- The literal a row wants at a place. -/
def testAt? (r : Row) (o : Occurrence) : Option Literal :=
  r.tests.lookup o

/-- A row once the test at a place is passed. -/
def passed (r : Row) (o : Occurrence) : Row :=
  { r with tests := r.tests.filter fun test => test.1 != o }

/-- What becomes of a row where a place holds a literal. -/
def specialize? (o : Occurrence) (l : Literal) (r : Row) : Option Row :=
  match r.testAt? o with
  | none => some r
  | some wanted => if wanted = l then some (r.passed o) else none

end Row

/-- Whether literals are all the values of their type. Only booleans and unit have so few; the
first literal tells the type. -/
def coversAll (literals : List Literal) : Bool :=
  match literals.head?.map Literal.prim with
  | some .bool => literals.contains (.bool true) && literals.contains (.bool false)
  | some .unit => literals.contains .unit
  | _ => false

/-- The literals some row wants at a place, each once, in the order of the rows. -/
def wanted (o : Occurrence) (rows : List Row) : List Literal :=
  (rows.filterMap (·.testAt? o)).eraseDups

/-- The tree for some rows. Every step takes away a row or a test, so their number bounds the
recursion. -/
def compileRows : (steps : Nat) → List Row → Tree
  | _, [] => .fail
  | 0, _ => .fail
  | steps + 1, row :: rest =>
    match row.tests with
    | [] =>
      if row.guarded then
        .guard row.arm row.bindings (compileRows steps rest)
      else
        .leaf row.arm row.bindings
    | (o, _) :: _ =>
      let literals := wanted o (row :: rest)
      .test o
        (literals.map fun l =>
          (l, compileRows steps ((row :: rest).filterMap (Row.specialize? o l))))
        (if coversAll literals then none
          else some (compileRows steps ((row :: rest).filter fun r => (r.testAt? o).isNone)))

/-- The number of rows and tests. -/
def rowsSize (rows : List Row) : Nat :=
  (rows.flatMap Row.tests).length + rows.length

/-- The rows of a match, its arms numbered from zero. -/
def rows {ε : Type} (arms : List (Typed.Arm ε)) : List Row :=
  arms.zipIdx.map fun (a, i) =>
    { arm := i
      tests := patternTests .root a.pattern
      bindings := patternBindings .root a.pattern
      guarded := a.guard.isSome }

/-- **The decision tree of a match.** -/
def compile {ε : Type} (arms : List (Typed.Arm ε)) : Tree :=
  compileRows (rowsSize (rows arms)) (rows arms)

end Sluice.Decision
