import Sluice.Sorted

/-!
# Occurrences

An occurrence is a path of field indices from a value to one of its parts.
The empty path is the value itself.
-/

namespace Sluice.Decision

/-- A path of field indices. -/
abbrev Occurrence := List Nat

namespace Occurrence

/-- The value itself. -/
def root : Occurrence := []

/-- The part at a field index. -/
def child (o : Occurrence) (index : Nat) : Occurrence :=
  o ++ [index]

/-- The occurrence one step up. -/
def parent? : Occurrence → Option Occurrence
  | [] => none
  | i :: rest => some (i :: rest).dropLast

/-- The last step of the path. -/
def lastIndex? (o : Occurrence) : Option Nat :=
  o.getLast?

/-- The length of the path. -/
def depth (o : Occurrence) : Nat :=
  o.length

/-- Whether the first occurrence is the second or lies inside it. -/
def within (o other : Occurrence) : Bool :=
  other.isPrefixOf o

/-- An occurrence and all on the way to it, the value itself first. -/
def chain (o : Occurrence) : List Occurrence :=
  (List.range (o.length + 1)).map fun n => o.take n

/-- The lexicographic order of paths. -/
def before (a b : Occurrence) : Bool :=
  decide (a < b)

/-- The order in which parts are loaded: the shallow ones first. -/
def loadsBefore (a b : Occurrence) : Bool :=
  a.depth < b.depth || (a.depth == b.depth && !before b a)

/-- An occurrence as it is shown in messages. -/
def text (o : Occurrence) : String :=
  "$" ++ String.join (o.map fun i => "." ++ toString i)

end Occurrence

end Sluice.Decision
