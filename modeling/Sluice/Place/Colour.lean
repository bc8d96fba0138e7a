import Sluice.Place.Graph
import Sluice.Place.Location

/-!
# Colouring

Registers are taken out of the interference graph one by one and coloured
in the opposite order. One with few enough neighbours left always finds a
colour, so those go first. If there is none, a register that is cheap to keep
on the stack is taken out in the hope that it finds a colour anyway.
-/

namespace Sluice

open Sluice.Flow (Reg)

/-! ## Order of removal -/

/-- The cheaper of two nodes: fewer uses for each neighbour, compared without dividing. The first
one wins if they are equal. -/
def cheaper (uses : Reg → Nat) (a b : Reg × IdSet) : Reg × IdSet :=
  if uses b.1 * a.2.size < uses a.1 * b.2.size then b else a

/-- The cheapest node. -/
def cheapest? (uses : Reg → Nat) : Graph → Option (Reg × IdSet)
  | [] => none
  | a :: rest => some (rest.foldl (cheaper uses) a)

/-- The register to take out next: the first with fewer than `count` neighbours, else the cheapest
that is not a temporary, else the first. -/
def nextOut? (count : Nat) (uses : Reg → Nat) (temporaries : IdSet) (g : Graph) : Option Reg :=
  match g.find? fun (_, others) => others.size < count with
  | some (r, _) => some r
  | none =>
    match cheapest? uses (g.filter fun (r, _) => !temporaries.contains r) with
    | some (r, _) => some r
    | none => g.nodes.head?

/-- Takes `size` registers out of a graph. -/
def removals (count : Nat) (uses : Reg → Nat) (temporaries : IdSet) :
    (size : Nat) → Graph → List Reg
  | 0, _ => []
  | size + 1, g =>
    match nextOut? count uses temporaries g with
    | none => []
    | some r => r :: removals count uses temporaries size (g.remove r)

/-- **The order in which registers are taken out of a graph.** -/
def removalOrder (count : Nat) (uses : Reg → Nat) (temporaries : IdSet) (g : Graph) : List Reg :=
  removals count uses temporaries g.length g

/-! ## Colours -/

/-- Registers with their colours. -/
abbrev Colouring := List (Reg × Nat)

/-- The colours of the neighbours of a register. -/
def takenColours (g : Graph) (colours : Colouring) (r : Reg) : List Nat :=
  (g.neighbours r).toList.filterMap fun q => colours.lookup q

/-- **Colours registers from the last one taken out to the first**, each with the lowest colour
that no neighbour has, if there is one. -/
def colour (count : Nat) (g : Graph) : List Reg → Colouring
  | [] => []
  | r :: rest =>
    let colours := colour count g rest
    match lowestFree count (takenColours g colours r) with
    | some c => (r, c) :: colours
    | none => colours

/-- The registers left without a colour. -/
def uncoloured (g : Graph) (colours : Colouring) : List Reg :=
  g.nodes.filter fun r => (colours.lookup r).isNone

end Sluice
