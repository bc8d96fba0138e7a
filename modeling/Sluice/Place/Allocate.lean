import Sluice.Place.Check
import Sluice.Place.Colour
import Sluice.Place.Scan
import Sluice.Place.Spill

/-!
# Finding places

Two ways to find places, by linear scan and by colouring. What either of
them finds is checked before it is given out.
-/

namespace Sluice

open Sluice.Flow (Function Reg)

/-- A way to find places. -/
inductive Strategy where
  | linearScan
  | graphColouring
  deriving DecidableEq, Repr

namespace Strategy

/-- All ways to find places. -/
def all : List Strategy := [linearScan, graphColouring]

/-- The name of a way to find places. -/
def text : Strategy → String
  | linearScan => "linear-scan"
  | graphColouring => "graph-coloring"

/-- The way to find places with a name. -/
def ofText? (s : String) : Option Strategy :=
  all.find? fun way => way.text == s

end Strategy

/-- Places that were found for a function. -/
structure Found where
  /-- The function, with spill code if there had to be some. -/
  function : Function Reg
  placement : Placement
  /-- How often the function was gone through. -/
  rounds : Nat
  /-- The registers of the function as it came that got no machine register. -/
  spilled : IdSet
  slots : Nat

/-- Places by linear scan. The function stays as it is. -/
def findByScan (count : Nat) (f : Function Reg) : Found :=
  let s := scan count f.intervals
  { function := f, placement := s.placement, rounds := 1, spilled := s.spilled, slots := s.slots }

/-! ## Rounds of colouring -/

/-- How far the rounds of colouring have come. -/
structure Round where
  function : Function Reg
  temporaries : IdSet := ∅
  spilled : IdSet := ∅
  slots : Nat := 0

/-- Spills a register into a new slot. -/
def Round.spill (s : Round) (r : Reg) : Round :=
  let (function, temporaries) := s.function.spill r s.slots s.temporaries
  { function, temporaries, spilled := s.spilled.insert r, slots := s.slots + 1 }

/-- How often a register is used according to its interval. -/
def usesIn (intervals : List Flow.Interval) (r : Reg) : Nat :=
  intervals[r]?.elim 0 Flow.Interval.uses

/-- Colours the registers of a function, and lists those without a colour. -/
def Round.colour (count : Nat) (s : Round) : Colouring × List Reg :=
  let intervals := s.function.intervals
  let g := Graph.ofIntervals intervals
  let colours := Sluice.colour count g (removalOrder count (usesIn intervals) s.temporaries g)
  (colours, uncoloured g colours)

/-- The placement of a colouring. What has no colour stays on the stack, each register in a slot
of its own. -/
def placeColours (colours : Colouring) (rest : List Reg) (slots : Nat) : Placement :=
  .ofList ((colours.map fun (r, c) => (r, .machine c))
    ++ (rest.zipIdx slots).map fun (r, slot) => (r, .stack slot))

/-- Colours, spills what found no colour, and starts over, for at most `left` rounds. A temporary
without a colour is not spilled again. -/
def colourRounds (count : Nat) : (left round : Nat) → Round → Except PlaceError Found
  | 0, _, _ => .error .exhausted
  | left + 1, round, s => do
    requireClosed s.function
    let (colours, rest) := s.colour count
    match rest.filter fun r => !s.temporaries.contains r with
    | [] =>
      return {
        function := s.function
        placement := placeColours colours rest s.slots
        rounds := round
        spilled := s.spilled
        slots := s.slots + rest.length }
    | spills => colourRounds count left (round + 1) (spills.foldl .spill s)

/-- Places by colouring. Every round but the last spills a register of the function as it came,
which bounds their number. -/
def findByColouring (count : Nat) (f : Function Reg) : Except PlaceError Found :=
  colourRounds count (f.registers.length + 1) 1 { function := f }

/-! ## Allocation -/

/-- A function with places for its registers. -/
structure Placed where
  function : Function Reg
  placement : Placement
  strategy : Strategy
  rounds : Nat
  spilled : IdSet
  slots : Nat

/-- How many machine registers a function needs. -/
def Placed.machineCount (p : Placed) : Nat :=
  p.placement.machineRegisters.size

/-- The function with places instead of registers. -/
def Placed.resolve (p : Placed) : Except PlaceError (Function Location) :=
  p.placement.resolve p.function

/-- Finds places in one of the ways. -/
def find (way : Strategy) (count : Nat) (f : Function Reg) : Except PlaceError Found :=
  match way with
  | .linearScan => do
    requireClosed f
    return findByScan count f
  | .graphColouring => findByColouring count f

/-- **Finds places for the registers of a function** on a machine with `count` registers. -/
def allocate (way : Strategy) (count : Nat) (f : Function Reg) : Except PlaceError Placed := do
  if count = 0 then
    throw .noMachineRegisters
  let found ← find way count f
  let function := found.function.withLive
  validate function found.placement count
  return {
    function
    placement := found.placement
    strategy := way
    rounds := found.rounds
    spilled := found.spilled
    slots := found.slots }

end Sluice
