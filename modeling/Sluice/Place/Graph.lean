import Sluice.Live.Interval

/-!
# Interference

Two registers interfere if both are live at some position, so that they
cannot share a place. The graph has a node for every register that is ever
live.
-/

namespace Sluice

open Sluice.Flow (Reg)

/-- Registers by ascending number, each with the registers it interferes with. -/
abbrev Graph := List (Reg × IdSet)

/-- Whether two registers interfere: the interval with the lower register is compared with the
other. -/
def Flow.Interval.interferes (a b : Flow.Interval) : Bool :=
  (a.reg < b.reg && a.overlaps b) || (b.reg < a.reg && b.overlaps a)

namespace Graph

/-- **The interference graph of intervals.** -/
def ofIntervals (intervals : List Flow.Interval) : Graph :=
  let live := intervals.filter fun i => !i.isEmpty
  live.map fun a => (a.reg, .ofList ((live.filter a.interferes).map (·.reg)))

/-- The registers of a graph. -/
def nodes (g : Graph) : List Reg :=
  g.map (·.1)

/-- The registers that one interferes with. -/
def neighbours (g : Graph) (r : Reg) : IdSet :=
  (g.lookup r).getD ∅

/-- Whether two registers interfere. -/
def adjacent (g : Graph) (a b : Reg) : Bool :=
  (g.neighbours a).contains b

/-- Takes a register out of a graph. -/
def remove (r : Reg) (g : Graph) : Graph :=
  (g.filter fun (q, _) => q ≠ r).map fun (q, others) => (q, others.erase r)

end Graph

end Sluice
