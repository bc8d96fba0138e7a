import Sluice.Live.Interval
import Sluice.Place.Location

/-!
# Places by linear scan

Registers are taken in the order in which they become live. Gaps in an
interval are ignored: a register counts as live from its first position to
its last, its hull. When the machine has no register left, the one that lives
longest goes to the stack.
-/

namespace Sluice

open Sluice.Flow (Reg)

/-- The positions from the first to the last at which a register is live. -/
structure Hull where
  reg : Reg
  start : Nat
  stop : Nat
  deriving DecidableEq, Repr

namespace Hull

/-- The hull of an interval. -/
def ofInterval (i : Flow.Interval) : Hull where
  reg := i.reg
  start := i.start
  stop := i.stop

/-- The order in which hulls are taken: by start, then by end, then by register. -/
def le (a b : Hull) : Bool :=
  a.start < b.start
    || (a.start == b.start && (a.stop < b.stop || (a.stop == b.stop && a.reg ≤ b.reg)))

/-- Whether a hull gives way before another: it ends later, or it ends there too and its register
is lower. -/
def yieldsBefore (a b : Hull) : Bool :=
  b.stop < a.stop || (a.stop == b.stop && a.reg < b.reg)

end Hull

/-- A hull in a machine register. -/
structure Held where
  hull : Hull
  machine : Nat
  deriving DecidableEq, Repr

/-- The held hull that gives way first. -/
def firstToYield? : List Held → Option Held
  | [] => none
  | h :: rest =>
    match firstToYield? rest with
    | none => some h
    | some other => if other.hull.yieldsBefore h.hull then some other else some h

/-- How far a scan has come. -/
structure Scan where
  /-- The hulls that are in machine registers now. -/
  active : List Held := []
  placement : Placement := []
  spilled : IdSet := ∅
  slots : Nat := 0

namespace Scan

/-- Lets go of the hulls that end before a position. -/
def expire (s : Scan) (start : Nat) : Scan :=
  { s with active := s.active.filter fun h => start ≤ h.hull.stop }

/-- Puts a hull into a machine register. -/
def hold (s : Scan) (h : Hull) (machine : Nat) : Scan :=
  { s with
    active := s.active ++ [⟨h, machine⟩]
    placement := s.placement.set h.reg (.machine machine) }

/-- Puts a hull into a new stack slot. -/
def spill (s : Scan) (h : Hull) : Scan :=
  { s with
    placement := s.placement.set h.reg (.stack s.slots)
    spilled := s.spilled.insert h.reg
    slots := s.slots + 1 }

/-- Finds a place for a hull. -/
def place (count : Nat) (s : Scan) (h : Hull) : Scan :=
  let s := s.expire h.start
  match lowestFree count (s.active.map (·.machine)) with
  | some machine => s.hold h machine
  | none =>
    match firstToYield? s.active with
    | some victim =>
      if victim.hull.yieldsBefore h then
        { s.spill victim.hull with active := s.active.erase victim }.hold h victim.machine
      else
        s.spill h
    | none => s.spill h

end Scan

/-- The hulls of all registers that are ever live, in the order in which they are taken. -/
def hulls (intervals : List Flow.Interval) : List Hull :=
  sortBy Hull.le ((intervals.filter fun i => !i.isEmpty).map Hull.ofInterval)

/-- **Places by linear scan**, with a number of machine registers. -/
def scan (count : Nat) (intervals : List Flow.Interval) : Scan :=
  (hulls intervals).foldl (Scan.place count) {}

end Sluice
