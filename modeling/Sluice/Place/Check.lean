import Sluice.Live.Interval
import Sluice.Place.Location

/-!
# Checking places

A placement is right if every register that is ever live has a place, the
machine has that place, and no two registers share a place while both are
live. Nothing is asked about how the placement was found.
-/

namespace Sluice

open Sluice.Flow (Fault Function Reg)

/-- What can be wrong with places, or with finding them. -/
inductive PlaceError where
  | noMachineRegisters
  | exhausted
  | interference (first second : Reg) (location : Location)
  | outOfRange (register : Reg) (location : Location) (available : Nat)
  | unplaced (register : Reg)
  | fault (cause : Fault)
  deriving DecidableEq, Repr

/-- The wording of an error in the function with a given name. -/
def PlaceError.message (function : String) : PlaceError → String
  | noMachineRegisters => "can't allocate with 0 physical registers"
  | exhausted => "ran out of registers to spill in `" ++ function ++ "`"
  | interference first second location =>
    "%" ++ toString first ++ " and %" ++ toString second ++ " are both in " ++ location.text
      ++ " while live at the same time"
  | outOfRange register location available =>
    "%" ++ toString register ++ " was given " ++ location.text ++ ", but only "
      ++ toString available ++ " registers exist"
  | unplaced register => "%" ++ toString register ++ " is live but has no location"
  | fault cause => cause.message function

/-- Refuses a function whose control leaves its blocks. -/
def requireClosed (f : Function Reg) : Except PlaceError Unit :=
  f.checkClosed.mapError .fault

/-- The error of a register without a place, or with one that the machine does not have. -/
def placeError? (p : Placement) (count : Nat) (i : Flow.Interval) : Option PlaceError :=
  match p.get? i.reg with
  | none => some (.unplaced i.reg)
  | some (.machine number) =>
    if count ≤ number then some (.outOfRange i.reg (.machine number) count) else none
  | some (.stack _) => none

/-- The error of the first of some registers that shares its place with a given one while both
are live. -/
def clashWith? (p : Placement) (a : Flow.Interval) (others : List Flow.Interval) :
    Option PlaceError :=
  match p.get? a.reg with
  | none => none
  | some location =>
    (others.find? fun b => p.get? b.reg = some location && a.overlaps b).map fun b =>
      .interference a.reg b.reg location

/-- The error of the first two registers that share a place while both are live. -/
def clash? (p : Placement) : List Flow.Interval → Option PlaceError
  | [] => none
  | a :: rest => (clashWith? p a rest).or (clash? p rest)

/-- The first error of a placement. -/
def firstPlaceError? (p : Placement) (count : Nat) (intervals : List Flow.Interval) :
    Option PlaceError :=
  let live := intervals.filter fun i => !i.isEmpty
  (live.findSome? (placeError? p count)).or (clash? p live)

/-- **Checks a placement** for a machine with a number of registers. -/
def validate (f : Function Reg) (p : Placement) (count : Nat) : Except PlaceError Unit := do
  requireClosed f
  match firstPlaceError? p count f.intervals with
  | some e => throw e
  | none => return ()

/-- A register's place, or the error that it has none. -/
def Placement.require (p : Placement) (r : Reg) : Except PlaceError Location :=
  match p.get? r with
  | some location => .ok location
  | none => .error (.unplaced r)

/-- **The function with places instead of registers.** -/
def Placement.resolve (p : Placement) (f : Function Reg) : Except PlaceError (Function Location) :=
  f.tryMap p.require

end Sluice
