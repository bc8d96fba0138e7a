import Sluice.Live.Sets

/-!
# Live intervals

Instructions are numbered along the layout, and instruction `i` has two
positions: at `2 * i` it reads, and at `2 * i + 1` its result is there. The
interval of a register is the set of positions at which it holds a value
somebody needs, as ascending ranges with gaps between them. So the value that
ends at an instruction and the one it makes do not meet.
-/

namespace Sluice.Flow

/-- The positions from `start` to `stop`, both included. -/
structure Range where
  start : Nat
  stop : Nat
  deriving DecidableEq, Repr

/-- Whether two ranges have a position in common. -/
def Range.meets (a b : Range) : Bool :=
  decide (a.start ≤ b.stop) && decide (b.start ≤ a.stop)

/-- The positions at which a register is live, and how many instructions mention it. -/
structure Interval where
  reg : Reg
  ranges : List Range
  uses : Nat
  deriving DecidableEq, Repr

/-! ## Overlap -/

/-- Whether ranges of two ascending lists meet: of two that do not, the one that ends first can
be left behind. -/
def rangesMeet : (steps : Nat) → List Range → List Range → Bool
  | steps + 1, a :: as, b :: bs =>
    if a.meets b then true
    else if a.stop < b.stop then rangesMeet steps as (b :: bs)
    else rangesMeet steps (a :: as) bs
  | _, _, _ => false

namespace Interval

/-- Whether a register is never live. -/
def isEmpty (i : Interval) : Bool :=
  i.ranges.isEmpty

/-- The first position, or zero. -/
def start (i : Interval) : Nat :=
  i.ranges.head?.elim 0 Range.start

/-- The last position, or zero. -/
def stop (i : Interval) : Nat :=
  i.ranges.getLast?.elim 0 Range.stop

/-- **Whether two intervals have a position in common.** -/
def overlaps (i j : Interval) : Bool :=
  rangesMeet (i.ranges.length + j.ranges.length) i.ranges j.ranges

end Interval

/-! ## The intervals of a function -/

/-- What is live around an instruction. -/
structure Point where
  /-- The registers live while it reads. -/
  before : IdSet
  /-- The registers that hold a value once its result is there. -/
  after : IdSet
  /-- The registers it mentions. -/
  touched : IdSet

/-- The point of an instruction, given the registers live after it. -/
def Instr.point (i : Instr Reg) (after : IdSet) : Point where
  before := i.liveBefore after
  after := after.insertAll i.def?.toList
  touched := .ofList (i.uses ++ i.def?.toList)

/-- The points of a function in layout order. -/
def Function.points (f : Function Reg) : List Point :=
  let blocks := f.blocks.zip f.liveAfter
  f.layout.flatMap fun l =>
    match blocks[l]? with
    | some (b, afters) => List.zipWith Instr.point b.instrs afters
    | none => []

/-- Adds a position to ascending ranges, the last one first: it is already there, or next to the
last range, or starts one. -/
def addPosition (position : Nat) : List Range → List Range
  | [] => [⟨position, position⟩]
  | last :: earlier =>
    if last.stop = position then last :: earlier
    else if last.stop + 1 = position then { last with stop := position } :: earlier
    else ⟨position, position⟩ :: last :: earlier

/-- The ascending ranges of ascending positions. -/
def rangesOf (positions : List Nat) : List Range :=
  (positions.foldl (fun ranges p => addPosition p ranges) []).reverse

/-- The positions of a register at a point. -/
def Point.positions (r : Reg) (p : Point) (index : Nat) : List Nat :=
  (if r ∈ p.before then [2 * index] else []) ++ (if r ∈ p.after then [2 * index + 1] else [])

/-- The interval of a register. A parameter has a value at the very start. -/
def intervalOf (params : List Reg) (points : List Point) (r : Reg) : Interval where
  reg := r
  ranges := rangesOf
    ((if params.contains r then [0] else [])
      ++ points.zipIdx.flatMap fun (p, index) => p.positions r index)
  uses := points.countP fun p => p.touched.contains r

/-- **The intervals of all registers of a function.** -/
def Function.intervals (f : Function Reg) : List Interval :=
  let points := f.points
  (List.range f.registers.length).map (intervalOf f.params points)

end Sluice.Flow
