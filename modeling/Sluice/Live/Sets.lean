import Sluice.Flow.Error
import Sluice.Live.Layout

/-!
# Live registers

A register is live where its value may still be read. The sets at block
boundaries are the least ones that satisfy the flow equations, found by
iteration from empty sets. Inside a block they follow by going backwards.
-/

namespace Sluice.Flow

/-! ## One instruction, one block -/

/-- The registers live before an instruction, given those live after it. -/
def Instr.liveBefore (i : Instr Reg) (after : IdSet) : IdSet :=
  (i.def?.elim after after.erase).insertAll i.uses

/-- The registers live after each instruction, and those live before all of them, given those
live at the end. -/
def liveThrough (out : IdSet) : List (Instr Reg) → List IdSet × IdSet
  | [] => ([], out)
  | i :: rest =>
    let (afters, live) := liveThrough out rest
    (live :: afters, i.liveBefore live)

/-- What a block does to live registers as a whole. -/
structure Summary where
  /-- The registers it reads before it writes them. -/
  uses : IdSet := ∅
  /-- The registers it writes. -/
  defs : IdSet := ∅
  deriving DecidableEq

/-- Adds an instruction to a summary. -/
def Summary.add (s : Summary) (i : Instr Reg) : Summary where
  uses := s.uses.insertAll (i.uses.filter fun r => !s.defs.contains r)
  defs := s.defs.insertAll i.def?.toList

/-- The summary of a block. -/
def Block.summary (b : Block Reg) : Summary :=
  b.instrs.foldl .add {}

/-- The registers live at the start of a block, given those live at its end. -/
def Summary.liveIn (s : Summary) (out : IdSet) : IdSet :=
  s.uses.union (out.diff s.defs)

/-! ## Whole functions -/

/-- The registers live at the end of a block, given those live at the start of every block. -/
def liveOutOf (liveIn : List IdSet) (successors : List Label) : IdSet :=
  successors.foldl (fun out l => out.union (liveIn[l]?.getD ∅)) ∅

/-- One round: the sets at the start of every block, from those of the round before. -/
def liveRound (blocks : List (Summary × List Label)) (liveIn : List IdSet) : List IdSet :=
  blocks.map fun (summary, successors) => summary.liveIn (liveOutOf liveIn successors)

/-- Goes on for at most `rounds` rounds, or until nothing changes. -/
def liveRounds (blocks : List (Summary × List Label)) : (rounds : Nat) → List IdSet → List IdSet
  | 0, liveIn => liveIn
  | rounds + 1, liveIn =>
    let next := liveRound blocks liveIn
    if next = liveIn then liveIn else liveRounds blocks rounds next

/-- The registers live at the start and at the end of every block. -/
structure Liveness where
  liveIn : List IdSet
  liveOut : List IdSet
  deriving DecidableEq

/-- **The live registers of a function.** Every round but the last adds a register that is read
somewhere to the set of some block, which bounds their number. -/
def Function.liveness (f : Function Reg) : Liveness :=
  let blocks := f.blocks.map fun b => (b.summary, b.successors)
  let reads := f.instructions.flatMap Instr.uses
  let liveIn := liveRounds blocks (f.blocks.length * reads.length + 1) (f.blocks.map fun _ => ∅)
  { liveIn, liveOut := blocks.map fun (_, successors) => liveOutOf liveIn successors }

/-- The registers live after each instruction of every block. -/
def Function.liveAfter (f : Function Reg) : List (List IdSet) :=
  (f.blocks.zip f.liveness.liveOut).map fun (b, out) => (liveThrough out b.instrs).1

/-- Refuses a function whose control leaves its blocks: nothing is known of what is live
there. -/
def Function.checkClosed (f : Function Reg) : Except Fault Unit :=
  match f.layout.find? fun l => f.blocks.length ≤ l with
  | some l => .error (.missingBlock l)
  | none => .ok ()

/-! ## Objects and live registers -/

/-- Lists on an allocation the registers live after it, its own result apart. -/
def Instr.withLive (i : Instr Reg) (after : IdSet) : Instr Reg :=
  match i with
  | .alloc dst shape _ => .alloc dst shape (after.erase dst).toList
  | _ => i

/-- **Lists on every allocation of an object what is live across it.** -/
def Function.withLive (f : Function Reg) : Function Reg :=
  let blocks := (f.blocks.zip f.liveAfter).map fun (b, afters) =>
    { b with instrs := List.zipWith Instr.withLive b.instrs afters }
  { f with blocks }

end Sluice.Flow
