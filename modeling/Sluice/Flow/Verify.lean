import Sluice.Flow.Error

/-!
# Checking flow functions

Making a function and every improvement of it must leave it in a shape that
`verify` accepts: every block ends in its only terminator, targets and
registers exist, predecessor sets are up to date, and some way from the entry
returns.
-/

namespace Sluice.Flow

variable {ρ : Type}

/-! ## Reachable blocks -/

/-- A set of blocks with all their successors. -/
def Function.spread (f : Function ρ) (s : IdSet) : IdSet :=
  s.insertAll (s.toList.flatMap f.successors)

/-- Spreads a set of blocks until nothing is added, at most `rounds` times. -/
def Function.spreadAll (f : Function ρ) : (rounds : Nat) → IdSet → IdSet
  | 0, s => s
  | rounds + 1, s =>
    let next := f.spread s
    if next = s then s else f.spreadAll rounds next

/-- The blocks that control can reach from the entry. A target that does not exist counts as
reached, and nothing is reached from it. -/
def Function.reachable (f : Function ρ) : IdSet :=
  f.spreadAll (f.blocks.length + 1) (.ofList [entry])

/-! ## Verification -/

/-- A register of an instruction that the function does not have. -/
def unknownRegister? (count : Nat) (i : Instr Reg) : Option Reg :=
  (i.def?.toList ++ i.uses).find? fun r => count ≤ r

/-- The first fault of a block. -/
def blockFault? (f : Function Reg) (l : Label) (b : Block Reg) : Option Fault :=
  match b.instrs.getLast? with
  | none => some (.missingTerminator l)
  | some last =>
    if !last.isTerminator then
      some (.missingTerminator l)
    else if b.instrs.dropLast.any Instr.isTerminator then
      some (.misplacedTerminator l)
    else
      match last.successors.find? fun target => f.blocks.length ≤ target with
      | some target => some (.invalidSuccessor l target)
      | none => (b.instrs.findSome? (unknownRegister? f.registers.length)).map .unknownRegister

/-- The fault of a block whose predecessor set is not up to date. -/
def staleFault? (f : Function Reg) (l : Label) (b : Block Reg) : Option Fault :=
  if b.preds = f.predecessors l then none else some (.stalePredecessors l)

/-- The first block for which there is a fault. -/
def firstFault? (f : Function Reg) (fault? : Label → Block Reg → Option Fault) : Option Fault :=
  f.blocks.zipIdx.findSome? fun (b, l) => fault? l b

/-- Whether a block that can be reached returns. -/
def reachesReturn (f : Function Reg) : Bool :=
  f.reachable.toList.any fun l => f.blocks[l]?.any Block.returns

/-- **Checks a function**, and gives its first fault. -/
def verify (f : Function Reg) : Except Fault Unit :=
  if f.blocks.isEmpty then
    .error .noBlocks
  else
    match firstFault? f (blockFault? f) with
    | some fault => .error fault
    | none =>
      match firstFault? f (staleFault? f) with
      | some fault => .error fault
      | none => if reachesReturn f then .ok () else .error .noReachableReturn

end Sluice.Flow
