import Sluice.Flow.Instr
import Sluice.IdSet
import Sluice.Ty

/-!
# Flow functions

A function as a graph of blocks. Blocks and registers are numbered by
position, and control enters at block zero. Every block carries the set of
its predecessors, which is brought up to date on request.
-/

namespace Sluice.Flow

/-- A block: its instructions, and the blocks control comes from. -/
structure Block (ρ : Type) where
  instrs : List (Instr ρ)
  preds : IdSet
  deriving DecidableEq

/-- A function over registers of some kind. `registers` are the types of all registers it was
made with. -/
structure Function (ρ : Type) where
  name : String
  params : List ρ
  registers : List Ty
  blocks : List (Block ρ)
  deriving DecidableEq

/-- The block that control enters at. -/
def entry : Label := 0

variable {ρ σ ε : Type}

namespace Block

/-- The last instruction, if it ends the block. -/
def terminator? (b : Block ρ) : Option (Instr ρ) :=
  b.instrs.getLast?.filter Instr.isTerminator

/-- Where control goes after the block. -/
def successors (b : Block ρ) : List Label :=
  b.terminator?.elim [] Instr.successors

/-- Whether the block leaves the function. -/
def returns (b : Block ρ) : Bool :=
  b.instrs.getLast?.any Instr.isRet

end Block

namespace Function

/-- Where control goes after a block; a missing block goes nowhere. -/
def successors (f : Function ρ) (l : Label) : List Label :=
  f.blocks[l]?.elim [] Block.successors

/-- All instructions, block by block. -/
def instructions (f : Function ρ) : List (Instr ρ) :=
  f.blocks.flatMap (·.instrs)

/-- The number of instructions. -/
def instructionCount (f : Function ρ) : Nat :=
  f.instructions.length

/-- The blocks with an edge to a block. -/
def predecessors (f : Function ρ) (l : Label) : IdSet :=
  .ofList ((f.blocks.zipIdx.filter fun (b, _) => b.successors.contains l).map (·.2))

/-- Brings all predecessor sets up to date. -/
def withPredecessors (f : Function ρ) : Function ρ :=
  { f with blocks := f.blocks.zipIdx.map fun (b, l) => { b with preds := f.predecessors l } }

/-- Changes the instructions of every block. -/
def mapBlocks (f : Function ρ) (g : List (Instr ρ) → List (Instr ρ)) : Function ρ :=
  { f with blocks := f.blocks.map fun b => { b with instrs := g b.instrs } }

/-- Puts an instruction in place of another, if there is one at that place. -/
def setInstr? (f : Function ρ) (l : Label) (i : Nat) (instr : Instr ρ) : Option (Function ρ) := do
  let b ← f.blocks[l]?
  guard (i < b.instrs.length)
  return { f with blocks := f.blocks.set l { b with instrs := b.instrs.set i instr } }

/-- Renames all registers. -/
def map (g : ρ → σ) (f : Function ρ) : Function σ where
  name := f.name
  params := f.params.map g
  registers := f.registers
  blocks := f.blocks.map fun b => { b with instrs := b.instrs.map (·.map g) }

/-- Renames all registers, or stops at the first without a new name: parameters first, then block
by block. -/
def tryMap (g : ρ → Except ε σ) (f : Function ρ) : Except ε (Function σ) := do
  let params ← f.params.mapM g
  let blocks ← f.blocks.mapM fun b => do
    let instrs ← b.instrs.mapM (·.tryMap g)
    return { b with instrs }
  return { name := f.name, params, registers := f.registers, blocks }

/-- Adds a register of a type and gives its number. -/
def newRegister (f : Function ρ) (ty : Ty) : Reg × Function ρ :=
  (f.registers.length, { f with registers := f.registers ++ [ty] })

/-- Raises every register number. Register numbers have 32 bits, so they wrap around there. -/
def shift (n : Nat) (f : Function Reg) : Function Reg :=
  f.map fun r => (r + n) % 0x100000000

end Function

end Sluice.Flow
