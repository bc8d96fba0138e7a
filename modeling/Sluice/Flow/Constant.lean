import Sluice.Eval
import Sluice.Flow.Function

/-!
# Constants

Two improvements. Propagation puts a constant in place of a register that
can hold nothing else. Folding computes operations on constants, and decides
branches on them.
-/

namespace Sluice.Flow

/-! ## Propagation -/

/-- The constant that an instruction gives a register. -/
def Instr.constant? : Instr Reg → Option (Reg × Literal)
  | .move dst (.imm value) => some (dst, value)
  | _ => none

/-- How many instructions write a register. -/
def Function.defCount (f : Function Reg) (r : Reg) : Nat :=
  f.instructions.countP fun i => i.def? = some r

/-- Registers that hold one constant wherever they hold a value: one instruction writes them, it
moves a constant, and no caller gives them a value. -/
def Function.constants (f : Function Reg) : List (Reg × Literal) :=
  (f.instructions.filterMap Instr.constant?).filter fun (r, _) =>
    f.defCount r = 1 && !f.params.contains r

/-- Replaces an operand by its constant. -/
def Operand.propagate (constants : List (Reg × Literal)) : Operand Reg → Operand Reg
  | .imm value => .imm value
  | .reg r =>
    match constants.lookup r with
    | some value => .imm value
    | none => .reg r

/-- **Puts constants in place of registers** that can hold nothing else. -/
def Function.propagate (f : Function Reg) : Function Reg :=
  let constants := f.constants
  f.mapBlocks fun instrs => instrs.map (·.mapOperands (·.propagate constants))

/-! ## Folding -/

/-- An instruction with its operation computed or its branch decided, where it can be. -/
def Instr.fold : Instr Reg → Instr Reg
  | .binary op dst (.imm a) (.imm b) =>
    match op.eval? a b with
    | some value => .move dst (.imm value)
    | none => .binary op dst (.imm a) (.imm b)
  | .unary op dst (.imm a) =>
    match op.eval? a with
    | some value => .move dst (.imm value)
    | none => .unary op dst (.imm a)
  | .branch (.imm (.bool true)) positive _ => .jump positive
  | .branch (.imm (.bool false)) _ negative => .jump negative
  | i => i

/-- Whether an instruction is a branch on a constant. -/
def Instr.isDecided : Instr Reg → Bool
  | .branch (.imm (.bool _)) _ _ => true
  | _ => false

/-- **Computes what is constant.** Predecessor sets are brought up to date if a branch was
decided. -/
def Function.fold (f : Function Reg) : Function Reg :=
  let folded := f.mapBlocks (·.map Instr.fold)
  if f.instructions.any Instr.isDecided then folded.withPredecessors else folded

end Sluice.Flow
