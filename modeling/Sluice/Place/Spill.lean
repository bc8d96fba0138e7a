import Sluice.Flow.Function

/-!
# Spilling

A spilled register lives in a stack slot. Each instruction that reads it
loads it into a register of its own first, and each that writes it writes a
register of its own and stores that. A parameter arrives in its register, so
it is stored on entry.
-/

namespace Sluice.Flow

/-- The registers of a function, and those among them that spilling made or that it must not take
again. -/
structure Pool where
  registers : List Ty
  temporaries : IdSet

/-- A new temporary. -/
def newTemporary (ty : Ty) : StateM Pool Reg := do
  let pool ← get
  let r := pool.registers.length
  set { registers := pool.registers ++ [ty], temporaries := pool.temporaries.insert r : Pool }
  return r

/-- Loads a register before an instruction that reads it. -/
def spillReads (r : Reg) (slot : Slot) (ty : Ty) (i : Instr Reg) :
    StateM Pool (List (Instr Reg) × Instr Reg) :=
  if i.uses.contains r then do
    let t ← newTemporary ty
    return ([.spillLoad t slot], i.mapUses fun q => if q = r then t else q)
  else
    return ([], i)

/-- Stores a register after an instruction that writes it. -/
def spillWrite (r : Reg) (slot : Slot) (ty : Ty) (i : Instr Reg) :
    StateM Pool (Instr Reg × List (Instr Reg)) :=
  if i.def? = some r then do
    let t ← newTemporary ty
    return (i.mapDef fun _ => t, [.spillStore slot t])
  else
    return (i, [])

/-- An instruction with the loads and stores it needs. -/
def spillInstr (r : Reg) (slot : Slot) (ty : Ty) (i : Instr Reg) :
    StateM Pool (List (Instr Reg)) := do
  let (loads, i) ← spillReads r slot ty i
  let (i, stores) ← spillWrite r slot ty i
  return loads ++ i :: stores

/-- The blocks of a function with the loads and stores they need. -/
def spillBlocks (f : Function Reg) (r : Reg) (slot : Slot) (ty : Ty) :
    StateM Pool (List (Block Reg)) :=
  f.blocks.zipIdx.mapM fun (b, l) => do
    let arrival := if l = entry ∧ r ∈ f.params then [.spillStore slot r] else []
    let instrs ← b.instrs.mapM (spillInstr r slot ty)
    return { b with instrs := arrival ++ instrs.flatten }

/-- **Moves a register to a stack slot.** Gives the function and the temporaries afterwards; a
register that does not exist changes nothing. -/
def Function.spill (f : Function Reg) (r : Reg) (slot : Slot) (temporaries : IdSet) :
    Function Reg × IdSet :=
  match f.registers[r]? with
  | none => (f, temporaries)
  | some ty =>
    let temporaries := if r ∈ f.params then temporaries.insert r else temporaries
    let (blocks, pool) := spillBlocks f r slot ty { registers := f.registers, temporaries }
    ({ f with registers := pool.registers, blocks }, pool.temporaries)

end Sluice.Flow
