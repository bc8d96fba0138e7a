import Sluice.Live.Sets

/-!
# Dead code

An instruction that only writes a register nobody reads afterwards can go.
-/

namespace Sluice.Flow

/-- Whether an instruction does nothing that matters, given the registers live after it. -/
def Instr.isDead (i : Instr Reg) (after : IdSet) : Bool :=
  i.isPure && i.def?.any fun r => !after.contains r

/-- Leaves out dead instructions, from the last to the first, and gives the registers live before
those that stay. -/
def prune (out : IdSet) : List (Instr Reg) → List (Instr Reg) × IdSet
  | [] => ([], out)
  | i :: rest =>
    let (kept, live) := prune out rest
    if i.isDead live then (kept, live) else (i :: kept, i.liveBefore live)

/-- **Leaves out dead instructions.** -/
def Function.pruned (f : Function Reg) : Function Reg :=
  let blocks := (f.blocks.zip f.liveness.liveOut).map fun (b, out) =>
    { b with instrs := (prune out b.instrs).1 }
  { f with blocks }

end Sluice.Flow
