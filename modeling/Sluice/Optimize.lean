import Sluice.Flow.Constant
import Sluice.Live.DeadCode

/-!
# Improving flow functions

The improvements run in turn, and again as long as one of them changes
something.
-/

namespace Sluice

open Sluice.Flow (Fault Function Reg)

/-- An improvement of one function. -/
inductive Pass where
  | propagate
  | fold
  | prune
  deriving DecidableEq, Repr

namespace Pass

/-- All improvements, in the order in which they run. -/
def all : List Pass := [propagate, fold, prune]

/-- The name of an improvement. -/
def text : Pass → String
  | propagate => "constant-propagation"
  | fold => "constant-folding"
  | prune => "dead-code-elimination"

/-- The improvement with a name. -/
def ofText? (s : String) : Option Pass :=
  all.find? fun p => p.text == s

/-- Runs an improvement once. What is dead is only known of a function whose control stays in its
blocks. -/
def run (p : Pass) (f : Function Reg) : Except Fault (Function Reg) :=
  match p with
  | propagate => .ok f.propagate
  | fold => .ok f.fold
  | prune => do
    f.checkClosed
    return f.pruned

end Pass

/-- Whether two functions differ in their instructions. -/
def differ (f g : Function Reg) : Bool :=
  decide (f.blocks.map (·.instrs) ≠ g.blocks.map (·.instrs))

/-- Runs improvements one after the other, and tells whether one changed anything. -/
def runPasses (changed : Bool) : List Pass → Function Reg → Except Fault (Bool × Function Reg)
  | [], f => .ok (changed, f)
  | p :: rest, f => do
    let g ← p.run f
    runPasses (changed || differ f g) rest g

/-- Repeats improvements at most `limit` times, and counts the times that changed something. -/
def repeatPasses (passes : List Pass) :
    (limit : Nat) → Function Reg → Except Fault (Nat × Function Reg)
  | 0, f => .ok (0, f)
  | limit + 1, f => do
    let (changed, g) ← runPasses false passes f
    if changed then
      let (count, h) ← repeatPasses passes limit g
      return (count + 1, h)
    else
      return (0, g)

/-- How often improvements are repeated at most. -/
def passLimit : Nat := 16

/-- **Improves a function** with all improvements. -/
def optimize (f : Function Reg) : Except Fault (Nat × Function Reg) :=
  repeatPasses Pass.all passLimit f

end Sluice
