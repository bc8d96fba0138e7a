import Sluice.Flow.Function

/-!
# Block order

Blocks in the order in which their code is laid out: depth first from the
entry, each block in front of what was found after it, then the blocks that
are never entered.
-/

namespace Sluice.Flow

variable {ρ : Type}

/-- A depth-first walk: the blocks it has seen, and those it is done with, the last one first. -/
structure Walk where
  seen : IdSet := ∅
  done : List Label := []

/-- Walks on from a block, down at most `depth` blocks. -/
def Function.walk (f : Function ρ) : (depth : Nat) → Walk → Label → Walk
  | 0, w, _ => w
  | depth + 1, w, l =>
    if w.seen.contains l then w
    else
      let after := (f.successors l).foldl (f.walk depth) { w with seen := w.seen.insert l }
      { after with done := l :: after.done }

/-- **The order of blocks**: those that control reaches in reverse postorder, then the others in
their own order. A target that does not exist is listed too. -/
def Function.layout (f : Function ρ) : List Label :=
  if f.blocks.isEmpty then []
  else
    let w := f.walk (f.blocks.length + 1) {} entry
    w.done ++ (List.range f.blocks.length).filter fun l => !w.seen.contains l

end Sluice.Flow
