import Sluice.Proofs.Lower.Meaning
import Sluice.Proofs.Lower.Yields

/-!
# Lowered functions are well typed

What a builder emits is well typed at any time (`Builder.Typed`), so the function it ends
with is: its instructions, its parameters and what it returns. Every object is filled
where it is made (`lower_types`).
-/

namespace Sluice

open Flow

/-- **Lowering preserves types.** Every function of a program that passes type inference is lowered
if its matches handle every value. Parameters then have their types, and every instruction is well
typed under the types of registers, the records and the functions of the program. Right behind
where an object is made each of its parts is stored once, and there are no other stores. -/
theorem lower_types {source : Source.Program} {prog : Typed.Program}
    (h : Infer.infer source = .ok prog) {f : Typed.Function} (hf : f ∈ prog.functions)
    (hexhaustive : ∀ witness span,
      .nonExhaustive witness span ∉ Decision.functionErrors prog.records f) :
    ∃ g, lower f (Decision.decisions f) = .ok g ∧
      List.Forall₂ (fun r ty => g.registers[r]? = some ty) g.params f.paramTypes ∧
      (∀ i ∈ g.instructions, i.WellTyped prog f.ret g.registers) ∧
      ∀ block ∈ g.blocks, Filled block.instrs ∧
        (∀ before r shape live after, block.instrs = before ++ .alloc r shape live :: after →
          ∃ (values : List (Nat × Operand Reg)) (rest : List (Instr Reg)),
            after = values.map (fun x => .store r x.1 x.2) ++ rest ∧
            (values.map (·.1)).Perm (List.range shape.size) ∧ Filled rest) ∧
        ∀ before r index value after, block.instrs = before ++ .store r index value :: after →
          ∃ shape live, .alloc r shape live ∈ before ∧ index < shape.size := by
  obtain ⟨hwt, htotal, g, K, hlower, -⟩ := exists_lower_of_infer h hf hexhaustive
  obtain ⟨hparams, hblocks⟩ := typed_of_lower hwt (decided_decisions hwt htotal) hlower
  refine ⟨g, hlower, hparams, fun i hi => ?_, fun block hblock => ?_⟩
  · obtain ⟨block, hblock, hi⟩ := List.mem_flatMap.1 hi
    exact (hblocks block hblock).1 i hi
  · obtain ⟨-, hfilled⟩ := hblocks block hblock
    exact ⟨hfilled, fun _ _ _ _ _ heq => hfilled.surrounds heq,
      fun _ _ _ _ _ heq => hfilled.surrounds heq⟩

open Infer (pairSource)

/-- One function of the program takes a record apart, the other one makes a record and a list. -/
theorem lower_types_pairSource :
    Infer.infer pairSource = .ok (Infer.check pairSource).program ∧
    ((Infer.check pairSource).program.functions.any fun f =>
      (lower f (Decision.decisions f)).toOption.any fun g =>
        g.instructions.any Instr.fillsObject) = true ∧
    ∀ f ∈ (Infer.check pairSource).program.functions, ∃ g,
      lower f (Decision.decisions f) = .ok g ∧
      (∀ i ∈ g.instructions, i.WellTyped (Infer.check pairSource).program f.ret g.registers) ∧
      ∀ block ∈ g.blocks, Filled block.instrs := by
  have hok : Infer.infer pairSource = .ok (Infer.check pairSource).program :=
    Infer.infer_eq_ok.2 ⟨by decide +kernel, rfl⟩
  have hmatches : ∀ f ∈ (Infer.check pairSource).program.functions,
      Decision.functionErrors (Infer.check pairSource).program.records f = [] := by
    decide +kernel
  refine ⟨hok, by decide +kernel, fun f hf => ?_⟩
  obtain ⟨g, hlower, -, htyped, hblocks⟩ :=
    lower_types hok hf (by rw [hmatches f hf]; exact fun _ _ => List.not_mem_nil)
  exact ⟨g, hlower, htyped, fun block hblock => (hblocks block hblock).1⟩

end Sluice
