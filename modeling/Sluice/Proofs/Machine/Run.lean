import Mathlib.Tactic.Common
import Mathlib.Logic.Function.Basic
import Sluice.Place.Location
import Sluice.Proofs.Machine.World

/-!
# Running flow functions

A machine for flow functions. Its memory has one cell for every place. A
register of a function that is not placed yet has a machine register of its
own, so that the same machine runs functions before and after they are placed;
spill code always uses the stack.

`Instr.step` says what one instruction does, `Runs` what a run from some point
on comes to. A run is determined by where it starts (`Runs.unique`).
-/

namespace Sluice

namespace Machine

open Flow (Reg Slot Label)

/-- What names a cell of the memory. -/
class Cell (ρ : Type) where
  /-- The cell that a name stands for. -/
  cell : ρ → Location

instance : Cell Reg := ⟨.machine⟩

instance : Cell Location := ⟨id⟩

/-- The contents of all cells. -/
abbrev Memory := Location → Value

/-- The state of a run. Stores to the stack made by spill code are kept apart, the latest
first. -/
structure State where
  memory : Memory
  world : World
  spills : List (Slot × Value) := []

namespace State

variable {ρ : Type} [Cell ρ]

/-- The value in a register. -/
def get (s : State) (r : ρ) : Value :=
  s.memory (Cell.cell r)

/-- Writes a register. -/
def set (s : State) (r : ρ) (v : Value) : State :=
  { s with memory := Function.update s.memory (Cell.cell r) v }

end State

/-- What an instruction does to a run. -/
inductive Step where
  | next (s : State)
  | goto (l : Label) (s : State)
  | halt (e : Ending) (s : State)

end Machine

namespace Flow

open Machine

variable {ρ : Type} [Cell ρ]

theorem get_set_self (s : State) (r : Reg) (v : Value) : (s.set r v).get r = v :=
  Function.update_self ..

theorem get_set_of_ne {s : State} {r r' : Reg} (h : r' ≠ r) (v : Value) :
    (s.set r v).get r' = s.get r' :=
  Function.update_of_ne (fun heq => h (Location.machine.inj heq)) ..

/-- The value of an operand. -/
def Operand.value (s : State) : Operand ρ → Value
  | imm l => .lit l
  | reg r => s.get r

/-- What a call reaches. -/
def Callee.value (s : State) : Callee ρ → Value
  | direct symbol => .function symbol
  | indirect r => s.get r

/-- **What an instruction does.** -/
def Instr.step (calls : Calls) (s : State) : Instr ρ → Step
  | move dst src => .next (s.set dst (src.value s))
  | unary op dst operand => .next (s.set dst (op.apply (operand.value s)))
  | binary op dst lhs rhs =>
    match op.apply (lhs.value s) (rhs.value s) with
    | some v => .next (s.set dst v)
    | none => .halt (.stopped .trap) s
  | call dst callee args =>
    match s.world.call calls (callee.value s) (args.map (·.value s)) with
    | (some v, world) => .next ({ s with world }.set dst v)
    | (none, world) => .halt (.stopped .lost) { s with world }
  | address dst function => .next (s.set dst (.function function))
  | alloc dst shape _ =>
    .next ({ s with world := (s.world.alloc shape).2 }.set dst (s.world.alloc shape).1)
  | store object index value =>
    .next { s with world := s.world.store (s.get object) index (value.value s) }
  | load dst object index => .next (s.set dst (s.world.heap.load (s.get object) index))
  | spillStore slot src =>
    .next { s with
      memory := Function.update s.memory (.stack slot) (s.get src)
      spills := (slot, s.get src) :: s.spills }
  | spillLoad dst slot => .next (s.set dst (s.memory (.stack slot)))
  | jump target => .goto target s
  | branch condition positive negative =>
    .goto (if (condition.value s).isTrue then positive else negative) s
  | ret value => .halt (.value (value.value s)) s

/-- **A run of some instructions of a function comes to an end.** -/
inductive Runs (calls : Calls) (f : Function ρ) :
    List (Instr ρ) → State → Ending → State → Prop
  /-- An instruction, and then the ones after it. -/
  | next {i rest s s' t e} :
    i.step calls s = .next s' → Runs calls f rest s' e t → Runs calls f (i :: rest) s e t
  /-- Control goes on in another block. -/
  | goto {i rest s s' t e l b} :
    i.step calls s = .goto l s' → f.blocks[l]? = some b → Runs calls f b.instrs s' e t →
      Runs calls f (i :: rest) s e t
  /-- The run ends. -/
  | halt {i rest s t e} : i.step calls s = .halt e t → Runs calls f (i :: rest) s e t

/-- What a run comes to from the second place it comes to from the first. -/
def Leads (calls : Calls) (f : Function ρ) (is : List (Instr ρ)) (s : State)
    (is' : List (Instr ρ)) (s' : State) : Prop :=
  ∀ e t, Runs calls f is' s' e t → Runs calls f is s e t

/-- Puts arguments into the cells of the parameters, one after the other. -/
def Function.arrive (f : Function ρ) (m : Memory) (args : List Value) : Memory :=
  (f.params.zip args).foldl (fun m (p, v) => Function.update m (Cell.cell p) v) m

/-- **What a call of a function comes to**, given what the memory holds when it is called. -/
def Function.Yields (calls : Calls) (f : Function ρ) (m : Memory) (args : List Value) (w : World)
    (e : Ending) (w' : World) : Prop :=
  ∃ b t, f.blocks[entry]? = some b ∧
    Runs calls f b.instrs { memory := f.arrive m args, world := w } e t ∧ t.world = w'

/-- A run comes to one end. -/
theorem Runs.unique {is : List (Instr ρ)} (h : Runs calls f is s e t)
    (h' : Runs calls f is s e' t') : e = e' ∧ t = t' := by
  induction h with
  | next hs _ ih =>
    cases h' with
    | next hs' h' => rw [hs] at hs'; cases hs'; exact ih h'
    | goto hs' _ _ => rw [hs] at hs'; cases hs'
    | halt hs' => rw [hs] at hs'; cases hs'
  | goto hs hb _ ih =>
    cases h' with
    | next hs' _ => rw [hs] at hs'; cases hs'
    | goto hs' hb' h' =>
      rw [hs] at hs'
      cases hs'
      rw [hb] at hb'
      cases hb'
      exact ih h'
    | halt hs' => rw [hs] at hs'; cases hs'
  | halt hs =>
    cases h' with
    | next hs' _ => rw [hs] at hs'; cases hs'
    | goto hs' _ _ => rw [hs] at hs'; cases hs'
    | halt hs' => rw [hs] at hs'; cases hs'; exact ⟨rfl, rfl⟩

/-- **A call comes to one end.** -/
theorem Function.Yields.unique {f : Function ρ} {m : Memory} (h1 : f.Yields calls m args w e1 w1)
    (h2 : f.Yields calls m args w e2 w2) : e1 = e2 ∧ w1 = w2 := by
  obtain ⟨b1, t1, hb1, hr1, rfl⟩ := h1
  obtain ⟨b2, t2, hb2, hr2, rfl⟩ := h2
  rw [hb1] at hb2
  cases hb2
  obtain ⟨rfl, rfl⟩ := hr1.unique hr2
  exact ⟨rfl, rfl⟩

end Flow

end Sluice
