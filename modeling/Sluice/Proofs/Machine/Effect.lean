import Sluice.Proofs.Machine.Run

/-!
# What an instruction does, apart from where

The effect of an instruction depends on the values of the registers it reads, on
the slot it loads and on the world, and on nothing else (`Instr.effect_congr`). A
step carries the effect out on the cell the instruction writes (`Instr.step_eq`).
So code whose registers have other names does the same as long as it reads the
same values.
-/

namespace Sluice.Flow

open List Machine

/-- What an instruction does. -/
inductive Effect where
  /-- Its register gets a value. -/
  | write (v : Value) (w : World)
  /-- Only the world changes. -/
  | change (w : World)
  /-- A stack slot gets a value. -/
  | spill (slot : Slot) (v : Value)
  | goto (l : Label)
  | halt (e : Ending) (w : World)

variable {ρ σ : Type} {calls : Calls} {stack : Slot → Value} {i : Instr ρ} {w : World} {l : Label}

/-- The value of an operand, given those of registers. -/
def Operand.read (read : ρ → Value) : Operand ρ → Value
  | imm l => .lit l
  | reg r => read r

/-- What a call reaches, given the values of registers. -/
def Callee.read (read : ρ → Value) : Callee ρ → Value
  | direct symbol => .function symbol
  | indirect r => read r

/-- The stack slot that an instruction reads or writes. -/
def Instr.slot? : Instr ρ → Option Slot
  | spillStore slot _ | spillLoad _ slot => some slot
  | _ => none

/-- **The effect of an instruction**, given the values of registers and slots. -/
def Instr.effect (calls : Calls) (read : ρ → Value) (stack : Slot → Value) (w : World) :
    Instr ρ → Effect
  | move _ src => .write (src.read read) w
  | unary op _ operand => .write (op.apply (operand.read read)) w
  | binary op _ lhs rhs =>
    match op.apply (lhs.read read) (rhs.read read) with
    | some v => .write v w
    | none => .halt (.stopped .trap) w
  | call _ callee args =>
    match w.call calls (callee.read read) (args.map (·.read read)) with
    | (some v, w) => .write v w
    | (none, w) => .halt (.stopped .lost) w
  | address _ function => .write (.function function) w
  | alloc _ shape _ => .write (w.alloc shape).1 (w.alloc shape).2
  | store object index value => .change (w.store (read object) index (value.read read))
  | load _ object index => .write (w.heap.load (read object) index) w
  | spillStore slot src => .spill slot (read src)
  | spillLoad _ slot => .write (stack slot) w
  | jump target => .goto target
  | branch condition positive negative =>
    .goto (if (condition.read read).isTrue then positive else negative)
  | ret value => .halt (.value (value.read read)) w

/-- Carries an effect out, given the cell to write. -/
def Effect.apply (s : State) (dst : Option Location) : Effect → Step
  | write v w =>
    .next { s with memory := dst.elim s.memory (Function.update s.memory · v), world := w }
  | change w => .next { s with world := w }
  | spill slot v =>
    .next { s with
      memory := Function.update s.memory (.stack slot) v
      spills := (slot, v) :: s.spills }
  | goto l => .goto l s
  | halt e w => .halt e { s with world := w }

/-- The contents of the stack. -/
def stackOf (s : State) (slot : Slot) : Value :=
  s.memory (.stack slot)

/-! ## Effects and registers -/

theorem Operand.read_congr {read read'} (o : Operand ρ)
    (h : ∀ r ∈ o.reg?.toList, read r = read' r) : o.read read = o.read read' := by
  cases o with
  | imm _ => rfl
  | reg r => exact h r mem_cons_self

theorem Callee.read_congr {read read'} (c : Callee ρ)
    (h : ∀ r ∈ c.reg?.toList, read r = read' r) : c.read read = c.read read' := by
  cases c with
  | direct _ => rfl
  | indirect r => exact h r mem_cons_self

/-- The arguments of a call that reads the same registers. -/
theorem map_read_congr {read read'} {args : List (Operand ρ)}
    (h : ∀ r ∈ args.filterMap Operand.reg?, read r = read' r) :
    args.map (·.read read) = args.map (·.read read') :=
  map_congr_left fun o ho => o.read_congr fun r hr =>
    h r (mem_filterMap.2 ⟨o, ho, Option.mem_toList.1 hr⟩)

theorem Operand.read_map (f : ρ → σ) (read : σ → Value) (o : Operand ρ) :
    (o.map f).read read = o.read (read ∘ f) := by
  cases o <;> rfl

theorem Callee.read_map (f : ρ → σ) (read : σ → Value) (c : Callee ρ) :
    (c.map f).read read = c.read (read ∘ f) := by
  cases c <;> rfl

theorem map_read_map (f : ρ → σ) (read : σ → Value) (args : List (Operand ρ)) :
    (args.map (·.map f)).map (·.read read) = args.map (·.read (read ∘ f)) := by
  rw [map_map]
  exact map_congr_left fun o _ => o.read_map f read

/-- **An effect depends on the registers that are read and on the slot.** -/
theorem Instr.effect_congr {read read' stack'} (i : Instr ρ)
    (hread : ∀ r ∈ i.uses, read r = read' r) (hstack : ∀ slot ∈ i.slot?, stack slot = stack' slot) :
    i.effect calls read stack w = i.effect calls read' stack' w := by
  cases i with
  | move _ src | unary _ _ src | branch src _ _ | ret src =>
    simp only [effect, src.read_congr hread]
  | binary op _ lhs rhs =>
    obtain ⟨hl, hr⟩ := forall_mem_append.1 hread
    simp only [effect, lhs.read_congr hl, rhs.read_congr hr]
  | call _ callee args =>
    obtain ⟨hc, ha⟩ := forall_mem_append.1 hread
    simp only [effect, callee.read_congr hc, map_read_congr ha]
  | store object index value =>
    obtain ⟨ho, hv⟩ := forall_mem_cons.1 hread
    simp only [effect, ho, value.read_congr hv]
  | load _ object _ | spillStore _ object =>
    simp only [effect, hread object mem_cons_self]
  | spillLoad _ slot => simp only [effect, hstack slot rfl]
  | address _ _ | alloc _ _ _ | jump _ => rfl

/-- The effect of an instruction with other names for its registers. -/
theorem Instr.effect_map (f : ρ → σ) {read} (i : Instr ρ) :
    (i.map f).effect calls read stack w = i.effect calls (read ∘ f) stack w := by
  cases i <;> simp only [map, effect, Operand.read_map, Callee.read_map, map_read_map,
    Function.comp_apply]

/-- Only an instruction with a register to write has a value to write. -/
theorem Instr.exists_def_of_effect {read}
    (h : i.effect calls read stack w = .write v w') : ∃ d, i.def? = some d := by
  cases i <;> first | exact ⟨_, rfl⟩ | cases h

/-- An instruction that only changes the world has no register to write. -/
theorem Instr.def?_of_effect {read}
    (h : i.effect calls read stack w = .change w') : i.def? = none := by
  cases i with
  | binary | call =>
    simp only [effect] at h
    split at h <;> cases h
  | _ => first | rfl | cases h

/-- Control goes to a successor. -/
theorem Instr.mem_successors_of_effect {read}
    (h : i.effect calls read stack w = .goto l) : l ∈ i.successors := by
  cases i with
  | jump target =>
    cases h
    exact mem_singleton_self _
  | branch condition positive negative =>
    cases h
    simp only [successors, mem_cons, not_mem_nil, or_false]
    split
    · exact .inl rfl
    · exact .inr rfl
  | binary | call =>
    simp only [effect] at h
    split at h <;> cases h
  | _ => cases h

/-- Control leaves where a block ends. -/
theorem Instr.isTerminator_of_effect {read}
    (h : i.effect calls read stack w = .goto l) : i.isTerminator = true := by
  have hl := mem_successors_of_effect h
  cases i <;> first | rfl | cases hl

/-- Where a block ends, control goes to a successor or the run ends. -/
theorem Instr.effect_of_isTerminator {read} (h : i.isTerminator = true) :
    (∃ l, i.effect calls read stack w = .goto l) ∨
      ∃ e, i.effect calls read stack w = .halt e w := by
  cases i with
  | jump _ | branch _ _ _ => exact .inl ⟨_, rfl⟩
  | ret _ => exact .inr ⟨_, rfl⟩
  | _ => cases h

theorem Instr.slot?_of_isTerminator (h : i.isTerminator = true) : i.slot? = none := by
  cases i <;> first | rfl | cases h

/-- What is seen of a spilled value is its slot. -/
theorem Instr.slot_of_effect {read}
    (h : i.effect calls read stack w = .spill slot v) : ∃ src, i = .spillStore slot src := by
  cases i with
  | spillStore slot src =>
    cases h
    exact ⟨src, rfl⟩
  | binary | call =>
    simp only [effect] at h
    split at h <;> cases h
  | _ => cases h

/-! ## Steps -/

variable [Cell ρ]

theorem Operand.value_eq (s : State) (o : Operand ρ) : o.value s = o.read s.get := by
  cases o <;> rfl

theorem Callee.value_eq (s : State) (c : Callee ρ) : c.value s = c.read s.get := by
  cases c <;> rfl

/-- **A step carries out the effect of its instruction.** -/
theorem Instr.step_eq (calls : Calls) (s : State) (i : Instr ρ) :
    i.step calls s =
      (i.effect calls s.get (stackOf s) s.world).apply s (i.def?.map Cell.cell) := by
  cases i with
  | binary op _ lhs rhs =>
    simp only [step, effect, Operand.value_eq]
    cases op.apply (lhs.read s.get) (rhs.read s.get) <;> rfl
  | call _ callee args =>
    simp only [step, effect, Operand.value_eq, Callee.value_eq]
    generalize s.world.call calls (callee.read s.get) (args.map (·.read s.get)) = result
    obtain ⟨_ | v, w⟩ := result <;> rfl
  | _ =>
    rfl

/-- A step that goes to a block has the effect of going there. -/
theorem Instr.effect_of_goto (h : i.step calls s = .goto l s') :
    i.effect calls s.get (stackOf s) s.world = .goto l ∧ s' = s := by
  rw [step_eq] at h
  cases heffect : i.effect calls s.get (stackOf s) s.world with
  | goto k =>
    rw [heffect] at h
    cases h
    exact ⟨rfl, rfl⟩
  | _ =>
    rw [heffect] at h
    cases h

/-- Control goes to a successor, and nothing changes on the way. -/
theorem Instr.goto_of_step (h : i.step calls s = .goto l s') : s' = s ∧ l ∈ i.successors :=
  have ⟨heffect, hs⟩ := effect_of_goto h
  ⟨hs, mem_successors_of_effect heffect⟩

/-- An instruction changes no register but the one it writes. -/
theorem Instr.get_of_step {i : Instr Reg} (h : i.step calls s = .next s')
    (hr : i.def? ≠ some r) : s'.get r = s.get r := by
  rw [step_eq] at h
  cases heffect : i.effect calls s.get (stackOf s) s.world with
  | write v w =>
    obtain ⟨d, hd⟩ := exists_def_of_effect heffect
    rw [heffect, hd] at h
    cases h
    have hne : (Cell.cell r : Location) ≠ Cell.cell d := by
      intro heq
      exact hr (hd.trans (congrArg some (Location.machine.inj heq).symm))
    exact Function.update_of_ne hne v s.memory
  | change w =>
    rw [heffect] at h
    cases h
    rfl
  | spill slot v =>
    rw [heffect] at h
    cases h
    have hne : (Cell.cell r : Location) ≠ .stack slot := Location.noConfusion
    exact Function.update_of_ne hne v s.memory
  | _ =>
    rw [heffect] at h
    cases h

end Sluice.Flow
