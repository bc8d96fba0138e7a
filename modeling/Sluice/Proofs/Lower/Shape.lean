import Sluice.Proofs.Flow.WellFormed
import Sluice.Proofs.Lower.Lowered
import Sluice.Proofs.Machine.Effect

/-!
# Builders with unfinished blocks

While a function is built, some blocks are unfinished: the one the builder is at, and
those that were made to be filled later. All others end with their only terminator
(`Builder.Whole`). A builder without unfinished blocks has built a function in order
(`plain_of_whole`).
-/

namespace Sluice.Flow

open List Build
open Decision (Decisions)

/-! ## Builders -/

namespace Builder

/-- The builder with instructions added. -/
def adds (b : Builder) (is : List (Instr Reg)) : Builder :=
  { b with blocks := b.blocks.modify b.current (· ++ is) }

/-- The builder with a register added, which may be that of a local. -/
def addRegister (b : Builder) (ty : Ty) (bound : List (Typed.LocalId × Reg)) : Builder :=
  { b with registers := b.registers ++ [ty], locals := bound }

variable {b : Builder} {is js : List (Instr Reg)} {l : Label}

@[simp] theorem length_blocks_adds : (b.adds is).blocks.length = b.blocks.length :=
  length_modify ..

theorem adds_nil (b : Builder) : b.adds [] = b := by
  have hsame : b.blocks.modify b.current (· ++ []) = b.blocks := by
    simp only [append_nil]
    exact modify_id _ _
  rw [adds, hsame]

theorem adds_adds (b : Builder) (is js : List (Instr Reg)) :
    (b.adds is).adds js = b.adds (is ++ js) := by
  simp [adds, modify_modify_eq, Function.comp_def]

theorem getElem?_blocks_adds (h : b.blocks[l]? = some js) :
    (b.adds is).blocks[l]? = some (if l = b.current then js ++ is else js) := by
  by_cases hl : l = b.current
  · subst hl
    simp [adds, h]
  · simp [adds, h, hl, Ne.symm hl]

/-- The blocks after instructions were added. -/
theorem cases_adds (h : (b.adds is).blocks[l]? = some js) :
    l ≠ b.current ∧ b.blocks[l]? = some js ∨
      l = b.current ∧ ∃ old, b.blocks[l]? = some old ∧ js = old ++ is := by
  have hlt : l < b.blocks.length := by simpa using (List.getElem?_eq_some_iff.1 h).1
  have hold := getElem?_eq_getElem hlt
  rw [getElem?_blocks_adds hold] at h
  split at h
  · exact .inr ⟨‹_›, _, hold, (Option.some.inj h).symm⟩
  · exact .inl ⟨‹_›, hold.trans h⟩

theorem mem_blocks_adds (h : js ∈ (b.adds is).blocks) :
    js ∈ b.blocks ∨ ∃ old ∈ b.blocks, js = old ++ is := by
  obtain ⟨l, hl⟩ := getElem?_of_mem h
  rcases cases_adds hl with ⟨-, hl⟩ | ⟨-, old, hold, rfl⟩
  · exact .inl (mem_of_getElem? hl)
  · exact .inr ⟨old, mem_of_getElem? hold, rfl⟩

/-- The blocks after an empty one was added. -/
theorem cases_addBlock (h : b.addBlock.blocks[l]? = some js) :
    b.blocks[l]? = some js ∨ l = b.blocks.length ∧ js = [] := by
  simp only [addBlock, getElem?_append, getElem?_singleton] at h
  split at h
  · exact .inl h
  · split at h
    · exact .inr ⟨by grind, (Option.some.inj h).symm⟩
    · cases h

/-- **A builder whose blocks are whole but for some**, which have no terminator yet. Control goes
to blocks there are, and not back to the entry. -/
structure Whole (b : Builder) (U : List Label) : Prop where
  nonempty : 0 < b.blocks.length
  nodup : U.Nodup
  unfinished : ∀ l ∈ U, ∃ is, b.blocks[l]? = some is ∧ ∀ i ∈ is, i.isTerminator = false
  ended : ∀ (l : Label) is, b.blocks[l]? = some is → l ∉ U → Ended is
  target : ∀ is ∈ b.blocks, ∀ i ∈ is, ∀ l ∈ i.successors, l < b.blocks.length ∧ l ≠ entry

namespace Whole

variable {U U' : List Label} {i : Instr Reg}

theorem perm (h : b.Whole U) (hperm : U.Perm U') : b.Whole U' where
  nonempty := h.nonempty
  nodup := hperm.nodup_iff.1 h.nodup
  unfinished l hl := h.unfinished l (hperm.mem_iff.2 hl)
  ended l is hl hU := h.ended l is hl fun hmem => hU (hperm.mem_iff.1 hmem)
  target := h.target

theorem lt_length (h : b.Whole U) (hl : l ∈ U) : l < b.blocks.length :=
  let ⟨_, his, _⟩ := h.unfinished l hl
  (List.getElem?_eq_some_iff.1 his).1

theorem moveTo (h : b.Whole U) (l : Label) : (b.moveTo l).Whole U :=
  ⟨h.nonempty, h.nodup, h.unfinished, h.ended, h.target⟩

theorem addRegister (h : b.Whole U) (ty : Ty) (bound : List (Typed.LocalId × Reg)) :
    (b.addRegister ty bound).Whole U :=
  ⟨h.nonempty, h.nodup, h.unfinished, h.ended, h.target⟩

theorem addBlock (h : b.Whole U) : b.addBlock.Whole (b.blocks.length :: U) := by
  have hnew : b.blocks.length ∉ U := fun hmem => Nat.lt_irrefl _ (h.lt_length hmem)
  refine ⟨by simp, nodup_cons.2 ⟨hnew, h.nodup⟩, fun l hl => ?_, fun l is hl hU => ?_,
    fun is his i hi l hl => ?_⟩
  · rcases mem_cons.1 hl with rfl | hl
    · exact ⟨[], getElem?_blocks_addBlock_last, forall_mem_nil _⟩
    · obtain ⟨is, his, hopen⟩ := h.unfinished l hl
      exact ⟨is, (getElem?_blocks_addBlock (h.lt_length hl)).trans his, hopen⟩
  · obtain ⟨hne, hU⟩ := not_or.1 (mem_cons.not.1 hU)
    rcases cases_addBlock hl with hl | ⟨rfl, -⟩
    · exact h.ended l is hl hU
    · exact absurd rfl hne
  · rw [length_blocks_addBlock]
    rcases mem_append.1 his with his | his
    · have htarget := h.target is his i hi l hl
      exact ⟨Nat.lt_succ_of_lt htarget.1, htarget.2⟩
    · rw [mem_singleton.1 his] at hi
      exact nomatch hi

theorem target_adds (h : b.Whole U)
    (hi : ∀ i ∈ is, ∀ l ∈ i.successors, l < b.blocks.length ∧ l ≠ entry) :
    ∀ js ∈ (b.adds is).blocks, ∀ i ∈ js, ∀ l ∈ i.successors,
      l < (b.adds is).blocks.length ∧ l ≠ entry := by
  intro js hjs i hmem
  rw [length_blocks_adds]
  rcases mem_blocks_adds hjs with hjs | ⟨old, hold, rfl⟩
  · exact h.target js hjs i hmem
  · exact (mem_append.1 hmem).elim (h.target old hold i) (hi i)

/-- Instructions in the middle leave the block unfinished. -/
theorem adds (h : b.Whole (b.current :: U)) (hterm : ∀ i ∈ is, i.isTerminator = false) :
    (b.adds is).Whole (b.current :: U) := by
  refine ⟨by simpa using h.nonempty, h.nodup, fun l hl => ?_, fun l js hl hU => ?_,
    h.target_adds fun i hi l hl => ?_⟩
  · obtain ⟨old, hold, hopen⟩ := h.unfinished l hl
    refine ⟨_, getElem?_blocks_adds hold, fun i hi => ?_⟩
    split at hi
    · exact (mem_append.1 hi).elim (hopen i) (hterm i)
    · exact hopen i hi
  · rcases cases_adds hl with ⟨-, hl⟩ | ⟨rfl, -⟩
    · exact h.ended l js hl hU
    · exact absurd mem_cons_self hU
  · have := hterm i hi
    cases i <;> first | exact absurd hl not_mem_nil | cases this

/-- A terminator that goes to unfinished blocks finishes the block. -/
theorem finish (h : b.Whole (b.current :: U)) (hterm : i.isTerminator = true)
    (htarget : ∀ l ∈ i.successors, l ∈ U ∧ l ≠ entry) : (b.adds [i]).Whole U := by
  obtain ⟨hnew, hnodup⟩ := nodup_cons.1 h.nodup
  refine ⟨by simpa using h.nonempty, hnodup, fun l hl => ?_, fun l js hl hU => ?_,
    h.target_adds (forall_mem_singleton.2 fun l hl => ?_)⟩
  · obtain ⟨old, hold, hopen⟩ := h.unfinished l (mem_cons_of_mem _ hl)
    have hlc : l ≠ b.current := by
      rintro rfl
      exact hnew hl
    exact ⟨old, by rw [getElem?_blocks_adds hold, if_neg hlc], hopen⟩
  · rcases cases_adds hl with ⟨hlc, hl⟩ | ⟨rfl, old, hold, rfl⟩
    · exact h.ended l js hl fun hmem => (mem_cons.1 hmem).elim hlc hU
    · obtain ⟨is, his, hopen⟩ := h.unfinished b.current mem_cons_self
      cases hold.symm.trans his
      exact ⟨old, i, rfl, hterm, hopen⟩
  · exact ⟨h.lt_length (mem_cons_of_mem _ (htarget l hl).1), (htarget l hl).2⟩

end Whole

end Builder

/-! ## Steps of a builder -/

/-- **What a step of a builder ensures**, if it succeeds. -/
def Ensures {α : Type} (P : Builder → Prop) (x : Build α) (Q : α → Builder → Prop) : Prop :=
  ∀ b a b', P b → x b = .ok (a, b') → Q a b'

namespace Ensures

variable {α β : Type} {P : Builder → Prop} {Q : α → Builder → Prop} {R : β → Builder → Prop}
  {x : Build α} {f : α → Build β}

theorem pure (h : ∀ b, P b → Q a b) : Ensures P (pure a) Q := by
  rintro b _ _ hb ⟨⟩
  exact h b hb

theorem bind (hx : Ensures P x Q) (hf : ∀ a, Ensures (Q a) (f a) R) : Ensures P (x >>= f) R := by
  intro b c b' hb h
  obtain ⟨a, b1, hrun, h⟩ := run_bind_eq_ok h
  exact hf a b1 c b' (hx b a b1 hb hrun) h

theorem mono (hx : Ensures P x Q) (h : ∀ a b, Q a b → Q' a b) : Ensures P x Q' :=
  fun b a b' hb hrun => h a b' (hx b a b' hb hrun)

end Ensures

/-! ## Functions -/

/-- **A function in order that uses no slots, and whose entry is entered once.** -/
structure Function.Plain (f : Function Reg) : Prop where
  wellFormed : f.WellFormed
  params_lt : ∀ r ∈ f.params, r < f.registers.length
  slots : ∀ i ∈ f.instructions, i.slot? = none
  enters_once : ∀ l, entry ∉ f.successors l

/-- Whole blocks make up a function in order. -/
theorem plain_of_whole {b : Builder} {f : Function Reg} (hb : b.Whole [])
    (hblocks : f.blocks.map (·.instrs) = b.blocks)
    (hparams : ∀ r ∈ f.params, r < f.registers.length)
    (hinstrs : ∀ c ∈ f.blocks, ∀ i ∈ c.instrs,
      (∀ r, i.Mentions r → r < f.registers.length) ∧ i.slot? = none) : f.Plain := by
  have hlen : f.blocks.length = b.blocks.length := by rw [← hblocks, length_map]
  have hended : ∀ c ∈ f.blocks, Ended c.instrs := by
    intro c hc
    obtain ⟨l, hl⟩ := getElem?_of_mem hc
    refine hb.ended l c.instrs ?_ not_mem_nil
    rw [← hblocks, getElem?_map, hl]
    rfl
  have htarget : ∀ c ∈ f.blocks, ∀ l ∈ c.successors, l < f.blocks.length ∧ l ≠ entry := by
    intro c hc l hl
    obtain ⟨body, last, heq, hlast, -⟩ := hended c hc
    rw [c.successors_eq heq hlast] at hl
    rw [hlen]
    exact hb.target c.instrs (hblocks ▸ mem_map_of_mem hc) last
      (heq ▸ mem_append_right _ mem_cons_self) l hl
  refine ⟨⟨hlen ▸ hb.nonempty, hended, fun c hc l hl => (htarget c hc l hl).1,
    fun c hc i hi => (hinstrs c hc i hi).1⟩, hparams, fun i hi => ?_, fun l hl => ?_⟩
  · obtain ⟨c, hc, hi⟩ := mem_flatMap.1 hi
    exact (hinstrs c hc i hi).2
  · rw [Function.successors] at hl
    cases hc : f.blocks[l]? with
    | none => simp [hc] at hl
    | some c => exact (htarget c (mem_of_getElem? hc) entry (by simpa [hc] using hl)).2 rfl

/-- A lowered function is what was built for its body. -/
theorem exists_buildBody_of_lower (h : lower g decisions = .ok f) :
    ∃ b, buildBody g decisions {} = .ok (f.params, b) ∧ f.blocks.map (·.instrs) = b.blocks ∧
      f.registers = b.registers ∧ f.Current ∧ f.name = g.name := by
  obtain ⟨⟨params, b⟩, hrun, h⟩ := except_bind_eq_ok.1 h
  dsimp only at h
  split at h
  · cases h
  · cases h
    refine ⟨b, hrun, ext_getElem? fun l => ?_, rfl, current_withPredecessors _, rfl⟩
    rw [getElem?_map, instrs_withPredecessors]
    simp [Function.comp_def]

end Sluice.Flow
