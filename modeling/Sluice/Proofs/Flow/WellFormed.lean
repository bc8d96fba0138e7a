import Mathlib.Data.Fintype.EquivFin
import Mathlib.Data.List.Basic
import Mathlib.Tactic.Common
import Sluice.Flow.Verify
import Sluice.Proofs.IdSet

/-!
# Functions in order

What `verify` asks for, apart from the order in which it looks for it. The part
that is about single blocks is `WellFormed`: it is all that analyses and runs
rely on. Predecessor sets that are up to date and a return that can be reached
depend on edges only, so a function with the same edges has them too
(`verify_of_outline_eq`). A function without cycles always reaches a return
(`reachesReturn_of_ends`).
-/

namespace Sluice.Flow

open List

variable {ρ : Type} {f : Function Reg} {l : Label} {is : List (Instr ρ)} {b : Block ρ}

/-! ## Blocks -/

/-- An instruction reads or writes a register. -/
def Instr.Mentions (i : Instr ρ) (r : ρ) : Prop := i.def? = some r ∨ r ∈ i.uses

/-- **Instructions make up a whole block:** the last one ends it, and no other does. -/
def Ended (is : List (Instr ρ)) : Prop :=
  ∃ body last, is = body ++ [last] ∧ last.isTerminator = true ∧
    ∀ i ∈ body, i.isTerminator = false

theorem Ended.ne_nil (h : Ended is) : is ≠ [] := by
  obtain ⟨body, last, rfl, -⟩ := h
  simp

/-- A terminator is the last instruction. -/
theorem Ended.eq_nil_of_append {i : Instr ρ} (h : Ended (before ++ i :: rest))
    (hi : i.isTerminator = true) : rest = [] := by
  obtain ⟨body, last, heq, -, hbody⟩ := h
  rcases eq_nil_or_concat rest with hrest | ⟨rest, k, rfl⟩
  · exact hrest
  · rw [concat_eq_append, ← cons_append, ← append_assoc] at heq
    have hbefore := append_inj_left' heq rfl
    have hmem : i ∈ body := hbefore ▸ mem_append_right _ mem_cons_self
    rw [hbody i hmem] at hi
    cases hi

theorem Block.successors_eq (h : b.instrs = body ++ [last])
    (hlast : last.isTerminator = true) : b.successors = last.successors := by
  simp [successors, terminator?, h, Option.filter, hlast]

theorem Block.returns_eq (h : b.instrs = body ++ [last]) : b.returns = last.isRet := by
  simp [returns, h]

/-- A whole block that goes nowhere returns. -/
theorem Ended.returns_or_successors (h : Ended b.instrs) :
    b.returns = true ∨ ∃ l, l ∈ b.successors := by
  obtain ⟨body, last, heq, hlast, -⟩ := h
  rw [b.returns_eq heq, b.successors_eq heq hlast]
  cases last with
  | jump target => exact .inr ⟨target, mem_cons_self⟩
  | branch _ positive _ => exact .inr ⟨positive, mem_cons_self⟩
  | ret _ => exact .inl rfl
  | _ => cases hlast

/-! ## Functions -/

/-- **A function in order:** control enters it, its blocks are whole and go to blocks of the
function, and its instructions mention its own registers. -/
structure Function.WellFormed (f : Function Reg) : Prop where
  nonempty : 0 < f.blocks.length
  ended : ∀ b ∈ f.blocks, Ended b.instrs
  target_lt : ∀ b ∈ f.blocks, ∀ l ∈ b.successors, l < f.blocks.length
  known : ∀ b ∈ f.blocks, ∀ i ∈ b.instrs, ∀ r, i.Mentions r → r < f.registers.length

/-- The predecessor set of every block is up to date. -/
def Function.Current (f : Function Reg) : Prop :=
  ∀ (l : Label) b, f.blocks[l]? = some b → b.preds = f.predecessors l

theorem unknownRegister?_eq_none {count i} :
    unknownRegister? count i = none ↔ ∀ r, i.Mentions r → r < count := by
  simp only [unknownRegister?, find?_eq_none, mem_append, Option.mem_toList,
    decide_eq_true_eq, Nat.not_le, Instr.Mentions]

/-- A block without fault is whole, and knows its targets and registers. -/
theorem blockFault?_eq_none {b} :
    blockFault? f l b = none ↔ Ended b.instrs ∧ (∀ k ∈ b.successors, k < f.blocks.length) ∧
      ∀ i ∈ b.instrs, ∀ r, i.Mentions r → r < f.registers.length := by
  unfold blockFault?
  split
  · rename_i hlast
    rw [getLast?_eq_none_iff] at hlast
    simp only [reduceCtorEq, false_iff, not_and]
    exact fun h => absurd hlast h.ne_nil
  · rename_i last hlast
    obtain ⟨body, heq⟩ := getLast?_eq_some_iff.1 hlast
    have hended : Ended b.instrs ↔
        last.isTerminator = true ∧ b.instrs.dropLast.any Instr.isTerminator = false := by
      simp only [heq, dropLast_concat, any_eq_false, Bool.not_eq_true]
      constructor
      · rintro ⟨body', last', heq', hlast', hbody'⟩
        obtain ⟨rfl, hsingle⟩ := append_inj' heq' rfl
        exact ⟨singleton_inj.1 hsingle ▸ hlast', hbody'⟩
      · exact fun ⟨hlast, hbody⟩ => ⟨body, last, rfl, hlast, hbody⟩
    have hknown : (b.instrs.findSome? (unknownRegister? f.registers.length)).map
          Fault.unknownRegister = none ↔
        ∀ i ∈ b.instrs, ∀ r, i.Mentions r → r < f.registers.length := by
      simp only [Option.map_eq_none_iff, findSome?_eq_none_iff, unknownRegister?_eq_none]
    rw [hended]
    by_cases hterm : last.isTerminator = true
    · rw [b.successors_eq heq hterm]
      by_cases hany : b.instrs.dropLast.any Instr.isTerminator = true
      · simp [hterm, hany]
      · have hany' : b.instrs.dropLast.any Instr.isTerminator = false := by simpa using hany
        simp only [hterm, hany', Bool.not_true, Bool.false_eq_true, if_false, true_and]
        split
        · rename_i target hfind
          have hle : f.blocks.length ≤ target := by simpa using find?_some hfind
          simp only [reduceCtorEq, false_iff, not_and]
          intro htargets
          exact absurd (htargets target (mem_of_find?_eq_some hfind)) (Nat.not_lt.2 hle)
        · rename_i hfind
          have htargets : ∀ k ∈ last.successors, k < f.blocks.length := by
            simpa using hfind
          rw [hknown]
          exact ⟨fun h => ⟨htargets, h⟩, fun h => h.2⟩
    · simp [hterm]

theorem firstFault?_eq_none {fault? : Label → Block Reg → Option Fault} :
    firstFault? f fault? = none ↔ ∀ l b, f.blocks[l]? = some b → fault? l b = none := by
  simp only [firstFault?, findSome?_eq_none_iff, Prod.forall]
  constructor
  · exact fun h l b hb => h b l (mem_zipIdx_iff_getElem?.2 hb)
  · exact fun h b l hb => h l b (mem_zipIdx_iff_getElem?.1 hb)

theorem wellFormed_iff :
    f.WellFormed ↔ firstFault? f (blockFault? f) = none ∧ 0 < f.blocks.length := by
  simp only [firstFault?_eq_none, blockFault?_eq_none]
  constructor
  · intro h
    refine ⟨fun l b hl => ?_, h.nonempty⟩
    have hb := mem_of_getElem? hl
    exact ⟨h.ended b hb, h.target_lt b hb, h.known b hb⟩
  · rintro ⟨h, hpos⟩
    have hmem : ∀ b ∈ f.blocks, _ := fun b hb =>
      let ⟨l, hl⟩ := getElem?_of_mem hb
      h l b hl
    exact ⟨hpos, fun b hb => (hmem b hb).1, fun b hb => (hmem b hb).2.1,
      fun b hb => (hmem b hb).2.2⟩

/-- What `verify` asks for. -/
theorem verify_eq_ok : verify f = .ok () ↔ f.WellFormed ∧ f.Current ∧ reachesReturn f = true := by
  have hstale : firstFault? f (staleFault? f) = none ↔ f.Current := by
    simp only [firstFault?_eq_none, staleFault?, Function.Current]
    simp
  rw [wellFormed_iff, ← hstale, verify]
  by_cases hempty : f.blocks.isEmpty = true
  · simp [List.isEmpty_iff.1 hempty]
  · have hpos : 0 < f.blocks.length := by
      rw [length_pos_iff]
      simpa using hempty
    rw [if_neg hempty]
    cases firstFault? f (blockFault? f) with
    | some fault => simp
    | none =>
      cases firstFault? f (staleFault? f) with
      | some fault => simp
      | none => cases reachesReturn f <;> simp [hpos]

theorem wellFormed_of_verify (h : verify f = .ok ()) : f.WellFormed :=
  (verify_eq_ok.1 h).1

/-! ## Edges -/

/-- All that other blocks and callers see of a block: where it goes, whether it returns, and its
predecessor set. -/
def Block.outline (b : Block ρ) : List Label × Bool × IdSet :=
  (b.successors, b.returns, b.preds)

variable {σ : Type} {f : Function ρ} {g : Function σ} {k : Label}

theorem outline_eq (h : f.blocks.map Block.outline = g.blocks.map Block.outline) (l : Label) :
    f.blocks[l]?.map Block.outline = g.blocks[l]?.map Block.outline := by
  rw [← getElem?_map, h, getElem?_map]

theorem successors_of_outline_eq (h : f.blocks.map Block.outline = g.blocks.map Block.outline)
    (l : Label) : f.successors l = g.successors l := by
  have hl := outline_eq h l
  unfold Function.successors
  cases hf : f.blocks[l]? <;> cases hg : g.blocks[l]? <;>
    simp_all [Block.outline]

theorem lt_of_mem_successors (h : l ∈ f.successors k) : k < f.blocks.length := by
  unfold Function.successors at h
  cases hb : f.blocks[k]? with
  | none => simp [hb] at h
  | some b => exact (List.getElem?_eq_some_iff.1 hb).1

/-- The blocks with an edge to a block are found from the successors of all blocks. -/
theorem mem_predecessors : k ∈ f.predecessors l ↔ l ∈ f.successors k := by
  simp only [Function.predecessors, IdSet.mem_ofList, mem_map, mem_filter, Prod.exists,
    mem_zipIdx_iff_getElem?, contains_iff_mem, exists_eq_right, Function.successors]
  cases f.blocks[k]? <;> simp

theorem predecessors_congr (h : ∀ l, f.successors l = g.successors l) (l : Label) :
    f.predecessors l = g.predecessors l :=
  IdSet.ext fun k => by rw [mem_predecessors, mem_predecessors, h]

theorem spreadAll_congr (h : ∀ l, f.successors l = g.successors l) :
    ∀ rounds s, f.spreadAll rounds s = g.spreadAll rounds s := by
  have hspread : ∀ s, f.spread s = g.spread s := by
    intro s
    simp only [Function.spread, funext h]
  intro rounds
  induction rounds with
  | zero => exact fun _ => rfl
  | succ rounds ih =>
    intro s
    simp only [Function.spreadAll, hspread, ih]

theorem getElem?_withPredecessors (f : Function ρ) (l : Label) :
    f.withPredecessors.blocks[l]? =
      f.blocks[l]?.map fun b => { b with preds := f.predecessors l } := by
  simp only [Function.withPredecessors, getElem?_map, getElem?_zipIdx, Option.map_map]
  cases f.blocks[l]? <;> simp

theorem successors_withPredecessors (f : Function ρ) (l : Label) :
    f.withPredecessors.successors l = f.successors l := by
  rw [Function.successors, Function.successors, getElem?_withPredecessors]
  cases f.blocks[l]? <;> rfl

/-- Predecessor sets are up to date once they have been brought up to date. -/
theorem current_withPredecessors (f : Function Reg) : f.withPredecessors.Current := by
  intro l c hc
  rw [getElem?_withPredecessors] at hc
  obtain ⟨b, -, rfl⟩ := Option.map_eq_some_iff.1 hc
  exact (predecessors_congr (successors_withPredecessors f) l).symm

/-- **A function in order with the edges of one that passes is accepted too.** -/
theorem verify_of_outline_eq {f g} (hf : verify f = .ok ()) (hg : g.WellFormed)
    (h : f.blocks.map Block.outline = g.blocks.map Block.outline) : verify g = .ok () := by
  obtain ⟨-, hcurrent, hreturn⟩ := verify_eq_ok.1 hf
  have hsucc := successors_of_outline_eq h
  have hlen : f.blocks.length = g.blocks.length := by simpa using congrArg List.length h
  have hget : ∀ (l : Label) c, g.blocks[l]? = some c →
      ∃ b, f.blocks[l]? = some b ∧ b.outline = c.outline := by
    intro l c hc
    simpa [hc] using outline_eq h l
  refine verify_eq_ok.2 ⟨hg, fun l c hc => ?_, ?_⟩
  · obtain ⟨b, hb, houtline⟩ := hget l c hc
    have hpreds : b.preds = c.preds := congrArg (·.2.2) houtline
    rw [← hpreds, hcurrent l b hb, predecessors_congr hsucc]
  · have hreach : f.reachable = g.reachable := by
      rw [Function.reachable, Function.reachable, hlen, spreadAll_congr hsucc]
    obtain ⟨l, hl, hany⟩ := any_eq_true.1 hreturn
    refine any_eq_true.2 ⟨l, hreach ▸ hl, ?_⟩
    have hl := outline_eq h l
    cases hb : f.blocks[l]? <;> cases hc : g.blocks[l]? <;> simp_all [Block.outline]

/-! ## Reachable blocks -/

theorem mem_spread : l ∈ f.spread s ↔ l ∈ s ∨ ∃ k ∈ s, l ∈ f.successors k := by
  simp [Function.spread, IdSet.mem_def (s := s)]

theorem subset_spreadAll : ∀ rounds s, ∀ l ∈ s, l ∈ f.spreadAll rounds s := by
  intro rounds
  induction rounds with
  | zero => exact fun _ _ h => h
  | succ rounds ih =>
    intro s l hl
    simp only [Function.spreadAll]
    split
    · exact hl
    · exact ih _ l (mem_spread.2 (.inl hl))

/-- Enough rounds close a set of blocks under successors: every round but the last adds one of `n`
blocks. -/
theorem spreadAll_closed {n : Nat} (hn : ∀ k, ∀ l ∈ f.successors k, l < n) :
    ∀ rounds s, (∀ l ∈ s, l < n) → n < s.size + rounds →
      ∀ k ∈ f.spreadAll rounds s, ∀ l ∈ f.successors k, l ∈ f.spreadAll rounds s := by
  intro rounds
  induction rounds with
  | zero =>
    intro s hs hsize
    exact absurd (IdSet.size_le_of_lt hs) (by omega)
  | succ rounds ih =>
    intro s hs hsize
    simp only [Function.spreadAll]
    split
    · rename_i hstable
      intro k hk l hl
      rw [← hstable]
      exact mem_spread.2 (.inr ⟨k, hk, hl⟩)
    · rename_i hgrows
      have hlt := IdSet.size_lt_size (fun l hl => mem_spread.2 (.inl hl)) (Ne.symm hgrows)
      refine ih (f.spread s) (fun l hl => ?_) (by omega)
      rcases mem_spread.1 hl with hl | ⟨k, -, hl⟩
      · exact hs l hl
      · exact hn k l hl

/-- Spreading a set adds only what edges lead to. -/
theorem spreadAll_induction {P : Label → Prop} (hP : ∀ k l, P k → l ∈ f.successors k → P l) :
    ∀ rounds s, (∀ l ∈ s, P l) → ∀ l ∈ f.spreadAll rounds s, P l := by
  intro rounds
  induction rounds with
  | zero => exact fun _ h => h
  | succ rounds ih =>
    intro s hs
    simp only [Function.spreadAll]
    split
    · exact hs
    · refine ih _ fun l hl => ?_
      rcases mem_spread.1 hl with hl | ⟨k, hk, hl⟩
      · exact hs l hl
      · exact hP k l (hs k hk) hl

/-- Control can go from a block to another. -/
def Function.Leads (g : Function Reg) (k l : Label) : Prop := l ∈ g.successors k

namespace Function.WellFormed

variable {f : Function Reg}

theorem successor_lt (hf : f.WellFormed) (h : l ∈ f.successors k) : l < f.blocks.length := by
  unfold Function.successors at h
  cases hb : f.blocks[k]? with
  | none => simp [hb] at h
  | some b => exact hf.target_lt b (mem_of_getElem? hb) l (by simpa [hb] using h)

theorem exists_entry (hf : f.WellFormed) : ∃ b, f.blocks[entry]? = some b :=
  ⟨_, getElem?_eq_getElem hf.nonempty⟩

theorem entry_mem_reachable : entry ∈ f.reachable :=
  subset_spreadAll _ _ entry (by simp)

theorem reachable_closed (hf : f.WellFormed) (hk : k ∈ f.reachable) (hl : l ∈ f.successors k) :
    l ∈ f.reachable := by
  refine spreadAll_closed (fun k l hl => hf.successor_lt hl) _ _ ?_ (by omega) k hk l hl
  have hpos := hf.nonempty
  simpa [entry] using hpos

/-- **The blocks that control reaches are those that edges lead to from the entry.** -/
theorem mem_reachable (hf : f.WellFormed) :
    l ∈ f.reachable ↔ Relation.ReflTransGen f.Leads entry l := by
  constructor
  · refine spreadAll_induction (fun k l hk hl => hk.tail hl) _ _ (fun l hl => ?_) l
    rw [mem_singleton.1 (IdSet.mem_ofList.1 hl)]
  · intro h
    induction h with
    | refl => exact entry_mem_reachable
    | tail _ hl ih => exact hf.reachable_closed ih hl

end Function.WellFormed

/-! ## What is accepted -/

section

variable {f : Function Reg}

/-- Whether one of some blocks returns. There is no answer if it comes to a block that does not
exist. -/
def Function.anyReturns? (f : Function Reg) : List Label → Option Bool
  | [] => some false
  | l :: rest =>
    f.blocks[l]?.bind fun b => if b.returns then some true else f.anyReturns? rest

/-- `verify` as long as every block that it looks at exists. -/
def verifyStrictly? (f : Function Reg) : Option (Except Fault Unit) :=
  if f.blocks.isEmpty then
    some (.error .noBlocks)
  else
    match (firstFault? f (blockFault? f)).or (firstFault? f (staleFault? f)) with
    | some fault => some (.error fault)
    | none =>
      (f.anyReturns? f.reachable.toList).map fun returns =>
        if returns then .ok () else .error .noReachableReturn

theorem anyReturns?_eq_some (h : ∀ l ∈ ls, l < f.blocks.length) :
    f.anyReturns? ls = some (ls.any fun l => f.blocks[l]?.any Block.returns) := by
  induction ls with
  | nil => rfl
  | cons l rest ih =>
    obtain ⟨hl, hrest⟩ := forall_mem_cons.1 h
    rw [Function.anyReturns?, ih hrest, any_cons, getElem?_eq_getElem hl]
    cases hb : f.blocks[l].returns <;> simp [hb]

/-- Where all blocks are in order, only blocks that exist are reached. -/
theorem Function.WellFormed.anyReturns?_eq (hf : f.WellFormed) :
    f.anyReturns? f.reachable.toList = some (reachesReturn f) := by
  refine anyReturns?_eq_some fun l hl => ?_
  cases hf.mem_reachable.1 hl with
  | refl => exact hf.nonempty
  | tail _ hl => exact hf.successor_lt hl

/-- **What `verify` accepts.** It accepts a function if and only if the function is in order, its
predecessor sets are those of its edges, and a block that returns can be reached from the entry. It
looks at no block that does not exist, whatever function it is given. -/
theorem verify_iff_wellFormed (f : Function Reg) :
    verifyStrictly? f = some (verify f) ∧
    (verify f = .ok () ↔ f.WellFormed ∧
      (∀ (l : Label) b, f.blocks[l]? = some b → ∀ k, k ∈ b.preds ↔ l ∈ f.successors k) ∧
      ∃ (l : Label) (b : Block Reg), Relation.ReflTransGen f.Leads entry l ∧
        f.blocks[l]? = some b ∧ b.returns = true) := by
  constructor
  · unfold verifyStrictly? verify
    split
    · rfl
    · rename_i hne
      have hpos : 0 < f.blocks.length := by
        rw [length_pos_iff]
        simpa using hne
      cases hblock : firstFault? f (blockFault? f) with
      | some fault => rfl
      | none =>
        cases hstale : firstFault? f (staleFault? f) with
        | some fault => rfl
        | none =>
          -- no fault so far, so every target exists
          simp only [Option.or_none, (wellFormed_iff.2 ⟨hblock, hpos⟩).anyReturns?_eq]
          cases reachesReturn f <;> rfl
  · rw [verify_eq_ok]
    refine and_congr_right fun hf => and_congr ?_ ?_
    · refine forall_congr' fun l => forall_congr' fun b => imp_congr_right fun _ => ?_
      rw [IdSet.ext_iff]
      simp only [mem_predecessors]
    · simp only [reachesReturn, any_eq_true, ← IdSet.mem_def, hf.mem_reachable, Option.any_eq_true]
      simp only [exists_and_left]

end

/-! ## Functions without cycles -/

/-- Every way on from a block comes to an end. -/
abbrev Function.Ends (f : Function ρ) (l : Label) : Prop :=
  Acc (fun k l => k ∈ f.successors l) l

/-- Fewer edges end all the more. -/
theorem Function.Ends.mono (h : ∀ k l, l ∈ g.successors k → l ∈ f.successors k) (hl : f.Ends l) :
    g.Ends l := by
  induction hl with
  | intro l _ ih => exact .intro l fun k hk => ih k (h l k hk)

/-- If no way comes back to a block, every way ends: there are only so many blocks. -/
theorem Function.WellFormed.ends_of_acyclic {f : Function Reg} (hf : f.WellFormed)
    (hacyclic : ∀ l, ¬ Relation.TransGen f.Leads l l) (hl : l < f.blocks.length) : f.Ends l := by
  let Before (k l : Fin f.blocks.length) : Prop := Relation.TransGen f.Leads l k
  have : Std.Irrefl Before := ⟨fun l => hacyclic l⟩
  have hwf := Finite.wellFounded_of_trans_of_irrefl Before
  suffices hall : ∀ l : Fin f.blocks.length, f.Ends l from hall ⟨l, hl⟩
  intro l
  induction l using hwf.induction with
  | _ l ih => exact .intro _ fun k hk => ih ⟨k, hf.successor_lt hk⟩ (.single hk)

/-- **If every way from the entry ends, one of them returns.** -/
theorem reachesReturn_of_ends {f} (hf : f.WellFormed) (hends : f.Ends entry) :
    reachesReturn f = true := by
  -- follow any edge from a reached block until a block goes nowhere
  suffices hall : ∀ l, f.Ends l → l ∈ f.reachable → l < f.blocks.length →
      ∃ k ∈ f.reachable, f.blocks[k]?.any Block.returns = true by
    obtain ⟨k, hk, hany⟩ :=
      hall entry hends Function.WellFormed.entry_mem_reachable hf.nonempty
    exact any_eq_true.2 ⟨k, hk, hany⟩
  intro l hl
  induction hl with
  | intro l _ ih =>
    intro hreach hlt
    have hb := getElem?_eq_getElem hlt
    rcases (hf.ended _ (getElem_mem hlt)).returns_or_successors with hret | ⟨k, hk⟩
    · exact ⟨l, hreach, by simpa [hb] using hret⟩
    · have hk' : k ∈ f.successors l := by simpa [Function.successors, hb] using hk
      exact ih k hk' (hf.reachable_closed hreach hk') (hf.successor_lt hk')

/-! ## What is left of a block -/

/-- **Some instructions are what is left of a block.** -/
def Function.At (f : Function ρ) (l : Label) (is : List (Instr ρ)) : Prop :=
  ∃ b before, f.blocks[l]? = some b ∧ b.instrs = before ++ is

namespace Function.At

theorem start (hb : f.blocks[l]? = some b) : f.At l b.instrs :=
  ⟨b, [], hb, rfl⟩

theorem next (h : f.At l (i :: is)) : f.At l is := by
  obtain ⟨b, before, hb, heq⟩ := h
  exact ⟨b, before ++ [i], hb, by simp [heq]⟩

theorem mem_instructions (h : f.At l is) (hi : i ∈ is) : i ∈ f.instructions := by
  obtain ⟨b, before, hb, heq⟩ := h
  exact mem_flatMap.2
    ⟨b, mem_of_getElem? hb, heq ▸ mem_append_right _ hi⟩

variable {f : Function Reg} {l : Label} {i : Instr Reg} {is : List (Instr Reg)}

/-- The instruction that ends a block is the last one, and goes where the block goes. -/
theorem last (h : f.At l (i :: is)) (hf : f.WellFormed) (hi : i.isTerminator = true) :
    is = [] ∧ f.successors l = i.successors := by
  obtain ⟨b, before, hb, heq⟩ := h
  have hended := hf.ended b (mem_of_getElem? hb)
  rw [heq] at hended
  have hnil := hended.eq_nil_of_append hi
  rw [hnil] at heq
  refine ⟨hnil, ?_⟩
  simp [Function.successors, hb, b.successors_eq heq hi]

theorem known (h : f.At l (i :: is)) (hf : f.WellFormed) (hr : i.Mentions r) :
    r < f.registers.length := by
  obtain ⟨b, before, hb, heq⟩ := h
  exact hf.known b (mem_of_getElem? hb) i
    (heq ▸ mem_append_right _ mem_cons_self) r hr

end Function.At

end Sluice.Flow
