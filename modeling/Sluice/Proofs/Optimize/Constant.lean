import Sluice.Optimize
import Sluice.Proofs.Machine.Recast
import Sluice.Proofs.Optimize.Improves
import Sluice.Proofs.Sorted

/-!
# Constants in place of registers

Propagation is right because a register that is written once, by a move of a
constant, holds that constant wherever it is live: on the way from the entry, where
only parameters are live, the write must have happened (`keeps_constants`). Folding
is right in any state (`step_fold`). Both change instructions where they stand.
-/

namespace Sluice

open List

/-! ## Operators -/

namespace BinaryOp

/-- A defined quotient or remainder is the exact one, up to a multiple of `2 ^ 64`. -/
theorem quotient_of_divide? (hf : .ofInt (F a.toInt b.toInt) = f a b) (h : divide? f a b = some c) :
    quotient F a b = some (.lit c) := by
  unfold divide? at h
  split at h
  · cases h
  · rename_i hdef
    have hdef' : ¬(b.toInt = 0 ∨ a.toInt = -2 ^ 63 ∧ b.toInt = -1) := by
      intro hzero
      refine hdef (hzero.imp (fun hb => Int64.toInt_inj.1 hb) fun ⟨ha, hb⟩ => ⟨?_, ?_⟩)
      · exact Int64.toInt_inj.1 (ha.trans Int64.toInt_minValue.symm)
      · exact Int64.toInt_inj.1 hb
    cases h
    rw [quotient, if_neg hdef', hf]

theorem apply_of_evalInt? {op : BinaryOp} (h : op.evalInt? a b = some c) :
    op.apply (.lit (.int a)) (.lit (.int b)) = some (.lit c) := by
  cases op with
  | div =>
    have hdiv : .ofInt (a.toInt.tdiv b.toInt) = a / b := by
      rw [Int64.ofInt_eq_iff_bmod_eq_toInt, Int64.toInt_div]
    exact quotient_of_divide? hdiv h
  | mod =>
    have hmod : .ofInt (a.toInt.tmod b.toInt) = a % b := by
      rw [← Int64.toInt_mod, Int64.ofInt_toInt]
    exact quotient_of_divide? hmod h
  | and | or => cases h
  | _ =>
    cases h
    simp [apply, Int64.ofInt_add, Int64.ofInt_sub, Int64.ofInt_mul, Int64.lt_iff_toInt_lt,
      Int64.le_iff_toInt_le]

theorem apply_of_evalBool? {op : BinaryOp} (h : op.evalBool? a b = some c) :
    op.apply (.lit (.bool a)) (.lit (.bool b)) = some (.lit c) := by
  cases op with
  | and | or => cases h; rfl
  | eq | ne => cases h; revert a b; decide
  | _ => cases h

theorem apply_of_evalSame? {op : BinaryOp} (hsame : same = decide (a = b))
    (h : op.evalSame? same = some c) : op.apply (.lit a) (.lit b) = some (.lit c) := by
  cases op with
  | eq | ne =>
    cases h
    simp [apply, hsame]
  | _ => cases h

/-- **An operator that is computed gives what it gives when it runs.** -/
theorem apply_of_eval? {op : BinaryOp} (h : op.eval? a b = some c) :
    op.apply (.lit a) (.lit b) = some (.lit c) := by
  cases a <;> cases b
  case int.int => exact apply_of_evalInt? h
  case bool.bool => exact apply_of_evalBool? h
  case str.str =>
    refine apply_of_evalSame? ?_ h
    simp [Bool.beq_eq_decide_eq]
  case unit.unit => exact apply_of_evalSame? (by simp) h
  all_goals cases h

end BinaryOp

theorem UnaryOp.apply_of_eval? {op : UnaryOp} (h : op.eval? a = some b) :
    op.apply (.lit a) = .lit b := by
  unfold eval? at h
  split at h
  · cases h
    rfl
  · cases h
    simp [apply, Int64.ofInt_neg]
  · cases h

namespace Flow

open Machine

variable {f : Function Reg} {i : Instr Reg} {calls : Calls}

/-! ## Blocks changed instruction by instruction -/

theorem recast_mapBlocks (φ : Instr Reg → Instr Reg)
    (hE : ∀ i ∈ f.instructions, E i (φ i)) : Function.Recast E f (f.mapBlocks (·.map φ)) where
  name := rfl
  params := rfl
  registers := rfl
  blocks := forall₂_map_right_iff.2 (forall₂_same.2 fun _ hb =>
    forall₂_map_right_iff.2 (forall₂_same.2 fun i hi =>
      hE i (mem_flatMap.2 ⟨_, hb, hi⟩)))

/-- Blocks that go where they went keep their predecessors. -/
theorem current_mapBlocks (hsucc : ∀ k l, l ∈ (f.mapBlocks φ).successors k ↔ l ∈ f.successors k)
    (hf : f.Current) : (f.mapBlocks φ).Current := by
  intro l c hc
  simp only [Function.mapBlocks, getElem?_map] at hc
  obtain ⟨b, hb, rfl⟩ := Option.map_eq_some_iff.1 hc
  have hpreds : f.predecessors l = (f.mapBlocks φ).predecessors l :=
    IdSet.ext fun k => by rw [mem_predecessors, mem_predecessors, hsucc]
  exact (hf l b hb).trans hpreds

/-- A function with narrower instructions has the frame of the first, if its predecessor sets are
up to date. -/
theorem Function.Recast.reframes (h : Recast E f g) (hE : ∀ i j, E i j → j.Narrows i)
    (hf : f.WellFormed) (hcurrent : f.Current → g.Current) : g.Reframes f where
  name := h.name
  params := h.params
  registers := h.registers
  length := h.blocks.length_eq.symm
  wellFormed := h.wellFormed hE hf
  current := hcurrent
  successors _ _ := h.successors_subset hE hf

/-! ## Propagation -/

/-- Other operands for registers do not change what an instruction asks for, as long as they read
no other register. -/
theorem Instr.narrows_mapOperands (hφ : ∀ o, ∀ r ∈ (φ o).reg?.toList, r ∈ o.reg?.toList)
    (i : Instr Reg) : (i.mapOperands φ).Narrows i where
  isTerminator_eq := by cases i <;> rfl
  def_eq := by cases i <;> rfl
  uses_subset := by
    intro r hr
    cases i with
    | move _ o | unary _ _ o | branch o _ _ | ret o => exact hφ o r hr
    | binary _ _ lhs rhs =>
      exact mem_append.2 ((mem_append.1 hr).imp (hφ lhs r) (hφ rhs r))
    | call _ callee args =>
      refine mem_append.2 ((mem_append.1 hr).imp_right fun hr => ?_)
      obtain ⟨o, ho, hr⟩ := mem_filterMap.1 hr
      obtain ⟨o, ho', rfl⟩ := mem_map.1 ho
      have hr := hφ o r (Option.mem_toList.2 hr)
      exact mem_filterMap.2 ⟨o, ho', Option.mem_toList.1 hr⟩
    | store object _ value =>
      exact mem_cons.2 ((mem_cons.1 hr).imp_right (hφ value r))
    | _ => exact hr
  successors_subset := by cases i <;> exact fun _ h => h
  slot_eq := by cases i <;> rfl

/-- Operands with the same values do the same. -/
theorem Instr.effect_mapOperands {read stack φ} (i : Instr Reg)
    (h : ∀ o : Operand Reg, (∀ r ∈ o.reg?, r ∈ i.uses) → (φ o).read read = o.read read) :
    (i.mapOperands φ).effect calls read stack w = i.effect calls read stack w ∧
      (i.mapOperands φ).sights read = i.sights read := by
  cases i with
  | move _ o | unary _ _ o | branch o _ _ | ret o =>
    have ho := h o fun r hr => Option.mem_toList.2 hr
    simp only [mapOperands, effect, sights, ho, and_self]
  | binary _ _ lhs rhs =>
    have hl := h lhs fun r hr => mem_append_left _ (Option.mem_toList.2 hr)
    have hr := h rhs fun r hr => mem_append_right _ (Option.mem_toList.2 hr)
    simp only [mapOperands, effect, sights, hl, hr, and_self]
  | call _ callee args =>
    have hargs : (args.map φ).map (·.read read) = args.map (·.read read) := by
      rw [List.map_map]
      refine map_congr_left fun o ho => h o fun r hr => ?_
      exact mem_append_right _ (mem_filterMap.2 ⟨o, ho, hr⟩)
    simp only [mapOperands, effect, sights, hargs, and_self]
  | store object _ value =>
    have hv := h value fun r hr => mem_cons_of_mem _ (Option.mem_toList.2 hr)
    simp only [mapOperands, effect, sights, hv, and_self]
  | _ => exact ⟨rfl, rfl⟩

theorem reg?_propagate (o : Operand Reg) :
    ∀ r ∈ (o.propagate constants).reg?.toList, r ∈ o.reg?.toList := by
  cases o with
  | imm _ => exact fun _ h => h
  | reg q =>
    intro r hr
    simp only [Operand.propagate] at hr
    split at hr
    · exact nomatch hr
    · exact hr

/-- A register of the constants is written by one instruction only, the move of its constant. -/
theorem eq_move_of_mem_constants (h : (r, c) ∈ f.constants) (hi : i ∈ f.instructions)
    (hdef : i.def? = some r) : i = .move r (.imm c) := by
  obtain ⟨hmem, hfilter⟩ := mem_filter.1 h
  rw [Bool.and_eq_true, decide_eq_true_eq] at hfilter
  have hcount := hfilter.1
  rw [Function.defCount, countP_eq_length_filter] at hcount
  obtain ⟨j, hj, hconstant⟩ := mem_filterMap.1 hmem
  have hjmove : j = .move r (.imm c) := by
    unfold Instr.constant? at hconstant
    split at hconstant <;> cases hconstant
    rfl
  obtain ⟨k, hk⟩ := length_eq_one_iff.1 hcount
  have honly : ∀ i ∈ f.instructions, i.def? = some r → i = k := by
    intro i hi hdef
    have hmem : i ∈ f.instructions.filter fun i => i.def? = some r :=
      mem_filter.2 ⟨hi, decide_eq_true hdef⟩
    exact mem_singleton.1 (hk ▸ hmem)
  rw [honly i hi hdef, ← honly j hj (hjmove ▸ rfl), hjmove]

theorem not_mem_params_of_mem_constants (h : (r, c) ∈ f.constants) : r ∉ f.params := by
  have hfilter := (mem_filter.1 h).2
  rw [Bool.and_eq_true] at hfilter
  have hparams : (!f.params.contains r) = true := hfilter.2
  simpa using hparams

/-- Registers of the constants that are live hold their constant. -/
def Function.HoldsConstants (f : Function Reg) (l : Label) (is : List (Instr Reg)) (s : State) :
    Prop :=
  ∀ r c, (r, c) ∈ f.constants → r ∈ f.liveAt l is → s.get r = .lit c

/-- **A register that holds its constant wherever it is live goes on to do so.** -/
theorem keeps_constants (hf : f.WellFormed) : f.Keeps calls f.HoldsConstants where
  next {l i is s s'} hat hI hi r c hc hr := by
    by_cases hdef : i.def? = some r
    · have hmove := eq_move_of_mem_constants hc (hat.mem_instructions mem_cons_self) hdef
      subst hmove
      cases hi
      exact get_set_self s r (.lit c)
    · rw [Instr.get_of_step hi hdef]
      exact hI r c hc (mem_liveBefore.2 (.inr ⟨hr, hdef⟩))
  goto {l k i is s b} hat hI hk hb r c hc hr := by
    rw [← liveInAt_eq hb] at hr
    exact hI r c hc (hat.live_of_successor hf hk hr)

/-- Where constants are held, an instruction does the same with them. -/
theorem step_propagate (h : f.HoldsConstants l (i :: is) s) :
    (i.mapOperands (·.propagate f.constants)).sights s.get = i.sights s.get ∧
      (i.mapOperands (·.propagate f.constants)).step calls s = i.step calls s := by
  have hread : ∀ o : Operand Reg, (∀ r ∈ o.reg?, r ∈ i.uses) →
      (o.propagate f.constants).read s.get = o.read s.get := by
    intro o ho
    cases o with
    | imm _ => rfl
    | reg r =>
      simp only [Operand.propagate]
      split
      · rename_i c hc
        exact (h r c (mem_of_lookup hc) (mem_liveBefore.2 (.inl (ho r rfl)))).symm
      · rfl
  obtain ⟨heffect, hsights⟩ := i.effect_mapOperands hread
  refine ⟨hsights, ?_⟩
  rw [Instr.step_eq, Instr.step_eq, heffect, (i.narrows_mapOperands reg?_propagate).def_eq]

theorem recast_propagate (f : Function Reg) : Function.Recast
    (fun i j => j = i.mapOperands (·.propagate f.constants)) f f.propagate :=
  recast_mapBlocks (·.mapOperands (·.propagate f.constants)) fun _ _ => rfl

theorem narrows_propagate (f : Function Reg) : ∀ i j : Instr Reg,
    j = i.mapOperands (·.propagate f.constants) → j.Narrows i := by
  rintro i _ rfl
  exact i.narrows_mapOperands reg?_propagate

theorem reframes_propagate (hf : f.WellFormed) : f.propagate.Reframes f := by
  have hE := narrows_propagate f
  have hrecast := recast_propagate f
  refine hrecast.reframes hE hf (current_mapBlocks fun k l =>
    ⟨hrecast.successors_subset hE hf, hrecast.subset_successors hE ?_ hf⟩)
  rintro i _ rfl l hl
  cases i <;> exact hl

/-- **Propagation improves a function.** -/
theorem improves_propagate (hf : f.Ready) : f.propagate.Improves f where
  toReframes := reframes_propagate hf.wellFormed
  live := (recast_propagate f).live (narrows_propagate f) hf.wellFormed
  slots := (recast_propagate f).slots (narrows_propagate f)
  shows := by
    intro calls m args w w' seen e
    refine (recast_propagate f).shows hf.wellFormed (keeps_constants hf.wellFormed) ?_ ?_
    · rintro l i is s _ - hI rfl
      exact step_propagate hI
    · intro b hb s r c hc hr
      rw [← liveInAt_eq hb] at hr
      exact absurd (hf.enters r hr) (not_mem_params_of_mem_constants hc)

/-! ## Folding -/

theorem Instr.narrows_fold (i : Instr Reg) : i.fold.Narrows i := by
  unfold fold
  split
  · split <;> exact ⟨rfl, rfl, fun _ h => h, fun _ h => h, rfl⟩
  · split <;> exact ⟨rfl, rfl, fun _ h => h, fun _ h => h, rfl⟩
  · refine ⟨rfl, rfl, fun _ h => h, fun _ h => ?_, rfl⟩
    exact mem_cons.2 (.inl (mem_singleton.1 h))
  · exact ⟨rfl, rfl, fun _ h => h, fun _ h => mem_cons_of_mem _ h, rfl⟩
  · exact ⟨rfl, rfl, fun _ h => h, fun _ h => h, rfl⟩

/-- **A folded instruction does the same in any state.** -/
theorem step_fold (calls : Calls) (s : State) (i : Instr Reg) :
    i.fold.sights s.get = i.sights s.get ∧ i.fold.step calls s = i.step calls s := by
  unfold Instr.fold
  split
  · split
    · rename_i hvalue
      simp [Instr.sights, Instr.step, Operand.value, BinaryOp.apply_of_eval? hvalue]
    · exact ⟨rfl, rfl⟩
  · split
    · rename_i hvalue
      simp [Instr.sights, Instr.step, Operand.value, UnaryOp.apply_of_eval? hvalue]
    · exact ⟨rfl, rfl⟩
  · exact ⟨rfl, rfl⟩
  · exact ⟨rfl, rfl⟩
  · exact ⟨rfl, rfl⟩

theorem successors_fold (h : i.isDecided = false) : i.fold.successors = i.successors := by
  unfold Instr.fold
  split
  · split <;> rfl
  · split <;> rfl
  · cases h
  · cases h
  · rfl

theorem recast_fold (f : Function Reg) : Function.Recast (fun i j => j = i.fold) f f.fold := by
  have hrecast : Function.Recast (fun i j => j = i.fold) f (f.mapBlocks (·.map Instr.fold)) :=
    recast_mapBlocks Instr.fold fun _ _ => rfl
  unfold Function.fold
  split
  · exact hrecast.withPredecessors
  · exact hrecast

/-- **Folding improves a function.** -/
theorem improves_fold (hf : f.WellFormed) : f.fold.Improves f := by
  have hE : ∀ i j : Instr Reg, j = i.fold → j.Narrows i := by
    rintro i _ rfl
    exact i.narrows_fold
  have hrecast := recast_fold f
  exact {
    toReframes := hrecast.reframes hE hf <| by
      intro hcurrent
      unfold Function.fold
      split
      · exact current_withPredecessors _
      · rename_i hany
        -- no branch is decided, so every block goes where it went
        have hundecided : ∀ i ∈ f.instructions, i.isDecided = false := by simpa using hany
        have hsame : Function.Recast (fun i j => j = i.fold ∧ i.isDecided = false) f
            (f.mapBlocks (·.map Instr.fold)) :=
          recast_mapBlocks Instr.fold fun i hi => ⟨rfl, hundecided i hi⟩
        have hE' : ∀ i j : Instr Reg, j = i.fold ∧ i.isDecided = false → j.Narrows i :=
          fun i j h => hE i j h.1
        refine current_mapBlocks (fun k l => ⟨hsame.successors_subset hE' hf,
          hsame.subset_successors hE' ?_ hf⟩) hcurrent
        rintro i _ ⟨rfl, hi⟩ l hl
        rwa [successors_fold hi]
    live := hrecast.live hE hf
    slots := hrecast.slots hE
    shows := by
      intro calls m args w w' seen e
      refine hrecast.shows hf .trivial ?_ fun _ _ _ => ⟨⟩
      rintro l i is s _ - - rfl
      exact step_fold calls s i }

end Flow

end Sluice
