import Sluice.Live.DeadCode
import Sluice.Proofs.Machine.Recast
import Sluice.Proofs.Optimize.Improves

/-!
# Leaving out dead code

The registers found live while dead instructions are left out are among the live
registers of the function (`mem_liveFrom_of_prune`): an instruction that goes takes
its reads with it. A run without dead instructions agrees with the full one on these
registers, on the stack and on the world, and steps over what is left out.
-/

namespace Sluice.Flow

open List Machine

variable {f : Function Reg} {i : Instr Reg}

/-! ## What is left out -/

/-- Only a division has no value. -/
theorem exists_apply_eq_some {op : BinaryOp} (hdiv : op ≠ .div) (hmod : op ≠ .mod) (a b : Value) :
    ∃ v, op.apply a b = some v := by
  unfold BinaryOp.apply
  split <;> first | exact ⟨_, rfl⟩ | exact absurd rfl hdiv | exact absurd rfl hmod

/-- **An instruction that can be left out writes its register**, and nothing is seen of it. -/
theorem step_of_isPure (h : i.isPure = true) (calls : Calls) (s : State) :
    i.sights s.get = [] ∧ ∃ d v, i.def? = some d ∧ i.step calls s = .next (s.set d v) := by
  cases i with
  | move dst _ | unary _ dst _ | address dst _ | load dst _ _ => exact ⟨rfl, dst, _, rfl, rfl⟩
  | binary op dst lhs rhs =>
    have hdiv : op ≠ .div := by rintro rfl; cases h
    have hmod : op ≠ .mod := by rintro rfl; cases h
    obtain ⟨v, hv⟩ := exists_apply_eq_some hdiv hmod (lhs.value s) (rhs.value s)
    refine ⟨rfl, dst, v, rfl, ?_⟩
    simp only [Instr.step, hv]
  | _ => cases h

theorem isDead_eq_true :
    i.isDead live = true ↔ i.isPure = true ∧ ∃ d, i.def? = some d ∧ d ∉ live := by
  simp [Instr.isDead, Option.any_eq_true, ← Bool.not_eq_true]

theorem isDead_of_isTerminator (hi : i.isTerminator = true) (live : IdSet) :
    i.isDead live = false := by
  cases i with
  | jump _ | branch _ _ _ | ret _ => rfl
  | _ => cases hi

/-- What stays of some instructions. -/
abbrev kept (out : IdSet) (is : List (Instr Reg)) : List (Instr Reg) := (prune out is).1

/-- The registers live before the instructions that stay. -/
abbrev keptLive (out : IdSet) (is : List (Instr Reg)) : IdSet := (prune out is).2

variable {out : IdSet} {i : Instr Reg} {is : List (Instr Reg)}

theorem prune_of_dead (h : i.isDead (keptLive out is) = true) :
    prune out (i :: is) = (kept out is, keptLive out is) := by
  simp only [prune]
  exact if_pos h

theorem prune_of_not_dead (h : i.isDead (keptLive out is) = false) :
    prune out (i :: is) = (i :: kept out is, i.liveBefore (keptLive out is)) := by
  simp only [prune]
  exact if_neg (Bool.eq_false_iff.1 h)

theorem kept_sublist : ∀ {is}, (kept out is).Sublist is
  | [] => .slnil
  | i :: is => by
    cases h : i.isDead (keptLive out is) with
    | true =>
      rw [kept, prune_of_dead h]
      exact kept_sublist.cons i
    | false =>
      rw [kept, prune_of_not_dead h]
      exact kept_sublist.cons_cons i

/-- The instruction that ends a block stays where it is. -/
theorem kept_concat (out : IdSet) (hlast : last.isTerminator = true) :
    ∀ body : List (Instr Reg), ∃ body', kept out (body ++ [last]) = body' ++ [last] ∧
      body'.Sublist body
  | [] => by
    refine ⟨[], ?_, .slnil⟩
    rw [nil_append, kept, prune_of_not_dead (isDead_of_isTerminator hlast _)]
    rfl
  | i :: body => by
    obtain ⟨body', heq, hsub⟩ := kept_concat out hlast body
    cases h : i.isDead (keptLive out (body ++ [last])) with
    | true =>
      refine ⟨body', ?_, hsub.cons i⟩
      rw [cons_append, kept, prune_of_dead h, heq]
    | false =>
      refine ⟨i :: body', ?_, hsub.cons_cons i⟩
      rw [cons_append, kept, prune_of_not_dead h, heq, cons_append]

/-- **What is live without dead code was live with it.** -/
theorem mem_liveFrom_of_prune : ∀ {is}, ∀ r ∈ keptLive out is, r ∈ liveFrom out is
  | [] => fun _ h => h
  | i :: is => by
    intro r hr
    rw [liveFrom_cons, mem_liveBefore]
    cases h : i.isDead (keptLive out is) with
    | true =>
      rw [keptLive, prune_of_dead h] at hr
      obtain ⟨-, d, hd, hlive⟩ := isDead_eq_true.1 h
      refine .inr ⟨mem_liveFrom_of_prune r hr, ?_⟩
      rw [hd]
      rintro ⟨⟩
      exact hlive hr
    | false =>
      rw [keptLive, prune_of_not_dead h, mem_liveBefore] at hr
      exact hr.imp_right fun ⟨hr, hdef⟩ => ⟨mem_liveFrom_of_prune r hr, hdef⟩

/-- What stays needs no more than was found live. -/
theorem mem_keptLive (hout : ∀ r ∈ out', r ∈ out) :
    ∀ {is}, ∀ r ∈ liveFrom out' (kept out is), r ∈ keptLive out is
  | [] => hout
  | i :: is => by
    intro r hr
    cases h : i.isDead (keptLive out is) with
    | true =>
      rw [kept, prune_of_dead h] at hr
      rw [keptLive, prune_of_dead h]
      exact mem_keptLive hout r hr
    | false =>
      rw [kept, prune_of_not_dead h, liveFrom_cons] at hr
      rw [keptLive, prune_of_not_dead h]
      exact liveBefore_mono (mem_keptLive hout) r hr

/-! ## The function without dead code -/

theorem getElem?_pruned (f : Function Reg) (l : Label) :
    f.pruned.blocks[l]? =
      f.blocks[l]?.map fun b => { b with instrs := kept (f.liveOutAt l) b.instrs } := by
  simp only [Function.pruned, getElem?_map, List.zip]
  cases hb : f.blocks[l]? with
  | none => simp [getElem?_zipWith, hb]
  | some b => simp [getElem?_zipWith, hb, getElem?_liveOut hb]

theorem of_pruned {l : Label} (hc : f.pruned.blocks[l]? = some c) :
    ∃ b, f.blocks[l]? = some b ∧ c = { b with instrs := kept (f.liveOutAt l) b.instrs } := by
  rw [getElem?_pruned] at hc
  obtain ⟨b, hb, rfl⟩ := Option.map_eq_some_iff.1 hc
  exact ⟨b, hb, rfl⟩

theorem length_pruned (f : Function Reg) : f.pruned.blocks.length = f.blocks.length := by
  simp [Function.pruned, Function.liveness]

/-- A whole block stays whole, and goes where it went. -/
theorem Ended.kept {b : Block Reg} (h : Ended b.instrs) (out : IdSet) :
    Ended (kept out b.instrs) ∧
      ({ b with instrs := Flow.kept out b.instrs } : Block Reg).successors = b.successors := by
  obtain ⟨body, last, heq, hlast, hbody⟩ := h
  obtain ⟨body', heq', hsub⟩ := kept_concat out hlast body
  rw [← heq] at heq'
  refine ⟨⟨body', last, heq', hlast, fun i hi => hbody i (hsub.subset hi)⟩, ?_⟩
  rw [Block.successors_eq heq' hlast, b.successors_eq heq hlast]

theorem successors_pruned (hf : f.WellFormed) (l : Label) :
    f.pruned.successors l = f.successors l := by
  rw [Function.successors, Function.successors, getElem?_pruned]
  cases hb : f.blocks[l]? with
  | none => rfl
  | some b => exact ((hf.ended b (mem_of_getElem? hb)).kept (f.liveOutAt l)).2

/-- Every instruction that stays was there. -/
theorem mem_of_mem_pruned {c : Block Reg} (hc : c ∈ f.pruned.blocks) (hi : i ∈ c.instrs) :
    ∃ b ∈ f.blocks, i ∈ b.instrs := by
  obtain ⟨l, hl⟩ := getElem?_of_mem hc
  obtain ⟨b, hb, rfl⟩ := of_pruned hl
  exact ⟨b, mem_of_getElem? hb, kept_sublist.subset hi⟩

theorem wellFormed_pruned (hf : f.WellFormed) : f.pruned.WellFormed where
  nonempty := length_pruned f ▸ hf.nonempty
  ended c hc := by
    obtain ⟨l, hl⟩ := getElem?_of_mem hc
    obtain ⟨b, hb, rfl⟩ := of_pruned hl
    exact ((hf.ended b (mem_of_getElem? hb)).kept (f.liveOutAt l)).1
  target_lt c hc k hk := by
    obtain ⟨l, hl⟩ := getElem?_of_mem hc
    have hk' : k ∈ f.pruned.successors l := by simpa [Function.successors, hl] using hk
    rw [length_pruned]
    exact hf.successor_lt (successors_pruned hf l ▸ hk')
  known c hc i hi r hr := by
    obtain ⟨b, hb, hi⟩ := mem_of_mem_pruned hc hi
    exact hf.known b hb i hi r hr

/-! ## Runs without dead code -/

/-- Two states agree on some registers, on the stack and on the world. -/
structure AgreeOn (live : IdSet) (s t : State) : Prop where
  register : ∀ r ∈ live, t.memory (.machine r) = s.memory (.machine r)
  stack : ∀ slot, t.memory (.stack slot) = s.memory (.stack slot)
  world : t.world = s.world

namespace AgreeOn

variable {live : IdSet} {s t : State}

/-- States that agree on what an instruction reads agree on it after the instruction wrote the
same to both. -/
theorem write (h : AgreeOn (i.liveBefore live) s t) (hd : i.def? = some d) (v : Value) (w : World) :
    AgreeOn live { s with memory := Function.update s.memory (.machine d) v, world := w }
      { t with memory := Function.update t.memory (.machine d) v, world := w } where
  register r hr := by
    by_cases hrd : r = d
    · simp [hrd]
    · have hdef : i.def? ≠ some r := fun heq => hrd (Option.some.inj (heq.symm.trans hd))
      simp [hrd, h.register r (mem_liveBefore.2 (.inr ⟨hr, hdef⟩))]
  stack slot := by simp [h.stack slot]
  world := rfl

/-- An instruction that writes no register leaves registers as they are. -/
theorem of_liveBefore (h : AgreeOn (i.liveBefore live) s t) (hd : i.def? = none) :
    AgreeOn live s t where
  register r hr := h.register r (mem_liveBefore.2 (.inr ⟨hr, by simp [hd]⟩))
  stack := h.stack
  world := h.world

theorem change (h : AgreeOn live s t) (w : World) :
    AgreeOn live { s with world := w } { t with world := w } where
  register := h.register
  stack := h.stack
  world := rfl

theorem spill (h : AgreeOn live s t) (slot : Slot) (v : Value)
    (spills spills' : List (Slot × Value)) :
    AgreeOn live
      { s with memory := Function.update s.memory (.stack slot) v, spills := spills }
      { t with memory := Function.update t.memory (.stack slot) v, spills := spills' } where
  register r hr := by simp [h.register r hr]
  stack slot' := by simp [Function.update_apply, h.stack slot']
  world := h.world

theorem mono (h : AgreeOn live s t) (hsub : ∀ r ∈ live', r ∈ live) : AgreeOn live' s t where
  register r hr := h.register r (hsub r hr)
  stack := h.stack
  world := h.world

end AgreeOn

/-- **Where a run without dead code is, and what it has in common with the full one.** -/
def Function.Skips (f : Function Reg) (is : List (Instr Reg)) (s : State) (js : List (Instr Reg))
    (t : State) : Prop :=
  ∃ l, f.At l is ∧ js = kept (f.liveOutAt l) is ∧ AgreeOn (keptLive (f.liveOutAt l) is) s t

/-- Runs that agree on what is live at a block are at the same place when they enter it. -/
theorem exists_skips_start (hb : f.blocks[l]? = some b) (h : AgreeOn (f.liveInAt l) s t) :
    ∃ c, f.pruned.blocks[l]? = some c ∧ f.Skips b.instrs s c.instrs t := by
  refine ⟨_, by rw [getElem?_pruned, hb]; rfl, l, .start hb, rfl, h.mono fun r hr => ?_⟩
  exact liveInAt_eq hb ▸ mem_liveFrom_of_prune r hr

/-- An instruction that both runs carry out does the same in both. -/
theorem alike_of_kept (hf : f.WellFormed) (hat : f.At l (i :: is))
    (hagree : AgreeOn (i.liveBefore (keptLive (f.liveOutAt l) is)) s t) :
    Alike f.Skips f f.pruned is (kept (f.liveOutAt l) is) (i.step calls s) (i.step calls t) := by
  have huses : ∀ r ∈ i.uses, (t.get r : Value) = s.get r :=
    fun r hr => hagree.register r (mem_liveBefore.2 (.inl hr))
  have heffect : i.effect calls t.get (stackOf t) t.world =
      i.effect calls s.get (stackOf s) s.world := by
    rw [hagree.world]
    exact i.effect_congr huses fun slot _ => hagree.stack slot
  rw [Instr.step_eq, Instr.step_eq, heffect]
  refine .of_effect ?_ ?_ ?_ ?_
  · intro v w hwrite
    obtain ⟨d, hd⟩ := Instr.exists_def_of_effect hwrite
    rw [hd]
    exact ⟨l, hat.next, rfl, hagree.write hd v w⟩
  · intro w hchange
    exact ⟨l, hat.next, rfl, (hagree.of_liveBefore (Instr.def?_of_effect hchange)).change w⟩
  · intro slot v hspill
    obtain ⟨src, rfl⟩ := Instr.slot_of_effect hspill
    exact ⟨l, hat.next, rfl, (hagree.of_liveBefore rfl).spill slot v _ _⟩
  · intro k hgoto
    have hk := Instr.mem_successors_of_effect hgoto
    obtain ⟨b, hb⟩ := hat.exists_block hf hk
    -- the block is over, so nothing but the instruction itself comes before the target
    obtain ⟨rfl, -⟩ := hat.last hf (Instr.isTerminator_of_effect hgoto)
    obtain ⟨c, hc, hskips⟩ := exists_skips_start hb
      (hagree.mono fun r hr => hat.live_of_successor hf hk hr)
    exact ⟨b, c, hb, hc, hskips⟩

/-- **A run without dead code is in step with the full one**, apart from dead code. -/
theorem inStep_pruned (hf : f.WellFormed) : InStep some calls f f.pruned f.Skips := by
  refine ⟨fun ⟨_, _, hnil, _⟩ => hnil, ?_⟩
  rintro i is s _ t ⟨l, hat, rfl, hagree⟩
  cases hdead : i.isDead (keptLive (f.liveOutAt l) is) with
  | true =>
    -- the full run writes a register that the other one does not look at
    obtain ⟨hpure, d, hd, hlive⟩ := isDead_eq_true.1 hdead
    obtain ⟨hsights, d', v, hd', hstep⟩ := step_of_isPure hpure calls s
    obtain rfl : d = d' := Option.some.inj (hd.symm.trans hd')
    rw [keptLive, prune_of_dead hdead] at hagree
    rw [kept, prune_of_dead hdead]
    refine .inl ⟨_, hstep, congrArg _ hsights, l, hat.next, rfl, fun r hr => ?_, fun slot => ?_,
      hagree.world⟩
    · have hrd : r ≠ d := fun heq => hlive (heq ▸ hr)
      rw [hagree.register r hr]
      exact (get_set_of_ne hrd v).symm
    · rw [hagree.stack slot]
      simp [State.set, Cell.cell]
  | false =>
    rw [keptLive, prune_of_not_dead hdead] at hagree
    rw [kept, prune_of_not_dead hdead]
    have huses : ∀ r ∈ i.uses, (t.get r : Value) = s.get r :=
      fun r hr => hagree.register r (mem_liveBefore.2 (.inl hr))
    exact .inr ⟨i, _, rfl, congrArg _ (i.sights_congr huses), alike_of_kept hf hat hagree⟩

/-- **Leaving out dead code improves a function.** -/
theorem improves_pruned (hf : f.WellFormed) : f.pruned.Improves f where
  name := rfl
  params := rfl
  registers := rfl
  length := length_pruned f
  wellFormed := wellFormed_pruned hf
  current hcurrent l c hc := by
    obtain ⟨b, hb, rfl⟩ := of_pruned hc
    rw [predecessors_congr (successors_pruned hf)]
    exact hcurrent l b hb
  successors k l hl := successors_pruned hf k ▸ hl
  live := by
    refine liveInAt_subset (fun k l hl => successors_pruned hf k ▸ hl) ?_
    intro l c hc out hout r hr
    obtain ⟨b, hb, rfl⟩ := of_pruned hc
    rw [liveInAt_eq hb]
    exact mem_liveFrom_of_prune r (mem_keptLive hout r hr)
  slots i hi slot hslot := by
    obtain ⟨c, hc, hi⟩ := mem_flatMap.1 hi
    obtain ⟨b, hb, hi⟩ := mem_of_mem_pruned hc hi
    exact ⟨i, mem_flatMap.2 ⟨b, hb, hi⟩, hslot⟩
  shows := by
    intro calls m args w w' seen e hshows
    obtain ⟨b, hb⟩ := hf.exists_entry
    obtain ⟨c, hc, hskips⟩ := exists_skips_start hb ⟨fun _ _ => rfl, fun _ => rfl, rfl⟩
    exact (((inStep_pruned hf).function_iff hb hc hskips).2 _ _ _).1 hshows

end Sluice.Flow
