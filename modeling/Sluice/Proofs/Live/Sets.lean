import Mathlib.Data.List.Forall2
import Sluice.Live.Sets
import Sluice.Proofs.Flow.WellFormed

/-!
# Live sets solve the flow equations

The sets found by iteration satisfy the equations they were iterated from
(`liveInAt_eq`, `mem_liveOutAt`): every round but the last adds a register that is
read somewhere to some set, and there are enough rounds for all of them. And they
are the least sets to do so (`liveInAt_least`), which is stated for any property of
blocks and registers, so that a bound need not be a finite set.

Along a block, `liveAt` gives the registers live before what is left of it.
-/

namespace Sluice.Flow

open List

/-! ## One block -/

theorem mem_liveBefore {i : Instr Reg} {after r} :
    r ∈ i.liveBefore after ↔ r ∈ i.uses ∨ r ∈ after ∧ i.def? ≠ some r := by
  unfold Instr.liveBefore
  cases i.def? with
  | none => simp [or_comm]
  | some d => simp [or_comm, eq_comm]

theorem liveBefore_mono {i : Instr Reg} (h : ∀ r ∈ s, r ∈ t) :
    ∀ r ∈ i.liveBefore s, r ∈ i.liveBefore t := by
  intro r hr
  rw [mem_liveBefore] at hr ⊢
  exact hr.imp_right fun hr => ⟨h r hr.1, hr.2⟩

/-- The registers live before some instructions, given those live after them. -/
def liveFrom (out : IdSet) (is : List (Instr Reg)) : IdSet :=
  (liveThrough out is).2

@[simp] theorem liveFrom_nil : liveFrom out [] = out := rfl

@[simp] theorem liveFrom_cons : liveFrom out (i :: is) = i.liveBefore (liveFrom out is) := rfl

/-- What is made of instructions and of what is live after them is made at some place among
them. -/
theorem exists_of_mem_zipWith_liveThrough : ∀ {is}, x ∈ List.zipWith φ is (liveThrough out is).1 →
      ∃ before i rest, is = before ++ i :: rest ∧ x = φ i (liveFrom out rest)
  | [], hx => nomatch hx
  | i :: is, hx => by
    rcases mem_cons.1 hx with rfl | hx
    · exact ⟨[], i, is, rfl, rfl⟩
    · obtain ⟨before, k, rest, rfl, hk⟩ := exists_of_mem_zipWith_liveThrough hx
      exact ⟨i :: before, k, rest, rfl, hk⟩

/-- A register that is live before some instructions is live after them or read by one. -/
theorem mem_uses_of_mem_liveFrom (h : r ∈ liveFrom out is) : r ∈ out ∨ ∃ i ∈ is, r ∈ i.uses := by
  induction is with
  | nil => exact .inl h
  | cons i rest ih =>
    rcases mem_liveBefore.1 h with hr | ⟨hr, -⟩
    · exact .inr ⟨i, mem_cons_self, hr⟩
    · rcases ih hr with hr | ⟨j, hj, hr⟩
      · exact .inl hr
      · exact .inr ⟨j, mem_cons_of_mem _ hj, hr⟩

theorem mem_liveIn {s : Summary} : r ∈ s.liveIn out ↔ r ∈ s.uses ∨ r ∈ out ∧ r ∉ s.defs := by
  simp [Summary.liveIn]

theorem mem_liveIn_foldl_add (is : List (Instr Reg)) :
    ∀ s : Summary, r ∈ (is.foldl .add s).liveIn out ↔
      r ∈ s.uses ∨ r ∉ s.defs ∧ r ∈ liveFrom out is := by
  induction is with
  | nil =>
    intro s
    rw [foldl_nil, mem_liveIn, liveFrom_nil, and_comm]
  | cons i rest ih =>
    intro s
    rw [foldl_cons, ih, liveFrom_cons, mem_liveBefore]
    have hdef : r ∈ i.def?.toList ↔ i.def? = some r := Option.mem_toList
    simp only [Summary.add, IdSet.mem_insertAll, mem_filter, hdef, Bool.not_eq_true',
      ← Bool.not_eq_true, IdSet.contains_eq_true]
    tauto

/-- **A summary does to live registers what the block does.** -/
theorem liveIn_summary (b : Block Reg) (out : IdSet) :
    b.summary.liveIn out = liveFrom out b.instrs := by
  refine IdSet.ext fun r => ?_
  rw [Block.summary, mem_liveIn_foldl_add]
  simp

/-! ## Rounds -/

/-- The set at a block, empty if there is no such block. -/
def setAt (sets : List IdSet) (l : Label) : IdSet :=
  sets[l]?.getD ∅

theorem mem_liveOutOf : r ∈ liveOutOf sets successors ↔ ∃ l ∈ successors, r ∈ setAt sets l := by
  suffices hall : ∀ init : IdSet,
      r ∈ successors.foldl (fun out l => out.union (setAt sets l)) init ↔
        r ∈ init ∨ ∃ l ∈ successors, r ∈ setAt sets l by
    exact (hall ∅).trans (by simp)
  induction successors with
  | nil => simp
  | cons l rest ih =>
    intro init
    rw [foldl_cons, ih, IdSet.mem_union]
    simp [or_assoc]

/-- Sets of which each lies in the other one at its place. -/
abbrev Below (xs ys : List IdSet) : Prop :=
  List.Forall₂ (fun s t => ∀ r ∈ s, r ∈ t) xs ys

theorem Below.setAt (h : Below xs ys) (l : Label) : ∀ r ∈ setAt xs l, r ∈ setAt ys l := by
  induction h generalizing l with
  | nil => exact fun _ h => h
  | cons hs _ ih =>
    cases l with
    | zero => exact hs
    | succ l => exact ih l

/-- The number of members of all sets together. -/
def total : List IdSet → Nat
  | [] => 0
  | s :: sets => s.size + total sets

theorem Below.total_le (h : Below xs ys) : total xs ≤ total ys := by
  induction h with
  | nil => exact Nat.le.refl
  | cons hs _ ih =>
    have := IdSet.size_le_size hs
    simp only [total]
    omega

theorem Below.total_lt (h : Below xs ys) (hne : xs ≠ ys) : total xs < total ys := by
  induction h with
  | nil => exact absurd rfl hne
  | @cons s t xs ys hs hrest ih =>
    simp only [total]
    by_cases heq : s = t
    · subst heq
      have := ih fun h => hne (by rw [h])
      omega
    · have := IdSet.size_lt_size hs heq
      have := total_le hrest
      omega

theorem total_le {reads : List Reg} (h : ∀ s ∈ sets, ∀ r ∈ s, r ∈ reads) :
    total sets ≤ sets.length * reads.length := by
  induction sets with
  | nil => exact Nat.zero_le _
  | cons s sets ih =>
    obtain ⟨hs, hsets⟩ := forall_mem_cons.1 h
    have := IdSet.size_le_length hs
    have := ih hsets
    rw [total, length_cons, Nat.succ_mul]
    omega

variable {blocks : List (Summary × List Label)}

theorem liveRound_mono (h : Below xs ys) : Below (liveRound blocks xs) (liveRound blocks ys) := by
  refine forall₂_map_left_iff.2 (forall₂_map_right_iff.2 (forall₂_same.2 fun p _ r hr => ?_))
  rw [mem_liveIn] at hr ⊢
  refine hr.imp_right fun ⟨hout, hdefs⟩ => ⟨?_, hdefs⟩
  rw [mem_liveOutOf] at hout ⊢
  obtain ⟨l, hl, hr⟩ := hout
  exact ⟨l, hl, h.setAt l r hr⟩

/-- A round only adds registers that some block reads. -/
theorem mem_reads_of_liveRound {reads : List Reg}
    (huses : ∀ p ∈ blocks, ∀ r ∈ p.1.uses, r ∈ reads) (h : ∀ s ∈ xs, ∀ r ∈ s, r ∈ reads) :
    ∀ s ∈ liveRound blocks xs, ∀ r ∈ s, r ∈ reads := by
  intro s hs r hr
  obtain ⟨p, hp, rfl⟩ := mem_map.1 hs
  rcases mem_liveIn.1 hr with hr | ⟨hr, -⟩
  · exact huses p hp r hr
  · obtain ⟨l, -, hr⟩ := mem_liveOutOf.1 hr
    unfold setAt at hr
    cases hl : xs[l]? with
    | none => simp [hl] at hr
    | some t => exact h t (mem_of_getElem? hl) r (by simpa [hl] using hr)

/-- **Enough rounds come to sets that another round does not change.** -/
theorem liveRound_liveRounds {reads : List Reg} (huses : ∀ p ∈ blocks, ∀ r ∈ p.1.uses, r ∈ reads) :
    ∀ (rounds : Nat) (xs : List IdSet), xs.length = blocks.length →
      (∀ s ∈ xs, ∀ r ∈ s, r ∈ reads) → Below xs (liveRound blocks xs) →
      blocks.length * reads.length < total xs + rounds →
      liveRound blocks (liveRounds blocks rounds xs) = liveRounds blocks rounds xs := by
  intro rounds
  induction rounds with
  | zero =>
    intro xs hlen hreads _ hrounds
    have := total_le hreads
    rw [hlen] at this
    omega
  | succ rounds ih =>
    intro xs hlen hreads hbelow hrounds
    simp only [liveRounds]
    split
    · assumption
    · rename_i hgrows
      have hlt := hbelow.total_lt (Ne.symm hgrows)
      exact ih _ (by simp [liveRound]) (mem_reads_of_liveRound huses hreads)
        (liveRound_mono hbelow) (by omega)

/-- Rounds stay below everything that the equations of the blocks stay below. -/
theorem liveRounds_least {S : Label → Reg → Prop}
    (hS : ∀ (l : Label) (p : Summary × List Label), blocks[l]? = some p → ∀ out : IdSet,
      (∀ r ∈ out, ∃ k ∈ p.2, S k r) → ∀ r ∈ p.1.liveIn out, S l r) :
    ∀ (rounds : Nat) (xs : List IdSet), (∀ l, ∀ r ∈ setAt xs l, S l r) →
      ∀ l, ∀ r ∈ setAt (liveRounds blocks rounds xs) l, S l r := by
  intro rounds
  induction rounds with
  | zero => exact fun _ h => h
  | succ rounds ih =>
    intro xs hxs
    simp only [liveRounds]
    split
    · exact hxs
    · refine ih _ fun l r hr => ?_
      unfold setAt at hr
      simp only [liveRound, getElem?_map] at hr
      cases hp : blocks[l]? with
      | none => simp [hp] at hr
      | some p =>
        refine hS l p hp _ (fun q hq => ?_) r (by simpa [hp] using hr)
        obtain ⟨k, hk, hq⟩ := mem_liveOutOf.1 hq
        exact ⟨k, hk, hxs k q hq⟩

/-! ## Whole functions -/

variable {f : Function Reg} {l : Label} {b : Block Reg} {r : Reg}

/-- The registers live at the start of a block. -/
def Function.liveInAt (f : Function Reg) (l : Label) : IdSet :=
  setAt f.liveness.liveIn l

/-- The registers live at the end of a block. -/
def Function.liveOutAt (f : Function Reg) (l : Label) : IdSet :=
  liveOutOf f.liveness.liveIn (f.successors l)

/-- The registers live before what is left of a block. -/
def Function.liveAt (f : Function Reg) (l : Label) (is : List (Instr Reg)) : IdSet :=
  liveFrom (f.liveOutAt l) is

@[simp] theorem liveAt_cons : f.liveAt l (i :: is) = i.liveBefore (f.liveAt l is) := rfl

/-- **What is live at the end of a block is what is live at the start of its successors.** -/
theorem mem_liveOutAt : r ∈ f.liveOutAt l ↔ ∃ k ∈ f.successors l, r ∈ f.liveInAt k :=
  mem_liveOutOf

theorem getElem?_liveOut (hb : f.blocks[l]? = some b) :
    f.liveness.liveOut[l]? = some (f.liveOutAt l) := by
  simp [Function.liveness, Function.liveOutAt, Function.successors, hb]

theorem getElem?_liveAfter (hb : f.blocks[l]? = some b) :
    f.liveAfter[l]? = some (liveThrough (f.liveOutAt l) b.instrs).1 := by
  simp [Function.liveAfter, List.zip, getElem?_zipWith, hb, getElem?_liveOut hb]

/-- One more round changes nothing. -/
theorem liveRound_liveness (f : Function Reg) :
    liveRound (f.blocks.map fun b => (b.summary, b.successors)) f.liveness.liveIn =
      f.liveness.liveIn := by
  have huses : ∀ p ∈ f.blocks.map fun b => (b.summary, b.successors), ∀ r ∈ p.1.uses,
      r ∈ f.instructions.flatMap Instr.uses := by
    -- what a block reads first is read by one of its instructions
    rintro p hp r hr
    obtain ⟨b, hb, rfl⟩ := mem_map.1 hp
    have hlive : r ∈ liveFrom ∅ b.instrs := liveIn_summary b ∅ ▸ mem_liveIn.2 (.inl hr)
    rcases mem_uses_of_mem_liveFrom hlive with hr | ⟨i, hi, hr⟩
    · exact absurd hr IdSet.not_mem_empty
    · exact mem_flatMap.2 ⟨i, mem_flatMap.2 ⟨b, hb, hi⟩, hr⟩
  refine liveRound_liveRounds huses _ _ (by simp) ?_ ?_ ?_
  · intro s hs r hr
    obtain ⟨_, _, rfl⟩ := mem_map.1 hs
    exact absurd hr IdSet.not_mem_empty
  · simp only [liveRound, map_map]
    exact forall₂_map_left_iff.2 (forall₂_map_right_iff.2
      (forall₂_same.2 fun b _ r hr => absurd hr IdSet.not_mem_empty))
  · simp only [length_map]
    omega

theorem getElem?_liveIn (hb : f.blocks[l]? = some b) :
    f.liveness.liveIn[l]? = some (f.liveAt l b.instrs) := by
  rw [← liveRound_liveness]
  simp [liveRound, hb, liveIn_summary, Function.liveAt, Function.liveOutAt, Function.successors]

/-- **What is live at the start of a block is what goes through it from its end.** -/
theorem liveInAt_eq (hb : f.blocks[l]? = some b) : f.liveInAt l = f.liveAt l b.instrs := by
  simp [Function.liveInAt, setAt, getElem?_liveIn hb]

/-- **The live sets are the least solution.** What is live satisfies every property that the
instructions of a block carry back from its successors. -/
theorem liveInAt_least {S : Label → Reg → Prop}
    (hS : ∀ (l : Label) b, f.blocks[l]? = some b → ∀ out : IdSet,
      (∀ r ∈ out, ∃ k ∈ b.successors, S k r) → ∀ r ∈ liveFrom out b.instrs, S l r) :
    ∀ l, ∀ r ∈ f.liveInAt l, S l r := by
  refine liveRounds_least ?_ _ _ ?_
  · intro l p hp out hout r hr
    obtain ⟨b, hb, rfl⟩ := by simpa using hp
    exact hS l b hb out hout r (liveIn_summary b out ▸ hr)
  · intro l r hr
    unfold setAt at hr
    rw [getElem?_map] at hr
    cases hl : f.blocks[l]? <;> exact absurd (hl ▸ hr) IdSet.not_mem_empty

/-! ## What is left of a block -/

namespace Function.At

variable {i : Instr Reg} {is : List (Instr Reg)}

/-- What is live where control goes was live before the instruction that goes there. -/
theorem live_of_successor (h : f.At l (i :: is)) (hf : f.WellFormed) (hk : k ∈ i.successors)
    (hr : r ∈ f.liveInAt k) : r ∈ f.liveAt l (i :: is) := by
  have hi : i.isTerminator = true := by
    cases i <;> first | rfl | cases hk
  have hdef : i.def? = none := by
    cases i <;> first | rfl | cases hi
  obtain ⟨rfl, hsucc⟩ := h.last hf hi
  rw [liveAt_cons, mem_liveBefore]
  refine .inr ⟨mem_liveOutAt.2 ⟨k, hsucc ▸ hk, hr⟩, ?_⟩
  rw [hdef]
  simp

end Function.At

end Sluice.Flow
