import Sluice.Place.Spill
import Sluice.Proofs.Flow.Rename
import Sluice.Proofs.Live.Interval
import Sluice.Proofs.Machine.Recast

/-!
# What spilling leaves of a function

Every instruction is replaced by code of its own (`Instr.withSlot`), whose temporaries
are new (`Function.Spills`). The function stays in order with the edges it had
(`Function.Spills.verify`). The spilled register is not mentioned any more, unless it
is a parameter, and apart from temporaries nothing is mentioned that was not mentioned
before (`Function.Spills.mentions`).
-/

namespace Sluice.Flow

open List

/-! ## The code of an instruction -/

/-- An instruction with temporaries in place of a register: one where it is read, and one where it
is written. -/
def Instr.instead (r t t' : Reg) (i : Instr Reg) : Instr Reg :=
  (i.mapUses fun q => if q = r then t else q).mapDef fun d => if d = r then t' else d

/-- **The code of an instruction whose register lives in a slot.** -/
def Instr.withSlot (r : Reg) (slot : Slot) (t t' : Reg) (i : Instr Reg) : List (Instr Reg) :=
  (if r ∈ i.uses then [.spillLoad t slot] else []) ++ i.instead r t t' ::
    (if i.def? = some r then [.spillStore slot t'] else [])

variable {r t t' q : Reg} {slot : Slot} {i j : Instr Reg}

theorem Instr.uses_instead :
    (i.instead r t t').uses = i.uses.map fun q => if q = r then t else q := by
  rw [instead, uses_mapDef, uses_mapUses]

theorem Instr.def?_instead :
    (i.instead r t t').def? = i.def?.map fun d => if d = r then t' else d := by
  rw [instead, def?_mapDef, def?_mapUses]

/-- Other registers change nothing else. -/
theorem Instr.attributes_instead (r t t' : Reg) (i : Instr Reg) :
    (i.instead r t t').isTerminator = i.isTerminator ∧ (i.instead r t t').isRet = i.isRet ∧
      (i.instead r t t').successors = i.successors ∧ (i.instead r t t').slot? = i.slot? := by
  cases i <;> exact ⟨rfl, rfl, rfl, rfl⟩

theorem Instr.mem_withSlot (hj : j ∈ i.withSlot r slot t t') :
    r ∈ i.uses ∧ j = .spillLoad t slot ∨ j = i.instead r t t' ∨
      i.def? = some r ∧ j = .spillStore slot t' := by
  simp only [withSlot, mem_append, mem_cons, mem_ite_nil_right, not_mem_nil, or_false] at hj
  tauto

/-- What the code of an instruction mentions: the temporaries, and what the instruction mentions
apart from the register. -/
theorem Instr.mentions_of_mem_withSlot (hj : j ∈ i.withSlot r slot t t') (hq : j.Mentions q) :
    q = t ∧ r ∈ i.uses ∨ q = t' ∧ i.def? = some r ∨ q ≠ r ∧ i.Mentions q := by
  rcases mem_withSlot hj with ⟨hr, rfl⟩ | rfl | ⟨hr, rfl⟩
  · rcases hq with hq | hq
    · exact .inl ⟨(Option.some.inj hq).symm, hr⟩
    · exact nomatch hq
  · rcases hq with hq | hq
    · rw [def?_instead] at hq
      obtain ⟨d, hd, rfl⟩ := Option.map_eq_some_iff.1 hq
      split
      · rename_i heq
        exact .inr (.inl ⟨rfl, heq ▸ hd⟩)
      · rename_i hne
        exact .inr (.inr ⟨hne, .inl hd⟩)
    · rw [uses_instead] at hq
      obtain ⟨u, hu, rfl⟩ := mem_map.1 hq
      split
      · rename_i heq
        exact .inl ⟨rfl, heq ▸ hu⟩
      · rename_i hne
        exact .inr (.inr ⟨hne, .inr hu⟩)
  · rcases hq with hq | hq
    · cases hq
    · exact .inr (.inl ⟨mem_singleton.1 hq, hr⟩)

/-! ## New temporaries -/

/-- **A pool grows by temporaries.** -/
structure Pool.Grows (pool pool' : Pool) : Prop where
  length_le : pool.registers.length ≤ pool'.registers.length
  temporaries : ∀ r, r ∈ pool'.temporaries ↔
    r ∈ pool.temporaries ∨ pool.registers.length ≤ r ∧ r < pool'.registers.length

theorem Pool.Grows.refl {pool : Pool} : pool.Grows pool :=
  ⟨Nat.le.refl, fun _ => ⟨.inl, fun h => h.resolve_right fun h => Nat.not_lt.2 h.1 h.2⟩⟩

theorem Pool.Grows.trans {pool pool1 pool2 : Pool} (h : pool.Grows pool1) (h' : pool1.Grows pool2) :
    pool.Grows pool2 := by
  have := h.length_le
  have := h'.length_le
  refine ⟨by omega, fun r => ?_⟩
  rw [h'.temporaries, h.temporaries, or_assoc]
  exact or_congr_right (by omega)

/-- A pool with one more temporary. -/
def Pool.push (pool : Pool) (ty : Ty) : Pool where
  registers := pool.registers ++ [ty]
  temporaries := pool.temporaries.insert pool.registers.length

theorem Pool.grows_push (pool : Pool) (ty : Ty) : pool.Grows (pool.push ty) := by
  refine ⟨by simp [push], fun r => ?_⟩
  simp only [push, IdSet.mem_insert, length_append, length_singleton]
  rw [or_comm]
  exact or_congr_right (by omega)

/-- The pool after a step that takes a temporary if it needs one. -/
def Pool.pushIf (pool : Pool) (ty : Ty) (needed : Prop) [Decidable needed] : Pool :=
  if needed then pool.push ty else pool

theorem Pool.grows_pushIf (pool : Pool) (ty : Ty) (needed : Prop) [Decidable needed] :
    pool.Grows (pool.pushIf ty needed) ∧ (pool.pushIf ty needed).registers.length =
      pool.registers.length + if needed then 1 else 0 := by
  unfold pushIf
  split
  · exact ⟨pool.grows_push ty, by simp [push]⟩
  · exact ⟨.refl, rfl⟩

theorem spillReads_eq (r : Reg) (slot : Slot) (ty : Ty) (i : Instr Reg) (pool : Pool) :
    spillReads r slot ty i pool =
      ((if r ∈ i.uses then [.spillLoad pool.registers.length slot] else [],
        i.mapUses fun q => if q = r then pool.registers.length else q),
        pool.pushIf ty (r ∈ i.uses)) := by
  by_cases hr : r ∈ i.uses
  · have hcontains : i.uses.contains r = true := contains_iff_mem.2 hr
    simp only [spillReads, hcontains, if_true, if_pos hr, Pool.pushIf]
    rfl
  · have hcontains : ¬i.uses.contains r = true := fun h => hr (contains_iff_mem.1 h)
    have hself : i.mapUses (fun q => if q = r then pool.registers.length else q) = i :=
      Instr.mapUses_eq_self fun q hq => if_neg fun heq : q = r => hr (heq ▸ hq)
    rw [spillReads, if_neg hcontains, if_neg hr, hself, Pool.pushIf, if_neg hr]
    rfl

theorem spillWrite_eq (r : Reg) (slot : Slot) (ty : Ty) (i : Instr Reg) (pool : Pool) :
    spillWrite r slot ty i pool =
      ((i.mapDef fun d => if d = r then pool.registers.length else d,
        if i.def? = some r then [.spillStore slot pool.registers.length] else []),
        pool.pushIf ty (i.def? = some r)) := by
  by_cases hr : i.def? = some r
  · have hdef : i.mapDef (fun d => if d = r then pool.registers.length else d) =
        i.mapDef fun _ => pool.registers.length :=
      Instr.mapDef_congr fun d hd => if_pos (Option.some.inj (hd.symm.trans hr))
    rw [spillWrite, if_pos hr, if_pos hr, hdef, Pool.pushIf, if_pos hr]
    rfl
  · have hself : i.mapDef (fun d => if d = r then pool.registers.length else d) = i := by
      refine (Instr.mapDef_congr fun d hd => ?_ : _ = i.mapDef id).trans (by cases i <;> rfl)
      exact if_neg fun heq : d = r => hr (heq ▸ hd)
    rw [spillWrite, if_neg hr, if_neg hr, hself, Pool.pushIf, if_neg hr]
    rfl

/-- **What spilling makes of an instruction.** -/
theorem spillInstr_eq (r : Reg) (slot : Slot) (ty : Ty) (i : Instr Reg) (pool : Pool) :
    spillInstr r slot ty i pool =
      (i.withSlot r slot pool.registers.length (pool.pushIf ty (r ∈ i.uses)).registers.length,
        (pool.pushIf ty (r ∈ i.uses)).pushIf ty (i.def? = some r)) := by
  have hseq : spillInstr r slot ty i pool =
      let reads := spillReads r slot ty i pool
      let writes := spillWrite r slot ty reads.1.2 reads.2
      (reads.1.1 ++ writes.1.1 :: writes.1.2, writes.2) := rfl
  rw [hseq, spillReads_eq]
  simp only [spillWrite_eq, Instr.def?_mapUses]
  rfl

/-- Code of an instruction whose temporaries are registers from `lo` to `hi`. -/
def CodeOf (r : Reg) (slot : Slot) (lo hi : Nat) (i : Instr Reg) (code : List (Instr Reg)) : Prop :=
  ∃ t t', lo ≤ t ∧ (r ∈ i.uses → t < hi) ∧ lo ≤ t' ∧ (i.def? = some r → t' < hi) ∧
    code = i.withSlot r slot t t'

/-- Code of an instruction whose temporaries are all registers from `lo` to `hi`. -/
def CodeAt (r : Reg) (slot : Slot) (lo hi : Nat) (i : Instr Reg) (code : List (Instr Reg)) : Prop :=
  let t' := lo + if r ∈ i.uses then 1 else 0
  hi = t' + (if i.def? = some r then 1 else 0) ∧ code = i.withSlot r slot lo t'

/-- Results whose numbers follow each other from `lo` to `hi`. -/
inductive InTurn {α β : Type} (P : Nat → Nat → α → β → Prop) : Nat → Nat → List α → List β → Prop
  | nil {lo} : InTurn P lo lo [] []
  | cons {lo mid hi a b as bs} : P lo mid a b → InTurn P mid hi as bs →
    InTurn P lo hi (a :: as) (b :: bs)

namespace InTurn

variable {α β : Type} {P : Nat → Nat → α → β → Prop} {lo hi : Nat} {as : List α} {bs : List β}
  (hP : ∀ {lo hi a b}, P lo hi a b → lo ≤ hi) (h : InTurn P lo hi as bs)
include hP h

theorem le : lo ≤ hi := by
  induction h with
  | nil => exact Nat.le.refl
  | cons hab _ ih => exact (hP hab).trans ih

theorem forall₂ : Forall₂ (fun a b => ∃ lo' hi', lo ≤ lo' ∧ hi' ≤ hi ∧ P lo' hi' a b) as bs := by
  induction h with
  | nil => exact .nil
  | cons hab hrest ih =>
    refine .cons ⟨_, _, Nat.le.refl, hrest.le hP, hab⟩ (ih.imp fun a b => ?_)
    rintro ⟨lo', hi', hlo, hhi, hab'⟩
    exact ⟨lo', hi', (hP hab).trans hlo, hhi, hab'⟩

omit hP in
/-- Every number belongs to one of the results. -/
theorem split {q} (hlo : lo ≤ q) (hhi : q < hi) :
    ∃ as1 a as2 bs1 b bs2 lo' hi', as = as1 ++ a :: as2 ∧ bs = bs1 ++ b :: bs2 ∧
      lo' ≤ q ∧ q < hi' ∧ P lo' hi' a b ∧ InTurn P lo lo' as1 bs1 ∧ InTurn P hi' hi as2 bs2 := by
  induction h with
  | nil => omega
  | @cons lo mid hi a b as bs hab hrest ih =>
    by_cases hq : q < mid
    · exact ⟨[], a, as, [], b, bs, lo, mid, rfl, rfl, hlo, hq, hab, .nil, hrest⟩
    · obtain ⟨as1, x, as2, bs1, y, bs2, lo', hi', rfl, rfl, hle, hlt, hxy, hbefore, hafter⟩ :=
        ih (by omega) hhi
      exact ⟨a :: as1, x, as2, b :: bs1, y, bs2, lo', hi', rfl, rfl, hle, hlt, hxy,
        .cons hab hbefore, hafter⟩

end InTurn

theorem CodeOf.mono (hlo : lo ≤ lo') (hhi : hi' ≤ hi)
    (h : CodeOf r slot lo' hi' i code) : CodeOf r slot lo hi i code := by
  obtain ⟨t, t', hlt, ht, hlt', ht', hcode⟩ := h
  exact ⟨t, t', by omega, fun hr => by have := ht hr; omega, by omega,
    fun hr => by have := ht' hr; omega, hcode⟩

/-- A step that takes temporaries from a pool, and what its result is. -/
def Takes {β : Type} (x : StateM Pool β) (P : Nat → Nat → β → Prop) : Prop :=
  ∀ pool, pool.Grows (x pool).2 ∧ P pool.registers.length (x pool).2.registers.length (x pool).1

theorem takes_spillInstr (r : Reg) (slot : Slot) (ty : Ty) (i : Instr Reg) :
    Takes (spillInstr r slot ty i) fun lo hi code => CodeAt r slot lo hi i code := by
  intro pool
  rw [spillInstr_eq]
  obtain ⟨hgrows, hreads⟩ := pool.grows_pushIf ty (r ∈ i.uses)
  obtain ⟨hgrows', hwrites⟩ := (pool.pushIf ty (r ∈ i.uses)).grows_pushIf ty (i.def? = some r)
  rw [hreads] at hwrites ⊢
  exact ⟨hgrows.trans hgrows', hwrites, rfl⟩

/-- Steps one after the other take different temporaries. -/
theorem takes_mapM {α β : Type} {step : α → StateM Pool β} {P}
    (hstep : ∀ a, Takes (step a) fun lo hi b => P lo hi a b) (xs : List α) :
    Takes (xs.mapM step) fun lo hi ys => InTurn P lo hi xs ys := by
  induction xs with
  | nil => exact fun pool => ⟨.refl, .nil⟩
  | cons x xs ih =>
    intro pool
    obtain ⟨hfirst, hx⟩ := hstep x pool
    obtain ⟨hrest, hxs⟩ := ih (step x pool).2
    have hrun : (x :: xs).mapM step pool =
        ((step x pool).1 :: (xs.mapM step (step x pool).2).1,
          (xs.mapM step (step x pool).2).2) := by
      rw [mapM_cons]
      rfl
    rw [hrun]
    exact ⟨hfirst.trans hrest, .cons hx hxs⟩

/-! ## Functions -/

/-- What is done on arrival in a block: a parameter is stored. -/
def Function.arrival (f : Function Reg) (r : Reg) (slot : Slot) (l : Label) : List (Instr Reg) :=
  if l = entry ∧ r ∈ f.params then [.spillStore slot r] else []

/-- A block whose instructions are replaced by their code. -/
def BlockCode (f : Function Reg) (r : Reg) (slot : Slot) (lo hi : Nat) (p : Block Reg × Label)
    (c : Block Reg) : Prop :=
  ∃ codes, InTurn (CodeAt r slot) lo hi p.1.instrs codes ∧
    c = { p.1 with instrs := f.arrival r slot p.2 ++ codes.flatten }

/-- **A function in which a register was moved to a slot.** -/
structure Function.Spills (f : Function Reg) (r : Reg) (slot : Slot) (g : Function Reg) : Prop where
  name : g.name = f.name
  params : g.params = f.params
  lt : r < f.registers.length
  length_le : f.registers.length ≤ g.registers.length
  blocks : InTurn (BlockCode f r slot) f.registers.length g.registers.length f.blocks.zipIdx g.blocks

theorem takes_spillBlocks (f : Function Reg) (r : Reg) (slot : Slot) (ty : Ty) :
    Takes (spillBlocks f r slot ty) fun lo hi blocks =>
      InTurn (BlockCode f r slot) lo hi f.blocks.zipIdx blocks := by
  refine takes_mapM (fun p pool => ?_) _
  obtain ⟨hgrows, hcodes⟩ := takes_mapM (takes_spillInstr r slot ty) p.1.instrs pool
  exact ⟨hgrows, _, hcodes, rfl⟩

theorem CodeAt.le (h : CodeAt r slot lo hi i code) : lo ≤ hi := by
  have := h.1
  omega

/-- Temporaries in turn are registers from the first one to the last one. -/
theorem InTurn.codes {lo hi is codes} (h : InTurn (CodeAt r slot) lo hi is codes) :
    Forall₂ (CodeOf r slot lo hi) is codes := by
  refine (h.forall₂ CodeAt.le).imp fun i code => ?_
  rintro ⟨lo', hi', hlo, hhi, hlast, rfl⟩
  refine ⟨_, _, hlo, fun hr => ?_, by omega, fun hd => ?_, rfl⟩
  · rw [if_pos hr] at hlast
    omega
  · rw [if_pos hd] at hlast
    omega

theorem BlockCode.le (h : BlockCode f r slot lo hi p c) : lo ≤ hi :=
  h.elim fun _ h => h.1.le CodeAt.le

/-- **Spilling moves a register to its slot**, and tells which registers are temporaries now. -/
theorem spills_spill {f : Function Reg} (hr : r < f.registers.length) (slot : Slot)
    (temporaries : IdSet) :
    f.Spills r slot (f.spill r slot temporaries).1 ∧
      ∀ q, q ∈ (f.spill r slot temporaries).2 ↔ (q ∈ temporaries ∨ q = r ∧ r ∈ f.params) ∨
        f.registers.length ≤ q ∧ q < (f.spill r slot temporaries).1.registers.length := by
  have hget : f.registers[r]? = some f.registers[r] := getElem?_eq_getElem hr
  unfold Function.spill
  rw [hget]
  obtain ⟨hgrows, hblocks⟩ := takes_spillBlocks f r slot f.registers[r]
    { registers := f.registers
      temporaries := if r ∈ f.params then temporaries.insert r else temporaries }
  refine ⟨⟨rfl, rfl, hr, hgrows.length_le, hblocks⟩, fun q => (hgrows.temporaries q).trans ?_⟩
  refine or_congr_left ?_
  split
  · rename_i hparam
    simp [hparam, or_comm]
  · rename_i hparam
    simp [hparam]

theorem Instr.isTerminator_of_mem_withSlot (hj : j ∈ i.withSlot r slot t t')
    (hi : i.isTerminator = false) : j.isTerminator = false := by
  rcases mem_withSlot hj with ⟨-, rfl⟩ | rfl | ⟨-, rfl⟩
  · rfl
  · rw [(attributes_instead r t t' i).1, hi]
  · rfl

theorem Instr.withSlot_of_isTerminator (hi : i.isTerminator = true) :
    i.withSlot r slot t t' =
      (if r ∈ i.uses then [.spillLoad t slot] else []) ++ [i.instead r t t'] := by
  have hdef : i.def? = none := by cases i <;> first | rfl | cases hi
  simp only [withSlot, hdef, reduceCtorEq, if_false]

/-- The code of a whole block is whole, and its last instruction is that of the block with other
registers. -/
theorem exists_last_code (hlast : last.isTerminator = true)
    (hbody : ∀ i ∈ body, i.isTerminator = false)
    (h : Forall₂ (CodeOf r slot lo hi) (body ++ [last]) codes) :
    ∃ body' t t', codes.flatten = body' ++ [last.instead r t t'] ∧
      ∀ j ∈ body', j.isTerminator = false := by
  obtain ⟨codes, _, rfl, hcodes, t, t', -, -, -, -, rfl⟩ := exists_concat_of_forall₂ h
  refine ⟨codes.flatten ++ if r ∈ last.uses then [.spillLoad t slot] else [], t, t', ?_, ?_⟩
  · rw [flatten_append, flatten_singleton, Instr.withSlot_of_isTerminator hlast, append_assoc]
  · intro j hj
    rcases mem_append.1 hj with hj | hj
    · obtain ⟨code, hcode, hj⟩ := mem_flatten.1 hj
      obtain ⟨n, hn⟩ := getElem?_of_mem hcode
      obtain ⟨i, hi, _, _, -, -, -, -, rfl⟩ := getElem?_of_forall₂ hcodes.flip hn
      exact Instr.isTerminator_of_mem_withSlot hj (hbody i (mem_of_getElem? hi))
    · split at hj
      · rw [mem_singleton.1 hj]
        rfl
      · exact nomatch hj

namespace Function.Spills

variable {f g : Function Reg} {l : Label} {b c : Block Reg}

variable (h : f.Spills r slot g)
include h

theorem length_blocks : g.blocks.length = f.blocks.length := by
  rw [← (h.blocks.forall₂ BlockCode.le).length_eq, length_zipIdx]

theorem block (hb : f.blocks[l]? = some b) :
    ∃ codes, Forall₂ (CodeOf r slot f.registers.length g.registers.length) b.instrs codes ∧
      g.blocks[l]? = some { b with instrs := f.arrival r slot l ++ codes.flatten } := by
  have hzip : f.blocks.zipIdx[l]? = some (b, l) := by simp [hb]
  obtain ⟨_, hc, lo, hi, hlo, hhi, codes, hcodes, rfl⟩ :=
    getElem?_of_forall₂ (h.blocks.forall₂ BlockCode.le) hzip
  exact ⟨codes, hcodes.codes.imp fun _ _ => CodeOf.mono hlo hhi, hc⟩

theorem of_block (hc : g.blocks[l]? = some c) :
    ∃ b codes, f.blocks[l]? = some b ∧
      Forall₂ (CodeOf r slot f.registers.length g.registers.length) b.instrs codes ∧
      c = { b with instrs := f.arrival r slot l ++ codes.flatten } := by
  have hlt := (List.getElem?_eq_some_iff.1 hc).1
  rw [h.length_blocks] at hlt
  have hb := getElem?_eq_getElem hlt
  obtain ⟨codes, hcodes, hc'⟩ := h.block hb
  exact ⟨_, codes, hb, hcodes, Option.some.inj (hc.symm.trans hc')⟩

/-- Every instruction is in the code of one that was there before, apart from the store of a
parameter on arrival. -/
theorem of_instr (hj : j ∈ g.instructions) :
    r ∈ f.params ∧ j = .spillStore slot r ∨ ∃ i ∈ f.instructions, ∃ code,
      CodeOf r slot f.registers.length g.registers.length i code ∧ j ∈ code := by
  obtain ⟨c, hc, hj⟩ := mem_flatMap.1 hj
  obtain ⟨l, hl⟩ := getElem?_of_mem hc
  obtain ⟨b, codes, hb, hcodes, rfl⟩ := h.of_block hl
  rcases mem_append.1 hj with hj | hj
  · unfold arrival at hj
    split at hj
    · rename_i harrival
      exact .inl ⟨harrival.2, mem_singleton.1 hj⟩
    · exact nomatch hj
  · obtain ⟨code, hcode, hj⟩ := mem_flatten.1 hj
    obtain ⟨n, hn⟩ := getElem?_of_mem hcode
    obtain ⟨i, hi, hcode⟩ := getElem?_of_forall₂ hcodes.flip hn
    exact .inr ⟨i, mem_flatMap.2 ⟨b, mem_of_getElem? hb, mem_of_getElem? hi⟩, code, hcode, hj⟩

/-- **What is mentioned after spilling:** temporaries, a parameter on arrival, and what was
mentioned before apart from the register. -/
theorem mentions (hq : g.Mentions q) :
    f.registers.length ≤ q ∧ q < g.registers.length ∨ q = r ∧ r ∈ f.params ∨
      q ≠ r ∧ f.Mentions q := by
  obtain ⟨j, hj, hq⟩ := hq
  obtain ⟨hr, rfl⟩ | ⟨i, hi, _, ⟨t, t', hlo, hhi, hlo', hhi', rfl⟩, hj⟩ := h.of_instr hj
  · rcases hq with hq | hq
    · cases hq
    · exact .inr (.inl ⟨mem_singleton.1 hq, hr⟩)
  · rcases Instr.mentions_of_mem_withSlot hj hq with ⟨rfl, hr⟩ | ⟨rfl, hr⟩ | ⟨hne, hq⟩
    · exact .inl ⟨hlo, hhi hr⟩
    · exact .inl ⟨hlo', hhi' hr⟩
    · exact .inr (.inr ⟨hne, i, hi, hq⟩)

/-- The slots that are used are those of before and the new one. -/
theorem slots (hj : j ∈ g.instructions) (hk : j.slot? = some k) :
    k = slot ∨ ∃ i ∈ f.instructions, i.slot? = some k := by
  obtain ⟨-, rfl⟩ | ⟨i, hi, _, ⟨t, t', -, -, -, -, rfl⟩, hj⟩ := h.of_instr hj
  · exact .inl (Option.some.inj hk).symm
  · rcases Instr.mem_withSlot hj with ⟨-, rfl⟩ | rfl | ⟨-, rfl⟩
    · exact .inl (Option.some.inj hk).symm
    · exact .inr ⟨i, hi, (Instr.attributes_instead r t t' i).2.2.2 ▸ hk⟩
    · exact .inl (Option.some.inj hk).symm

/-- A block stays whole and keeps its edges. -/
theorem outline (hb : f.blocks[l]? = some b) (hended : Ended b.instrs) :
    ∃ c, g.blocks[l]? = some c ∧ Ended c.instrs ∧ c.outline = b.outline := by
  obtain ⟨codes, hcodes, hc⟩ := h.block hb
  obtain ⟨body, last, heq, hlast, hbody⟩ := hended
  rw [heq] at hcodes
  obtain ⟨body', t, t', hflat, hbody'⟩ := exists_last_code hlast hbody hcodes
  obtain ⟨hterm, hret, hsucc, -⟩ := Instr.attributes_instead r t t' last
  let c : Block Reg := { b with instrs := f.arrival r slot l ++ codes.flatten }
  have hinstrs : c.instrs = (f.arrival r slot l ++ body') ++ [last.instead r t t'] := by
    rw [append_assoc, ← hflat]
  refine ⟨c, hc, ⟨_, _, hinstrs, hterm.trans hlast, fun j hj => ?_⟩, ?_⟩
  · rcases mem_append.1 hj with hj | hj
    · unfold arrival at hj
      split at hj
      · rw [mem_singleton.1 hj]
        rfl
      · exact nomatch hj
    · exact hbody' j hj
  · rw [Block.outline, c.successors_eq hinstrs (hterm.trans hlast), c.returns_eq hinstrs, hsucc,
      hret, Block.outline, b.successors_eq heq hlast, b.returns_eq heq]

theorem map_outline (hf : f.WellFormed) :
    f.blocks.map Block.outline = g.blocks.map Block.outline := by
  refine ext_getElem? fun l => ?_
  simp only [getElem?_map]
  cases hb : f.blocks[l]? with
  | none =>
    have hlen := h.length_blocks
    have hnone : g.blocks[l]? = none := by
      rw [List.getElem?_eq_none_iff] at hb ⊢
      omega
    rw [hnone]
  | some b =>
    obtain ⟨c, hc, -, houtline⟩ := h.outline hb (hf.ended b (mem_of_getElem? hb))
    rw [hc, Option.map_some, Option.map_some, houtline]

/-- **The function stays in order.** -/
theorem wellFormed (hf : f.WellFormed) : g.WellFormed := by
  have hlen := h.length_blocks
  have hblock : ∀ c ∈ g.blocks, ∃ b ∈ f.blocks, Ended c.instrs ∧ c.outline = b.outline := by
    intro c hc
    obtain ⟨l, hl⟩ := getElem?_of_mem hc
    obtain ⟨b, -, hb, -⟩ := h.of_block hl
    have hmem := mem_of_getElem? hb
    obtain ⟨c', hc', hended, houtline⟩ := h.outline hb (hf.ended b hmem)
    cases Option.some.inj (hl.symm.trans hc')
    exact ⟨b, hmem, hended, houtline⟩
  constructor
  · exact hlen ▸ hf.nonempty
  · exact fun c hc => let ⟨_, _, hended, _⟩ := hblock c hc; hended
  · intro c hc k hk
    obtain ⟨b, hb, -, houtline⟩ := hblock c hc
    have hsucc : c.successors = b.successors := congrArg (·.1) houtline
    exact hlen ▸ hf.target_lt b hb k (hsucc ▸ hk)
  · intro c hc j hj q hq
    have hle := h.length_le
    rcases h.mentions ⟨j, mem_flatMap.2 ⟨c, hc, hj⟩, hq⟩ with ⟨-, hlt⟩ | ⟨rfl, -⟩ | ⟨-, hq⟩
    · exact hlt
    · exact Nat.lt_of_lt_of_le h.lt hle
    · exact Nat.lt_of_lt_of_le (hf.lt_of_mentions hq) hle

/-- **The function is accepted as before.** -/
theorem verify (hf : Flow.verify f = .ok ()) : Flow.verify g = .ok () :=
  have hwf := wellFormed_of_verify hf
  verify_of_outline_eq hf (h.wellFormed hwf) (h.map_outline hwf)

end Function.Spills

/-! ## What is live once a register is spilled -/

variable {f g : Function Reg} {lo hi : Nat} {is : List (Instr Reg)}
  {codes : List (List (Instr Reg))} {out : IdSet}

theorem liveFrom_append (is js : List (Instr Reg)) :
    liveFrom out (is ++ js) = liveFrom (liveFrom out js) is := by
  induction is with
  | nil => rfl
  | cons i is ih => rw [cons_append, liveFrom_cons, liveFrom_cons, ih]

/-- The code of an instruction needs what the instruction needs, apart from the register, and
neither of the temporaries. -/
theorem mem_liveFrom_withSlot (hq : q ∈ liveFrom out (i.withSlot r slot t t')) :
    q ≠ r ∧ q ∈ i.uses ∨ q ∈ out ∧ (q = r ∨ i.def? ≠ some q) := by
  -- what is live before the instruction itself, in its new registers
  have hinstead : ∀ {after : IdSet}, q ∈ (i.instead r t t').liveBefore after → q ≠ t ∨ r ∉ i.uses →
      q ≠ r ∧ q ∈ i.uses ∨ q ∈ after ∧ (i.instead r t t').def? ≠ some q := by
    intro after hq ht
    refine (mem_liveBefore.1 hq).imp_left fun hread => ?_
    rw [Instr.uses_instead] at hread
    obtain ⟨u, hu, hq⟩ := mem_map.1 hread
    by_cases hur : u = r
    · rw [if_pos hur] at hq
      exact absurd (hur ▸ hu) (ht.resolve_left fun hne => hne hq.symm)
    · rw [if_neg hur] at hq
      exact hq ▸ ⟨hur, hu⟩
  have hbody : q ∈ (i.instead r t t').liveBefore
      (liveFrom out (if i.def? = some r then [.spillStore slot t'] else [])) ∧
      (q ≠ t ∨ r ∉ i.uses) := by
    rw [Instr.withSlot, liveFrom_append, liveFrom_cons] at hq
    by_cases hr : r ∈ i.uses
    · rw [if_pos hr, liveFrom_cons, mem_liveBefore] at hq
      rcases hq with hq | ⟨hq, hne⟩
      · cases hq
      · exact ⟨hq, .inl fun heq => hne (congrArg some heq.symm)⟩
    · rw [if_neg hr] at hq
      exact ⟨hq, .inr hr⟩
  rcases hinstead hbody.1 hbody.2 with hu | ⟨hq, hdef⟩
  · exact .inl hu
  · rw [Instr.def?_instead] at hdef
    by_cases hr : i.def? = some r
    · rw [hr, Option.map_some, if_pos rfl] at hdef
      rw [if_pos hr, liveFrom_cons, mem_liveBefore] at hq
      rcases hq with hq | ⟨hq, -⟩
      · exact absurd (congrArg some (mem_singleton.1 hq).symm) hdef
      · refine .inr ⟨hq, ?_⟩
        by_cases hqr : q = r
        · exact .inl hqr
        · exact .inr fun h => hqr (Option.some.inj (h.symm.trans hr))
    · rw [if_neg hr] at hq
      refine .inr ⟨hq, .inr fun hdq => hdef ?_⟩
      have hqr : q ≠ r := fun heq => hr (heq ▸ hdq)
      rw [hdq, Option.map_some, if_neg hqr]

/-- The code of a block needs what the block needs, apart from the register. -/
theorem mem_liveFrom_codes (hout : ∀ q ∈ out', q ≠ r ∧ q ∈ out ∨ q = r ∧ P)
    (h : Forall₂ (CodeOf r slot lo hi) is codes) :
    ∀ q ∈ liveFrom out' codes.flatten, q ≠ r ∧ q ∈ liveFrom out is ∨ q = r ∧ P := by
  induction h with
  | nil => exact hout
  | cons hcode _ ih =>
    intro q hq
    obtain ⟨t, t', -, -, -, -, rfl⟩ := hcode
    rw [flatten_cons, liveFrom_append] at hq
    rw [liveFrom_cons, mem_liveBefore]
    rcases mem_liveFrom_withSlot hq with ⟨hne, hu⟩ | ⟨hrest, hdef⟩
    · exact .inl ⟨hne, .inl hu⟩
    · rcases ih q hrest with ⟨hne, hlive⟩ | hP
      · exact .inl ⟨hne, .inr ⟨hlive, hdef.resolve_left hne⟩⟩
      · exact .inr hP

namespace Function.Spills

theorem successors_eq (h : f.Spills r slot g) (hf : f.WellFormed) (l : Label) :
    g.successors l = f.successors l :=
  (successors_of_outline_eq (h.map_outline hf) l).symm

/-- **What is live after spilling** was live before, apart from a parameter that is stored on
arrival. -/
theorem live (h : f.Spills r slot g) (hf : f.WellFormed) :
    ∀ l, ∀ q ∈ g.liveInAt l, q ≠ r ∧ q ∈ f.liveInAt l ∨ q = r ∧ r ∈ f.params := by
  refine liveInAt_least fun l c hc out hout q hq => ?_
  obtain ⟨b, codes, hb, hcodes, rfl⟩ := h.of_block hc
  have hout' : ∀ q ∈ out, q ≠ r ∧ q ∈ f.liveOutAt l ∨ q = r ∧ r ∈ f.params := by
    intro q hq
    obtain ⟨k, hk, hS⟩ := hout q hq
    have hk' : k ∈ f.successors l := by
      rw [← h.successors_eq hf]
      simpa [Function.successors, hc] using hk
    exact hS.imp_left fun hkept => ⟨hkept.1, mem_liveOutAt.2 ⟨k, hk', hkept.2⟩⟩
  rw [liveInAt_eq hb]
  rw [liveFrom_append] at hq
  unfold arrival at hq
  split at hq
  · rename_i harrival
    rcases mem_liveBefore.1 hq with hq | ⟨hq, -⟩
    · exact .inr ⟨mem_singleton.1 hq, harrival.2⟩
    · exact mem_liveFrom_codes hout' hcodes q hq
  · exact mem_liveFrom_codes hout' hcodes q hq

end Function.Spills

end Sluice.Flow
