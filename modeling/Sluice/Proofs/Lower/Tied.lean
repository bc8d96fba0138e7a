import Mathlib.Logic.Relation
import Sluice.Proofs.Lower.Places
import Sluice.Proofs.Lower.Shape

/-!
# Typed and tied builders

What was emitted while a function is built is well typed under the registers there are
so far (`Builder.Typed`), and blocks hang together (`Builder.Tied`): control comes to all
of them from the entry, but for those that were made and wait for an edge. Both only ever
gain. A register keeps its type when others are added, and an edge stays when
instructions are added, so the builder may go on in a block once there is an edge to it.
No step but the last one of a body returns.

Unfinished blocks are the one the builder is at, those that wait, and those that control
comes to but the builder did not yet (`Amid`). An expression is built from one block that
control comes to, to another, and leaves the others as they were (`Yields`).
-/

namespace Sluice.Flow

open List Build
open Typed (HasLocal LocalId Program)

/-! ## Builders -/

namespace Builder

/-- Control can go from a block to another. -/
def Leads (b : Builder) (k l : Label) : Prop :=
  ∃ is, b.blocks[k]? = some is ∧ ∃ i ∈ is, l ∈ i.successors

/-- Control can come to a block. -/
def Reaches (b : Builder) (l : Label) : Prop := Relation.ReflTransGen b.Leads entry l

variable {b b' : Builder} {is : List (Instr Reg)} {k l : Label}

/-- Control comes wherever it came before, if no block lost an instruction. -/
theorem Reaches.mono (h : b.Reaches l) (hgrows : ∀ (k : Label) is, b.blocks[k]? = some is →
    ∃ is', b'.blocks[k]? = some is' ∧ is ⊆ is') : b'.Reaches l := by
  refine Relation.ReflTransGen.mono (fun k l hkl => ?_) _ _ h
  obtain ⟨is, his, i, hi, hl⟩ := hkl
  obtain ⟨is', his', hsub⟩ := hgrows k is his
  exact ⟨is', his', i, hsub hi, hl⟩

theorem Reaches.adds (h : b.Reaches l) (is : List (Instr Reg)) : (b.adds is).Reaches l := by
  refine h.mono fun k js hjs => ⟨_, getElem?_blocks_adds hjs, ?_⟩
  split
  · exact subset_append_left _ _
  · exact Subset.refl _

theorem Reaches.addBlock (h : b.Reaches l) : b.addBlock.Reaches l := by
  refine h.mono fun k js hjs => ⟨js, ?_, Subset.refl _⟩
  rw [getElem?_blocks_addBlock (List.getElem?_eq_some_iff.1 hjs).1, hjs]

/-- An edge out of the current block leads on. -/
theorem reaches_adds (hcurrent : b.Reaches b.current) (hlt : b.current < b.blocks.length)
    (hi : i ∈ is) (hl : l ∈ i.successors) : (b.adds is).Reaches l := by
  refine (hcurrent.adds is).tail ⟨_, getElem?_blocks_adds (getElem?_eq_getElem hlt), i, ?_, hl⟩
  rw [if_pos rfl]
  exact mem_append_right _ hi

/-- **The blocks of a builder hang together:** control comes to all but some that wait for it, and
to some for sure. Nothing returns yet. -/
structure Tied (b : Builder) (W R : List Label) : Prop where
  covers : ∀ l < b.blocks.length, l ∈ W ∨ b.Reaches l
  reaches : ∀ l ∈ R, b.Reaches l
  goes_on : ∀ is ∈ b.blocks, ∀ i ∈ is, i.isRet = false

/-- **What a builder has emitted is well typed** in a function of a program: its instructions, its
objects and the registers of locals. -/
structure Typed (p : Program) (f : Typed.Function) (b : Builder) : Prop where
  instrs : ∀ is ∈ b.blocks, ∀ i ∈ is, i.WellTyped p f.ret b.registers
  filled : ∀ is ∈ b.blocks, Filled is
  locals : ∀ id r, b.locals.lookup id = some r →
    ∃ ty, HasLocal f.locals id ty ∧ b.registers[r]? = some ty

namespace Tied

variable {W V R S : List Label}

theorem addRegister (h : b.Tied W R) (ty : Ty) (bound : List (LocalId × Reg)) :
    (b.addRegister ty bound).Tied W R :=
  ⟨h.covers, h.reaches, h.goes_on⟩

/-- A new block waits. -/
theorem addBlock (h : b.Tied W R) : b.addBlock.Tied (b.blocks.length :: W) R where
  covers l hl := by
    rw [length_blocks_addBlock] at hl
    rcases Nat.lt_succ_iff_lt_or_eq.1 hl with hl | rfl
    · exact (h.covers l hl).imp (mem_cons_of_mem _) Reaches.addBlock
    · exact .inl mem_cons_self
  reaches l hl := (h.reaches l hl).addBlock
  goes_on is his i hi := by
    rcases mem_append.1 his with his | his
    · exact h.goes_on is his i hi
    · rw [mem_singleton.1 his] at hi
      exact nomatch hi

/-- Control comes to the targets of what is added to a block that it comes to, so they need not
wait. -/
theorem adds (h : b.Tied W R) (hcurrent : b.Reaches b.current) (hlt : b.current < b.blocks.length)
    (hret : ∀ i ∈ is, i.isRet = false) (hW : ∀ l ∈ W, l ∈ V ∨ l ∈ S)
    (hR : ∀ l ∈ S, l ∈ R ∨ ∃ i ∈ is, l ∈ i.successors) : (b.adds is).Tied V S := by
  have hreaches : ∀ l ∈ S, (b.adds is).Reaches l := by
    intro l hl
    rcases hR l hl with hl | ⟨i, hi, hsucc⟩
    · exact (h.reaches l hl).adds is
    · exact reaches_adds hcurrent hlt hi hsucc
  refine ⟨fun l hl => ?_, hreaches, fun js hjs i hi => ?_⟩
  · rw [length_blocks_adds] at hl
    rcases h.covers l hl with hl | hreach
    · exact (hW l hl).imp id (hreaches l)
    · exact .inr (hreach.adds is)
  · rcases mem_blocks_adds hjs with hjs | ⟨old, hold, rfl⟩
    · exact h.goes_on js hjs i hi
    · exact (mem_append.1 hi).elim (h.goes_on old hold i) (hret i)

end Tied

namespace Typed

variable {p : Program} {f : Typed.Function}

theorem moveTo (h : b.Typed p f) (l : Label) : (b.moveTo l).Typed p f :=
  ⟨h.instrs, h.filled, h.locals⟩

theorem addBlock (h : b.Typed p f) : b.addBlock.Typed p f where
  instrs is his i hi := by
    rcases mem_append.1 his with his | his
    · exact h.instrs is his i hi
    · rw [mem_singleton.1 his] at hi
      exact nomatch hi
  filled is his := by
    rcases mem_append.1 his with his | his
    · exact h.filled is his
    · rw [mem_singleton.1 his]
      exact .nil
  locals := h.locals

theorem adds (h : b.Typed p f) (his : ∀ i ∈ is, i.WellTyped p f.ret b.registers)
    (hfilled : Filled is) : (b.adds is).Typed p f where
  instrs js hjs i hi := by
    rcases mem_blocks_adds hjs with hjs | ⟨old, hold, rfl⟩
    · exact h.instrs js hjs i hi
    · exact (mem_append.1 hi).elim (h.instrs old hold i) (his i)
  filled js hjs := by
    rcases mem_blocks_adds hjs with hjs | ⟨old, hold, rfl⟩
    · exact h.filled js hjs
    · exact (h.filled old hold).append hfilled
  locals := h.locals

/-- One more register changes no type. -/
theorem addRegister (h : b.Typed p f) (hbound : ∀ id r, bound.lookup id = some r →
      ∃ ty', HasLocal f.locals id ty' ∧ (b.registers ++ [ty])[r]? = some ty') :
    (b.addRegister ty bound).Typed p f where
  instrs is his i hi := (h.instrs is his i hi).mono (prefix_append _ _)
  filled := h.filled
  locals := hbound

/-- The registers of locals keep their types. -/
theorem locals_append (h : b.Typed p f) (ty : Ty) {id r} (hr : b.locals.lookup id = some r) :
    ∃ ty', HasLocal f.locals id ty' ∧ (b.registers ++ [ty])[r]? = some ty' := by
  obtain ⟨ty', hlocal, hreg⟩ := h.locals id r hr
  exact ⟨ty', hlocal, getElem?_of_isPrefix hreg (prefix_append _ _)⟩

end Typed

end Builder

/-! ## Steps -/

/-- **The builder is at a block that control comes to.** It has at least the registers of a list,
and what it emitted is well typed. But for that block all are whole that neither wait for an edge
nor for the builder. -/
structure Amid (p : Program) (f : Typed.Function) (Γ : List Ty) (W R : List Label) (b : Builder) :
    Prop where
  registers : Γ <+: b.registers
  typed : b.Typed p f
  tied : b.Tied W R
  whole : b.Whole (b.current :: (W ++ R))
  entry_old : entry ∉ W ++ R
  current_reached : b.Reaches b.current

/-- The builder has left the block it was at. -/
structure Past (p : Program) (f : Typed.Function) (Γ : List Ty) (W R : List Label) (b : Builder) :
    Prop where
  registers : Γ <+: b.registers
  typed : b.Typed p f
  tied : b.Tied W R
  whole : b.Whole (W ++ R)
  entry_old : entry ∉ W ++ R

/-- **A step from a block that control comes to, to another.** All blocks it makes on the way are
tied in and whole, and registers that were there keep their types. -/
def Yields {α : Type} (p : Program) (f : Typed.Function) (Γ : List Ty) (x : Build α)
    (Q : List Ty → α → Prop) : Prop :=
  ∀ W R, Ensures (Amid p f Γ W R) x fun a b => ∃ Γ', Γ <+: Γ' ∧ Q Γ' a ∧ Amid p f Γ' W R b

variable {α β : Type} {p : Program} {f : Typed.Function} {Γ Γ' : List Ty} {W V R S : List Label}
  {x : Build α} {k : α → Build β} {Q : β → Builder → Prop} {i : Instr Reg} {o : Operand Reg}
  {r dst : Reg} {l meeting : Label} {ty : Ty} {b : Builder}

theorem Past.narrow (h : Past p f Γ' W R b) (hpre : Γ <+: Γ') : Past p f Γ W R b :=
  ⟨hpre.trans h.registers, h.typed, h.tied, h.whole, h.entry_old⟩

namespace Amid

theorem narrow (h : Amid p f Γ' W R b) (hpre : Γ <+: Γ') : Amid p f Γ W R b :=
  ⟨hpre.trans h.registers, h.typed, h.tied, h.whole, h.entry_old, h.current_reached⟩

/-- The builder has all registers there are. -/
theorem widen (h : Amid p f Γ W R b) : Amid p f b.registers W R b :=
  ⟨prefix_rfl, h.typed, h.tied, h.whole, h.entry_old, h.current_reached⟩

theorem current_lt (h : Amid p f Γ W R b) : b.current < b.blocks.length :=
  h.whole.lt_length mem_cons_self

/-- Instructions that end no block. -/
theorem adds (h : Amid p f Γ W R b) (hterm : ∀ i ∈ is, i.isTerminator = false)
    (his : ∀ i ∈ is, i.WellTyped p f.ret Γ) (hfilled : Filled is) : Amid p f Γ W R (b.adds is) := by
  have hret : ∀ i ∈ is, i.isRet = false := by
    intro i hi
    have := hterm i hi
    cases i <;> first | rfl | cases this
  exact ⟨h.registers, h.typed.adds (fun i hi => (his i hi).mono h.registers) hfilled,
    h.tied.adds h.current_reached h.current_lt hret (fun _ => .inl) (fun _ => .inl),
    h.whole.adds hterm, h.entry_old, h.current_reached.adds is⟩

theorem newBlock {k} (hk : ∀ l, Ensures (Amid p f Γ (l :: W) R) (k l) Q) :
    Ensures (Amid p f Γ W R) (newBlock >>= k) Q := by
  intro b c b' hb h
  refine hk b.blocks.length b.addBlock c b' ⟨hb.registers, hb.typed.addBlock, hb.tied.addBlock,
    hb.whole.addBlock.perm (.swap ..), ?_, hb.current_reached.addBlock⟩ h
  exact fun hmem => (mem_cons.1 hmem).elim (Nat.ne_of_lt hb.whole.nonempty) hb.entry_old

/-- An instruction that leaves the block goes to blocks that are known. They need not wait any
more. -/
theorem leave {k} (hterm : i.isTerminator = true) (hret : i.isRet = false)
    (hi : i.WellTyped p f.ret Γ) (hperm : (W ++ R).Perm (V ++ S))
    (htarget : ∀ l ∈ i.successors, l ∈ S) (hR : ∀ l ∈ S, l ∈ R ∨ l ∈ i.successors)
    (hk : Ensures (Past p f Γ V S) (k ()) Q) : Ensures (Amid p f Γ W R) (emit i >>= k) Q := by
  intro b c b' hb h
  have hold : ∀ l ∈ V ++ S, l ≠ entry := by
    rintro l hl rfl
    exact hb.entry_old (hperm.mem_iff.2 hl)
  refine hk (b.adds [i]) c b' ⟨hb.registers, ?_, ?_, ?_, fun hmem => hold _ hmem rfl⟩ h
  · refine hb.typed.adds (forall_mem_singleton.2 (hi.mono hb.registers)) (.singleton ?_)
    cases i <;> first | rfl | cases hterm
  · refine hb.tied.adds hb.current_reached hb.current_lt (forall_mem_singleton.2 hret)
      (fun l hl => ?_) (by simpa using hR)
    exact mem_append.1 (hperm.mem_iff.1 (mem_append_left _ hl))
  · refine (hb.whole.perm (hperm.cons _)).finish hterm fun l hl => ?_
    have hmem := mem_append_right V (htarget l hl)
    exact ⟨hmem, hold l hmem⟩

theorem jump {k} (hperm : (W ++ R).Perm (V ++ S)) (hl : l ∈ S) (hR : ∀ l' ∈ S, l' = l ∨ l' ∈ R)
    (hk : Ensures (Past p f Γ V S) (k ()) Q) : Ensures (Amid p f Γ W R) (emit (.jump l) >>= k) Q :=
  leave rfl rfl trivial hperm (forall_mem_singleton.2 hl)
    (fun l' hl' => (hR l' hl').symm.imp id mem_singleton.2) hk

theorem branch {k} (ho : o.HasTy Γ .bool) (hperm : (W ++ R).Perm (V ++ S)) (hl : l ∈ S ∧ l' ∈ S)
    (hR : ∀ l'' ∈ S, l'' ∈ R ∨ l'' = l ∨ l'' = l') (hk : Ensures (Past p f Γ V S) (k ()) Q) :
    Ensures (Amid p f Γ W R) (emit (.branch o l l') >>= k) Q :=
  leave rfl rfl ho hperm (by simpa [Instr.successors] using hl)
    (by simpa [Instr.successors] using hR) hk

end Amid

/-- Going on in a block that control comes to. -/
theorem Past.switchTo {k} (hperm : R.Perm (l :: S))
    (hk : Ensures (Amid p f Γ W S) (k ()) Q) : Ensures (Past p f Γ W R) (switchTo l >>= k) Q := by
  intro b c b' hb h
  have hmem : ∀ k, k ∈ R ↔ k = l ∨ k ∈ S := fun k => hperm.mem_iff.trans mem_cons
  refine hk (b.moveTo l) c b' ⟨hb.registers, hb.typed.moveTo l, ⟨hb.tied.covers, fun k hk => ?_,
    hb.tied.goes_on⟩, ?_, fun hentry => ?_, hb.tied.reaches l ((hmem l).2 (.inl rfl))⟩ h
  · exact hb.tied.reaches k ((hmem k).2 (.inr hk))
  · exact (hb.whole.perm ((hperm.append_left W).trans perm_middle)).moveTo l
  · refine hb.entry_old ((mem_append.1 hentry).elim (mem_append_left _) fun hmem' => ?_)
    exact mem_append_right _ ((hmem _).2 (.inr hmem'))

namespace Yields

variable {A : List Ty → α → Prop} {B : List Ty → β → Prop}

/-- A step, and then another one. -/
theorem ensures (hx : Yields p f Γ x A)
    (hk : ∀ a Γ', Γ <+: Γ' → A Γ' a → Ensures (Amid p f Γ' W R) (k a) Q) :
    Ensures (Amid p f Γ W R) (x >>= k) Q := by
  refine (hx W R).bind fun a b c b' ⟨Γ', hpre, ha, hb⟩ h => ?_
  exact hk a Γ' hpre ha b c b' hb h

theorem pure (ha : A Γ a) : Yields p f Γ (pure a) A :=
  fun _ _ => .pure fun _ hb => ⟨Γ, prefix_rfl, ha, hb⟩

theorem bind (hx : Yields p f Γ x A) (hk : ∀ a Γ', Γ <+: Γ' → A Γ' a → Yields p f Γ' (k a) B) :
    Yields p f Γ (x >>= k) B := by
  refine fun W R => hx.ensures fun a Γ1 hpre1 ha b c b' hb h => ?_
  obtain ⟨Γ2, hpre2, hc⟩ := hk a Γ1 hpre1 ha W R b c b' hb h
  exact ⟨Γ2, hpre1.trans hpre2, hc⟩

theorem emit (hterm : i.isTerminator = false) (hobject : i.fillsObject = false)
    (hi : i.WellTyped p f.ret Γ) : Yields p f Γ (emit i) fun _ _ => True := by
  rintro W R b _ _ hb ⟨⟩
  exact ⟨Γ, prefix_rfl, trivial, hb.adds (forall_mem_singleton.2 hterm)
    (forall_mem_singleton.2 hi) (.singleton hobject)⟩

/-- The builder after a register was added has all registers there are. -/
theorem amid_addRegister (hb : Amid p f Γ W R b) (hbound : ∀ id r, bound.lookup id = some r →
      ∃ ty', HasLocal f.locals id ty' ∧ (b.registers ++ [ty])[r]? = some ty') :
    Amid p f (b.registers ++ [ty]) W R (b.addRegister ty bound) :=
  ⟨prefix_rfl, hb.typed.addRegister hbound, hb.tied.addRegister ty bound,
    hb.whole.addRegister ty bound, hb.entry_old, hb.current_reached⟩

theorem newRegister : Yields p f Γ (newRegister ty) fun Γ r => Γ[r]? = some ty := by
  rintro W R b _ _ hb ⟨⟩
  refine ⟨b.registers ++ [ty], hb.registers.trans (prefix_append _ _), by simp,
    amid_addRegister hb fun id r hr => hb.typed.locals_append ty hr⟩

/-- The register of a local has the type of the local. -/
theorem local_ty {id} (hb : Amid p f Γ W R b) (hlocal : HasLocal f.locals id ty)
    (hr : b.locals.lookup id = some r) : b.registers[r]? = some ty := by
  obtain ⟨ty', ⟨_, hl', rfl⟩, hreg⟩ := hb.typed.locals id r hr
  obtain ⟨_, hl, rfl⟩ := hlocal
  cases hl.symm.trans hl'
  exact hreg

theorem readLocal {id} (hlocal : HasLocal f.locals id ty) :
    Yields p f Γ (readLocal id) fun Γ r => Γ[r]? = some ty := by
  intro W R b r b' hb h
  simp only [Build.readLocal] at h
  split at h
  · rename_i hr
    cases h
    exact ⟨b.registers, hb.registers, local_ty hb hlocal hr, hb.widen⟩
  · cases h

theorem bindLocal {id} (hlocal : HasLocal f.locals id ty) :
    Yields p f Γ (bindLocal f id) fun Γ r => Γ[r]? = some ty := by
  intro W R b r b' hb h
  simp only [Build.bindLocal] at h
  split at h
  · rename_i hr
    cases h
    exact ⟨b.registers, hb.registers, local_ty hb hlocal hr, hb.widen⟩
  · obtain ⟨d, hd, rfl⟩ := hlocal
    rw [hd] at h
    cases h
    refine ⟨b.registers ++ [d.ty], hb.registers.trans (prefix_append _ _), by simp,
      amid_addRegister hb fun id' r hr => ?_⟩
    rw [lookup_cons] at hr
    split at hr
    · rename_i hid
      cases hr
      exact ⟨d.ty, ⟨d, beq_iff_eq.1 hid ▸ hd, rfl⟩, by simp⟩
    · exact hb.typed.locals_append d.ty hr

theorem forM {xs : List α} {k : α → Build Unit}
    (h : ∀ x ∈ xs, ∀ Γ', Γ <+: Γ' → Yields p f Γ' (k x) fun _ _ => True) :
    Yields p f Γ (xs.forM k) fun _ _ => True := by
  induction xs generalizing Γ with
  | nil => exact .pure trivial
  | cons x rest ih =>
    obtain ⟨hx, hrest⟩ := forall_mem_cons.1 h
    exact (hx Γ prefix_rfl).bind fun _ Γ1 hpre _ =>
      ih fun x hx Γ2 hpre' => hrest x hx Γ2 (hpre.trans hpre')

theorem inRegister (ho : o.HasTy Γ ty) :
    Yields p f Γ (inRegister ty o) fun Γ r => Γ[r]? = some ty := by
  cases o with
  | reg r => exact .pure ho
  | imm value =>
    refine newRegister.bind fun r Γ1 _ hr => (emit (i := .move r (.imm value)) rfl rfl ?_).bind
      fun _ Γ2 hpre _ => .pure (getElem?_of_isPrefix hr hpre)
    exact ⟨ty, hr, ho⟩

/-- A new register is written by an instruction. -/
theorem write {i : Reg → Instr Reg}
    (hi : ∀ r Γ', Γ <+: Γ' → Γ'[r]? = some ty → (i r).WellTyped p f.ret Γ')
    (hterm : ∀ r, (i r).isTerminator = false := by exact fun _ => rfl)
    (hobject : ∀ r, (i r).fillsObject = false := by exact fun _ => rfl) :
    Yields p f Γ (do
      let r ← Build.newRegister ty
      Build.emit (i r)
      return Operand.reg r) fun Γ o => o.HasTy Γ ty :=
  newRegister.bind fun r Γ1 hpre hr => (emit (hterm r) (hobject r) (hi r Γ1 hpre hr)).bind
    fun _ _ hpre' _ => .pure (getElem?_of_isPrefix hr hpre')

/-- Instructions that are emitted one after another are added together. -/
theorem run_forM_emit (i : α → Instr Reg) (xs : List α) (b : Builder) :
    (xs.forM fun x => Build.emit (i x)) b = .ok ((), b.adds (xs.map i)) := by
  induction xs generalizing b with
  | nil =>
    rw [map_nil, Builder.adds_nil]
    rfl
  | cons x rest ih =>
    have hrest := ih (b.adds [i x])
    rw [Builder.adds_adds] at hrest
    exact hrest

/-- **An object is made and filled.** -/
theorem object (hshape : shape.HasTy p.records ty)
    (hindices : (values.map (·.1)).Perm (List.range shape.size))
    (hvalues : ∀ x ∈ values, ∃ part, HasPart p.records ty x.1 part ∧ x.2.HasTy Γ part) :
    Yields p f Γ (object ty shape values) fun Γ o => o.HasTy Γ ty := by
  refine newRegister.bind fun r Γ1 hpre hr W R b a b' hb h => ?_
  have hstores := run_forM_emit (fun x : Nat × Operand Reg => Instr.store r x.1 x.2) values
    (b.adds [.alloc r shape []])
  rw [Builder.adds_adds] at hstores
  have hrun := run_bind (f := fun _ => (Pure.pure (Operand.reg r) : Build (Operand Reg))) hstores
  cases hrun.symm.trans h
  have hfilled : Filled (.alloc r shape [] :: values.map (fun x => .store r x.1 x.2) ++ []) :=
    .object hindices .nil
  rw [append_nil] at hfilled
  refine ⟨Γ1, prefix_rfl, hr, hb.adds ?_ ?_ hfilled⟩
  · refine forall_mem_cons.2 ⟨rfl, forall_mem_map.2 fun _ _ => rfl⟩
  · refine forall_mem_cons.2 ⟨⟨ty, hr, hshape⟩, forall_mem_map.2 fun x hx => ?_⟩
    obtain ⟨part, hpart, hx⟩ := hvalues x hx
    exact ⟨ty, part, hr, hpart, hx.mono hpre⟩

end Yields

end Sluice.Flow
