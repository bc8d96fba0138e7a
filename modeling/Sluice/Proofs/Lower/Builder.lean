import Mathlib.Data.List.Basic
import Mathlib.Logic.Function.Iterate
import Mathlib.Tactic.Common
import Sluice.Proofs.Lower.Code

/-!
# Building code

How the builder of a function comes to code. A builder only ever adds to the
block it is at, and never comes back to a block that has something in it. So
what it has built stays as it is in every function it can grow into
(`Layout.Covers`), and what a step of it emits is code of any such function
(`Builds`).
-/

namespace Sluice.Flow

open List
open Typed (LocalId)

/-! ## Builders -/

namespace Builder

/-- A local has a register. -/
def Binds (b : Builder) (id : LocalId) : Prop := ∃ r, b.locals.lookup id = some r

/-- **A builder in order:** it is at a block, locals have registers of their own, and all types are
known. -/
structure Good (b : Builder) : Prop where
  current_lt : b.current < b.blocks.length
  local_lt : ∀ id r, b.locals.lookup id = some r → r < b.registers.length
  local_inj : ∀ id id' r,
    b.locals.lookup id = some r → b.locals.lookup id' = some r → id = id'
  resolved : ∀ ty ∈ b.registers, ty.isUnresolved = false

/-- **What building leaves alone:** registers of locals stay, and so do blocks, except the current
one and some that it was given to fill. -/
structure Extends (own : List Label) (b b' : Builder) : Prop where
  binds : ∀ id, b.Binds id → b'.Binds id
  length_le : b.blocks.length ≤ b'.blocks.length
  old : ∀ l < b.blocks.length, l ≠ b.current → l ∉ own → b'.blocks[l]? = b.blocks[l]?
  current : b'.current = b.current ∨ b'.current ∈ own ∨ b.blocks.length ≤ b'.current

/-- The builder with an instruction added. -/
def add (b : Builder) (i : Instr Reg) : Builder :=
  { b with blocks := b.blocks.modify b.current (· ++ [i]) }

/-- The builder with an empty block added. -/
def addBlock (b : Builder) : Builder :=
  { b with blocks := b.blocks ++ [[]] }

/-- The builder at another block. -/
def moveTo (b : Builder) (l : Label) : Builder :=
  { b with current := l }

/-- The spot a builder is at, in a function it grows into. -/
def spot (b : Builder) (K : Layout) : Spot where
  next := b.registers.length
  rest := (K.blocks[b.current]?.getD []).drop (b.blocks[b.current]?.getD []).length

variable {b b' b'' : Builder} {own : List Label} {i : Instr Reg} {l : Label}

@[simp] theorem registers_add : (b.add i).registers = b.registers := rfl
@[simp] theorem current_add : (b.add i).current = b.current := rfl
@[simp] theorem registers_addBlock : b.addBlock.registers = b.registers := rfl
@[simp] theorem current_addBlock : b.addBlock.current = b.current := rfl
@[simp] theorem registers_moveTo : (b.moveTo l).registers = b.registers := rfl
@[simp] theorem current_moveTo : (b.moveTo l).current = l := rfl
@[simp] theorem blocks_moveTo : (b.moveTo l).blocks = b.blocks := rfl

@[simp] theorem length_blocks_add : (b.add i).blocks.length = b.blocks.length :=
  length_modify ..

@[simp] theorem length_blocks_addBlock : b.addBlock.blocks.length = b.blocks.length + 1 := by
  simp [addBlock]

/-- Other blocks stay as they are. -/
theorem getElem?_blocks_add (h : l ≠ b.current) : (b.add i).blocks[l]? = b.blocks[l]? := by
  simp [add, Ne.symm h]

/-- The current block gets the instruction. -/
theorem getElem?_blocks_add_current (hb : b.Good) :
    (b.add i).blocks[b.current]? = some ((b.blocks[b.current]?.getD []) ++ [i]) := by
  have h := hb.current_lt
  simp [add, h]

theorem getElem?_blocks_addBlock (h : l < b.blocks.length) : b.addBlock.blocks[l]? = b.blocks[l]? :=
  getElem?_append_left h

theorem getElem?_blocks_addBlock_last : b.addBlock.blocks[b.blocks.length]? = some [] := by
  simp [addBlock]

theorem Good.add (hb : b.Good) : (b.add i).Good :=
  ⟨by simpa using hb.current_lt, hb.local_lt, hb.local_inj, hb.resolved⟩

theorem Good.addBlock (hb : b.Good) : b.addBlock.Good :=
  ⟨by simpa using Nat.lt_succ_of_lt hb.current_lt, hb.local_lt, hb.local_inj, hb.resolved⟩

theorem Good.moveTo (hb : b.Good) (hl : b.blocks[l]? = some is) : (b.moveTo l).Good :=
  ⟨(List.getElem?_eq_some_iff.1 hl).1, hb.local_lt, hb.local_inj, hb.resolved⟩

namespace Extends

theorem refl : Extends own b b :=
  ⟨fun _ h => h, Nat.le.refl, fun _ _ _ _ => rfl, Or.inl rfl⟩

/-- One after the other. The second may also fill blocks that the first one made. -/
theorem trans_new (h : Extends own b b') (h' : Extends own' b' b'')
    (hown : ∀ l ∈ own', l ∈ own ∨ b.blocks.length ≤ l) : Extends own b b'' where
  binds id hid := h'.binds id (h.binds id hid)
  length_le := Nat.le_trans h.length_le h'.length_le
  old l hl hc ho := by
    have hc' : l ≠ b'.current := by
      rintro rfl
      rcases h.current with hcur | hcur | hcur
      · exact hc hcur
      · exact ho hcur
      · omega
    have ho' : l ∉ own' := fun hmem => by
      rcases hown l hmem with hmem | hle
      · exact ho hmem
      · omega
    rw [h'.old l (Nat.lt_of_lt_of_le hl h.length_le) hc' ho', h.old l hl hc ho]
  current := by
    rcases h'.current with hcur | hcur | hcur
    · rw [hcur]
      exact h.current
    · exact .inr (hown _ hcur)
    · exact .inr (.inr (Nat.le_trans h.length_le hcur))

theorem trans (h : Extends own b b') (h' : Extends own b' b'') : Extends own b b'' :=
  h.trans_new h' fun _ hl => .inl hl

theorem add (b : Builder) (i : Instr Reg) : Extends own b (b.add i) :=
  ⟨fun _ h => h, by simp, fun _ _ hc _ => getElem?_blocks_add hc, .inl rfl⟩

theorem addBlock (b : Builder) : Extends own b b.addBlock :=
  ⟨fun _ h => h, by simp, fun _ hl _ _ => getElem?_blocks_addBlock hl, .inl rfl⟩

/-- Going on in a block made on the way. -/
theorem moveTo (h : Extends own b b') (hl : l ∈ own ∨ b.blocks.length ≤ l) :
    Extends own b (b'.moveTo l) :=
  ⟨h.binds, h.length_le, h.old, .inr hl⟩

/-- An empty block that is not the current one stays empty, and is not entered. -/
theorem getElem?_eq_nil (h : Extends own b b') (hl : b.blocks[l]? = some []) (hc : l ≠ b.current)
    (ho : l ∉ own) : b'.blocks[l]? = some [] ∧ l ≠ b'.current := by
  have hlt : l < b.blocks.length := (List.getElem?_eq_some_iff.1 hl).1
  refine ⟨(h.old l hlt hc ho).trans hl, ?_⟩
  rintro rfl
  rcases h.current with hcur | hcur | hcur
  · exact hc hcur
  · exact ho hcur
  · exact absurd hlt (Nat.not_lt.2 hcur)

end Extends

end Builder

/-! ## The functions a builder grows into -/

/-- **A function has what a builder built:** the same registers for locals, and every block with
what it has so far. A block with something in it is finished, except for one that may still
grow. -/
structure Layout.Covers (K : Layout) (b : Builder) (growing : Option Label) : Prop where
  registers : b.registers <+: K.registers
  locals : ∀ id r, b.locals.lookup id = some r → K.reg? id = some r
  temps : ∀ id r, K.reg? id = some r → r < b.registers.length → b.locals.lookup id = some r
  blocks : ∀ l is, b.blocks[l]? = some is → ∃ is', K.blocks[l]? = some is' ∧ is <+: is' ∧
    (some l ≠ growing → is ≠ [] → is' = is)

namespace Layout

/-- The current block may still grow. -/
abbrev Inside (K : Layout) (b : Builder) : Prop := K.Covers b (some b.current)

/-- No block that has something in it grows. -/
abbrev Sealed (K : Layout) (b : Builder) : Prop := K.Covers b none

variable {K : Layout} {b : Builder} {i : Instr Reg} {l : Label}

theorem Sealed.inside (h : K.Sealed b) : K.Inside b where
  registers := h.registers
  locals := h.locals
  temps := h.temps
  blocks l is hl := by
    obtain ⟨is', hK, hpre, heq⟩ := h.blocks l is hl
    exact ⟨is', hK, hpre, fun _ => heq (by simp)⟩

/-- Once a builder goes on in an empty block, the block it was at is finished. -/
theorem Inside.seals (h : K.Inside (b.moveTo l)) (hl : b.blocks[l]? = some []) : K.Sealed b where
  registers := h.registers
  locals := h.locals
  temps := h.temps
  blocks l' is hl' := by
    obtain ⟨is', hK, hpre, heq⟩ := h.blocks l' is hl'
    refine ⟨is', hK, hpre, fun _ hne => heq ?_ hne⟩
    rintro ⟨⟩
    rw [Builder.current_moveTo, hl] at hl'
    cases hl'
    exact hne rfl

/-- A builder that just came to an empty block is at its start. -/
theorem Inside.starts (h : K.Inside (b.moveTo l)) (hl : b.blocks[l]? = some []) :
    K.blocks[l]? = some ((b.moveTo l).spot K).rest := by
  obtain ⟨is', hK, -, -⟩ := h.blocks l [] hl
  simp [Builder.spot, hK, hl]

/-- An instruction that was added comes next. -/
theorem Inside.of_add (hb : b.Good) (h : K.Inside (b.add i)) :
    K.Inside b ∧ (b.spot K).rest = i :: ((b.add i).spot K).rest := by
  obtain ⟨is', hK, hpre, -⟩ := h.blocks _ _ (Builder.getElem?_blocks_add_current hb)
  have hcur := getElem?_eq_getElem hb.current_lt
  constructor
  · refine ⟨h.registers, h.locals, h.temps, fun l is hl => ?_⟩
    by_cases hlc : l = b.current
    · subst hlc
      rw [hl] at hpre
      exact ⟨is', hK, (prefix_append ..).trans hpre, (absurd rfl)⟩
    · exact h.blocks l is ((Builder.getElem?_blocks_add hlc).trans hl)
  · obtain ⟨more, rfl⟩ := hpre
    simp [Builder.spot, hK, Builder.getElem?_blocks_add_current hb, hcur]

/-- The last instruction of a block that is finished is the only one left. -/
theorem Sealed.of_add (hb : b.Good) (h : K.Sealed (b.add i)) :
    K.Inside b ∧ (b.spot K).rest = [i] := by
  obtain ⟨hin, hrest⟩ := Inside.of_add hb h.inside
  refine ⟨hin, hrest.trans ?_⟩
  obtain ⟨is', hK, -, heq⟩ := h.blocks _ _ (Builder.getElem?_blocks_add_current hb)
  rw [heq (by simp) (by simp)] at hK
  simp [Builder.spot, hK, Builder.getElem?_blocks_add_current hb]

theorem Inside.of_addBlock (hb : b.Good) (h : K.Inside b.addBlock) :
    K.Inside b ∧ b.addBlock.spot K = b.spot K := by
  refine ⟨⟨h.registers, h.locals, h.temps, fun l is hl => ?_⟩, ?_⟩
  · exact h.blocks l is
      ((Builder.getElem?_blocks_addBlock (List.getElem?_eq_some_iff.1 hl).1).trans hl)
  · simp [Builder.spot, Builder.getElem?_blocks_addBlock hb.current_lt]

end Layout

/-- **A builder leaves its block** by an instruction, and has some new blocks to go on in. -/
structure Builder.Leaves (b : Builder) (i : Instr Reg) (count : Nat) (b' : Builder) : Prop where
  good : b'.Good
  grows : b.Extends [] b'
  empty : ∀ k < count, b'.blocks[b.blocks.length + k]? = some []
  back : ∀ K : Layout, K.Sealed b' → K.Inside b ∧ (b.spot K).rest = [i]

theorem Builder.Good.leaves {b : Builder} (hb : b.Good) (i : Instr Reg) (count : Nat) :
    b.Leaves i count ((Builder.addBlock^[count] b).add i) := by
  induction count generalizing b with
  | zero => exact ⟨hb.add, .add b i, nofun, fun K hK => Layout.Sealed.of_add hb hK⟩
  | succ count ih =>
    have h := ih hb.addBlock
    refine ⟨h.good, (Extends.addBlock b).trans h.grows, fun k hk => ?_, fun K hK => ?_⟩
    · cases k with
      | zero =>
        exact (h.grows.getElem?_eq_nil getElem?_blocks_addBlock_last (Nat.ne_of_gt hb.current_lt)
          not_mem_nil).1
      | succ k =>
        have hempty := h.empty k (Nat.lt_of_succ_lt_succ hk)
        rwa [length_blocks_addBlock, Nat.add_right_comm] at hempty
    · obtain ⟨hK1, hrest⟩ := h.back K hK
      obtain ⟨hK0, hspot⟩ := Layout.Inside.of_addBlock hb hK1
      exact ⟨hK0, hspot ▸ hrest⟩

/-! ## Steps of a builder -/

namespace Build

variable {α β : Type}

theorem run_bind {f : α → Build β} (h : x b = .ok (a, b')) : (x >>= f) b = f a b' := by
  simp only [bind, StateT.bind, h, Except.bind]

theorem run_newBlock (f : Label → Build α) (b : Builder) :
    (newBlock >>= f) b = f b.blocks.length b.addBlock := rfl

theorem run_emit (i : Instr Reg) (f : Unit → Build α) (b : Builder) :
    (emit i >>= f) b = f () (b.add i) := rfl

theorem run_switchTo (l : Label) (f : Unit → Build α) (b : Builder) :
    (switchTo l >>= f) b = f () (b.moveTo l) := rfl

/-- **A step of a builder gives code.** It succeeds where some locals have registers, and some have
them afterwards. -/
def Builds (scope : List LocalId) (x : Build α) (E : Code α) (scope' : List LocalId) : Prop :=
  ∀ b : Builder, b.Good → (∀ id ∈ scope, b.Binds id) →
    ∃ a b', x b = .ok (a, b') ∧ b'.Good ∧ b.Extends [] b' ∧ (∀ id ∈ scope', b'.Binds id) ∧
      ∀ K : Layout, K.Inside b' → K.Inside b ∧ E K (b.spot K) a (b'.spot K)

namespace Builds

variable {scope scope1 scope2 : List LocalId}

theorem pure (a : α) : Builds scope (pure a) (pure a) scope :=
  fun b hb hs => ⟨a, b, rfl, hb, .refl, hs, fun _ hK => ⟨hK, rfl, rfl⟩⟩

section

variable {x : Build α} {E : Code α} {f : α → Build β} {F : α → Code β}

/-- One step after another, where the result of the first is of some kind. -/
theorem bind_of (post : α → Prop) (hx : Builds scope x E scope1)
    (hpost : ∀ b a b', x b = .ok (a, b') → post a)
    (hf : ∀ a, post a → Builds scope1 (f a) (F a) scope2) :
    Builds scope (x >>= f) (E >>= F) scope2 := by
  intro b hb hs
  obtain ⟨a, b1, hrun1, hb1, hext1, hs1, hE⟩ := hx b hb hs
  obtain ⟨c, b2, hrun2, hb2, hext2, hs2, hF⟩ := hf a (hpost b a b1 hrun1) b1 hb1 hs1
  refine ⟨c, b2, (run_bind hrun1).trans hrun2, hb2, hext1.trans hext2, hs2, fun K hK => ?_⟩
  obtain ⟨hK1, hF⟩ := hF K hK
  obtain ⟨hK0, hE⟩ := hE K hK1
  exact ⟨hK0, a, b1.spot K, hE, hF⟩

/-- One step after another. -/
theorem bind (hx : Builds scope x E scope1) (hf : ∀ a, Builds scope1 (f a) (F a) scope2) :
    Builds scope (x >>= f) (E >>= F) scope2 :=
  bind_of (fun _ => True) hx (fun _ _ _ _ => trivial) fun a _ => hf a

theorem weaken (hx : Builds scope x E scope1)
    (h : ∀ id ∈ scope2, id ∈ scope1) : Builds scope x E scope2 := by
  intro b hb hs
  obtain ⟨a, b', hrun, hb', hext, hs', hE⟩ := hx b hb hs
  exact ⟨a, b', hrun, hb', hext, fun id hid => hs' id (h id hid), hE⟩

end

theorem emit (i : Instr Reg) : Builds scope (emit i) (Code.emit i) scope := by
  intro b hb hs
  refine ⟨(), b.add i, rfl, hb.add, .add b i, hs, fun K hK => ?_⟩
  obtain ⟨hin, hrest⟩ := Layout.Inside.of_add hb hK
  exact ⟨hin, hrest, rfl⟩

theorem newRegister (hty : ty.isUnresolved = false) :
    Builds scope (newRegister ty) (Code.temp ty) scope := by
  intro b hb hs
  refine ⟨b.registers.length, { b with registers := b.registers ++ [ty] }, rfl, ?_, ?_, hs, ?_⟩
  · refine ⟨hb.current_lt, fun id r hr => ?_, hb.local_inj, fun ty' hty' => ?_⟩
    · simpa using Nat.lt_succ_of_lt (hb.local_lt id r hr)
    · rcases mem_append.1 hty' with hty' | hty'
      · exact hb.resolved ty' hty'
      · rwa [mem_singleton.1 hty']
  · exact ⟨fun _ h => h, Nat.le.refl, fun _ _ _ _ => rfl, .inl rfl⟩
  · intro K hK
    have hlt : b.registers.length < (b.registers ++ [ty]).length := by simp
    refine ⟨⟨(prefix_append ..).trans hK.registers, hK.locals, fun id r hr hlt' => ?_,
      hK.blocks⟩, rfl, by simp [Builder.spot], rfl, ?_, fun id hid => ?_⟩
    · exact hK.temps id r hr (Nat.lt_trans hlt' hlt)
    · obtain ⟨more, hmore⟩ := hK.registers
      simp [← hmore]
    · exact Nat.lt_irrefl _ (hb.local_lt id _ (hK.temps id _ hid hlt))

theorem readLocal {id} (hid : id ∈ scope) :
    Builds scope (readLocal id) (Code.ofLocal id) scope := by
  intro b hb hs
  obtain ⟨r, hr⟩ := hs id hid
  refine ⟨r, b, by simp [Build.readLocal, hr], hb, .refl, hs, fun K hK => ?_⟩
  exact ⟨hK, hK.locals id r hr, rfl⟩

/-- A local gets a register when it is first bound, and keeps it. -/
theorem bindLocal {f id l} (hl : f.locals[id]? = some l) (hty : l.ty.isUnresolved = false) :
    Builds scope (bindLocal f id) (Code.bindLocal id) (id :: scope) := by
  intro b hb hs
  cases hid : b.locals.lookup id with
  | some r =>
    refine ⟨r, b, by simp [Build.bindLocal, hid], hb, .refl, ?_, fun K hK => ?_⟩
    · exact forall_mem_cons.2 ⟨⟨r, hid⟩, hs⟩
    · exact ⟨hK, hK.locals id r hid, Nat.le.refl, rfl⟩
  | none =>
    have hself : List.lookup id ((id, b.registers.length) :: b.locals) =
        some b.registers.length := by simp
    have hother : ∀ id', id' ≠ id →
        List.lookup id' ((id, b.registers.length) :: b.locals) = b.locals.lookup id' := by
      intro id' hne
      rw [lookup_cons, beq_false_of_ne hne]
    have hold : ∀ id' r, b.locals.lookup id' = some r →
        List.lookup id' ((id, b.registers.length) :: b.locals) = some r := by
      intro id' r hr
      rw [hother id' (by rintro rfl; rw [hid] at hr; cases hr), hr]
    refine ⟨b.registers.length, { b with
      registers := b.registers ++ [l.ty], locals := (id, b.registers.length) :: b.locals },
      by simp [Build.bindLocal, hid, hl], ?_, ?_, ?_, ?_⟩
    · refine ⟨hb.current_lt, fun id' r hr => ?_, fun id1 id2 r h1 h2 => ?_, fun ty hmem => ?_⟩
      · by_cases hne : id' = id
        · subst hne
          cases hself.symm.trans hr
          simp
        · simpa using Nat.lt_succ_of_lt (hb.local_lt id' r ((hother id' hne).symm.trans hr))
      · by_cases h1' : id1 = id <;> by_cases h2' : id2 = id
        · rw [h1', h2']
        · subst h1'
          cases hself.symm.trans h1
          exact absurd (hb.local_lt id2 _ ((hother id2 h2').symm.trans h2)) (Nat.lt_irrefl _)
        · subst h2'
          cases hself.symm.trans h2
          exact absurd (hb.local_lt id1 _ ((hother id1 h1').symm.trans h1)) (Nat.lt_irrefl _)
        · exact hb.local_inj id1 id2 r ((hother id1 h1').symm.trans h1)
            ((hother id2 h2').symm.trans h2)
      · rcases mem_append.1 hmem with hmem | hmem
        · exact hb.resolved ty hmem
        · rwa [mem_singleton.1 hmem]
    · refine ⟨fun id' ⟨r, hr⟩ => ⟨r, hold id' r hr⟩, Nat.le.refl, fun _ _ _ _ => rfl, .inl rfl⟩
    · exact forall_mem_cons.2 ⟨⟨_, hself⟩, fun id' hid' =>
        let ⟨r, hr⟩ := hs id' hid'; ⟨r, hold id' r hr⟩⟩
    · intro K hK
      refine ⟨⟨(prefix_append ..).trans hK.registers, fun id' r hr => ?_,
        fun id' r hr hlt => ?_, hK.blocks⟩, hK.locals id _ hself, by simp [Builder.spot], rfl⟩
      · exact hK.locals id' r (hold id' r hr)
      · have hlook := hK.temps id' r hr (by simpa using Nat.lt_succ_of_lt hlt)
        by_cases hne : id' = id
        · subst hne
          cases hself.symm.trans hlook
          exact absurd hlt (Nat.lt_irrefl _)
        · exact (hother id' hne).symm.trans hlook

/-- Steps for the members of a list. -/
theorem forM {xs : List α} {f : α → Build Unit} {F : α → Code Unit}
    (h : ∀ x ∈ xs, Builds scope (f x) (F x) scope) :
    Builds scope (xs.forM f) (xs.forM F) scope := by
  induction xs with
  | nil => exact .pure ()
  | cons x rest ih =>
    obtain ⟨hx, hrest⟩ := forall_mem_cons.1 h
    exact hx.bind fun _ => ih hrest

theorem inRegister (hty : ty.isUnresolved = false) (o : Operand Reg) :
    Builds scope (inRegister ty o) (Code.inRegister ty o) scope := by
  cases o with
  | reg r => exact .pure r
  | imm value => exact (newRegister hty).bind fun r => (emit _).bind fun _ => .pure r

theorem object {ty : Ty} (hty : ty.isUnresolved = false) (shape : Shape)
    (values : List (Nat × Operand Reg)) :
    Builds scope (object ty shape values) (Code.object ty shape values) scope :=
  (newRegister hty).bind fun _ => (emit _).bind fun _ =>
    (forM fun _ _ => emit _).bind fun _ => .pure _

/-! ### Branches -/

/-- Code that is built in an empty block, up to the instruction that ends it. -/
theorem visit (hx : Builds scope x X scope1) (hb : b.Good) (hs : ∀ id ∈ scope, b.Binds id)
    (hl : b.blocks[l]? = some []) (i : Instr Reg) :
    ∃ a b1, x (b.moveTo l) = .ok (a, b1) ∧ (b1.add i).Good ∧
      (b.moveTo l).Extends [] (b1.add i) ∧ (∀ id ∈ scope1, (b1.add i).Binds id) ∧
      ∀ K : Layout, K.Sealed (b1.add i) → K.Sealed b ∧
        K.blocks[l]? = some ((b.moveTo l).spot K).rest ∧
        X K ((b.moveTo l).spot K) a (b1.spot K) ∧ (b1.spot K).rest = [i] := by
  obtain ⟨a, b1, hrun, hb1, hext, hs1, hX⟩ :=
    hx (b.moveTo l) (hb.moveTo hl) hs
  refine ⟨a, b1, hrun, hb1.add, hext.trans (.add _ _), hs1, fun K hK => ?_⟩
  obtain ⟨hK1, hrest⟩ := Layout.Sealed.of_add hb1 hK
  obtain ⟨hK0, hX⟩ := hX K hK1
  exact ⟨hK0.seals hl, hK0.starts hl, hX, hrest⟩

/-- Code that is passed through or not, in a block of its own. -/
theorem detour (enter : Label → Label → Instr Reg) {x : Build Unit} (hx : Builds scope x X scope) :
    Builds scope (do
      let second ← newBlock
      let meeting ← newBlock
      Build.emit (enter second meeting)
      switchTo second
      x
      Build.emit (.jump meeting)
      switchTo meeting) (Code.detour enter X) scope := by
  intro b hb hs
  have hleaves := hb.leaves (enter b.blocks.length (b.blocks.length + 1)) 2
  obtain ⟨⟨⟩, b1, hrun, hb1, hext, hs1, hX⟩ := hx.visit hleaves.good hs
    (hleaves.empty 0 Nat.two_pos) (.jump (b.blocks.length + 1))
  obtain ⟨hmeeting, -⟩ := hext.getElem?_eq_nil (hleaves.empty 1 Nat.one_lt_two)
    (Nat.succ_ne_self _) not_mem_nil
  refine ⟨(), (b1.add (.jump (b.blocks.length + 1))).moveTo (b.blocks.length + 1), ?_,
    hb1.moveTo hmeeting,
    ((hleaves.grows.moveTo (.inr Nat.le.refl)).trans hext).moveTo (.inr (Nat.le_succ _)), hs1,
    fun K hK => ?_⟩
  · rw [run_newBlock, run_newBlock, Builder.length_blocks_addBlock, run_emit, run_switchTo]
    exact run_bind hrun
  · obtain ⟨hK1, hstart, hX, hrest⟩ := hX K (hK.seals hmeeting)
    obtain ⟨hK0, hrest0⟩ := hleaves.back K hK1
    exact ⟨hK0, _, _, _, _, hrest0, hstart, rfl, hX, hrest, hK.starts hmeeting, rfl⟩

/-- Two pieces of code, each in a block of its own, one of which is passed through. -/
theorem fork (condition : Operand Reg) {x y : Build Unit} (hx : Builds scope x X scope)
    (hy : Builds scope y Y scope) :
    Builds scope (do
      let yes ← newBlock
      let no ← newBlock
      let meeting ← newBlock
      Build.emit (.branch condition yes no)
      switchTo yes
      x
      Build.emit (.jump meeting)
      switchTo no
      y
      Build.emit (.jump meeting)
      switchTo meeting) (Code.fork condition X Y) scope := by
  intro b hb hs
  have hleaves := hb.leaves (.branch condition b.blocks.length (b.blocks.length + 1)) 3
  -- the builder after the first block
  obtain ⟨⟨⟩, b1, hrun1, hb1, hext1, hs1, hX⟩ := hx.visit hleaves.good hs
    (hleaves.empty 0 (by decide)) (.jump (b.blocks.length + 1 + 1))
  obtain ⟨hno, -⟩ := hext1.getElem?_eq_nil (hleaves.empty 1 (by decide)) (Nat.succ_ne_self _)
    not_mem_nil
  obtain ⟨hmeeting, -⟩ := hext1.getElem?_eq_nil (hleaves.empty 2 (by decide))
    (Nat.ne_of_gt (by simp)) not_mem_nil
  -- and after the second
  obtain ⟨⟨⟩, b2, hrun2, hb2, hext2, hs2, hY⟩ := hy.visit hb1 hs1 hno
    (.jump (b.blocks.length + 1 + 1))
  obtain ⟨hmeeting, -⟩ := hext2.getElem?_eq_nil hmeeting (Nat.succ_ne_self _) not_mem_nil
  have hext : b.Extends [] _ :=
    (((hleaves.grows.moveTo (.inr Nat.le.refl)).trans hext1).moveTo
      (.inr (Nat.le_succ _))).trans hext2
  refine ⟨(), (b2.add (.jump (b.blocks.length + 1 + 1))).moveTo (b.blocks.length + 1 + 1), ?_,
    hb2.moveTo hmeeting, hext.moveTo (.inr (by omega)), hs2,
    fun K hK => ?_⟩
  · rw [run_newBlock, run_newBlock, run_newBlock, run_emit, run_switchTo]
    simp only [Builder.length_blocks_addBlock]
    refine (run_bind hrun1).trans ?_
    rw [run_emit, run_switchTo]
    exact run_bind hrun2
  · obtain ⟨hK2, hstart2, hY, hrest2⟩ := hY K (hK.seals hmeeting)
    obtain ⟨hK1, hstart1, hX, hrest1⟩ := hX K hK2
    obtain ⟨hK0, hrest0⟩ := hleaves.back K hK1
    exact ⟨hK0, _, _, _, _, _, _, _, hrest0, hstart1, rfl, hX, hrest1, hstart2, rfl, hY,
      hrest2, hK.starts hmeeting, rfl⟩

end Builds

end Build

end Sluice.Flow
