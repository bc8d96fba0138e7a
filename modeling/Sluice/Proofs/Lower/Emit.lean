import Sluice.Proofs.Lower.Builder
import Sluice.Proofs.Lower.Parts

/-!
# Building matches

The tree of a match leads to its arms through blocks that are made on the way
and filled afterwards. Until then they wait, empty and apart from each other
(`Waiting`); what a tree emits leads to them wherever they come to stand
(`Chooses`).
-/

namespace Sluice.Flow

open List
open Decision (Binding Occurrence Loadable)
open Typed (LocalId MatchId)

namespace Build

variable {α : Type} {scope scope1 : List LocalId}

/-! ## Loading and binding -/

theorem run_bind_eq_ok {f : α → Build β}
    (h : (x >>= f) b = .ok (c, b')) : ∃ a b1, x b = .ok (a, b1) ∧ f a b1 = .ok (c, b') := by
  simp only [bind, StateT.bind, Except.bind] at h
  split at h
  · cases h
  · rename_i v hv
    exact ⟨v.1, v.2, hv, h⟩

/-- What is found needs no code. -/
theorem Builds.given {a? : Option α} (h : a? = some a)
    (hx : Builds scope x (F a) scope1) : Builds scope x (Code.given a? >>= F) scope1 := by
  intro b hb hs
  obtain ⟨c, b', hrun, hb', hext, hs', hF⟩ := hx b hb hs
  refine ⟨c, b', hrun, hb', hext, hs', fun K hK => ?_⟩
  obtain ⟨hK0, hF⟩ := hF K hK
  exact ⟨hK0, a, _, ⟨h, rfl⟩, hF⟩

variable {id : MatchId} {root : Reg} {types : List (Occurrence × Ty)}

/-- Parts can be loaded one after the other, if each comes after the one it lies in. -/
theorem Builds.loadParts : ∀ {os done parts}, Loadable done os →
    (∀ o ∈ done, ∃ r, parts.lookup o = some r) →
    (∀ o ∈ os, ∃ ty, types.lookup o = some ty ∧ ty.isUnresolved = false) →
    Builds scope (loadParts id root types parts os) (Code.loads root types parts os) scope
  | [], _, parts, _, _, _ => .pure parts
  | o :: rest, done, parts, hload, hdone, htypes => by
    obtain ⟨⟨ty, hty, hres⟩, htypes⟩ := forall_mem_cons.1 htypes
    have hnext : ∀ r, ∀ o' ∈ o :: done, ∃ r', List.lookup o' ((o, r) :: parts) = some r' := by
      intro r o' ho'
      rw [lookup_cons]
      split
      · exact ⟨r, rfl⟩
      · rename_i hne
        exact hdone o' ((mem_cons.1 ho').resolve_left (by simpa using hne))
    have hroot := loadParts hload.2 (hnext root) htypes
    rw [Flow.loadParts.eq_def, Code.loads.eq_def]
    cases hparent : o.parent? with
    | none => simpa only [hparent] using hroot
    | some parent =>
      cases hindex : o.lastIndex? with
      | none => simpa only [hparent, hindex] using hroot
      | some index =>
        obtain ⟨object, hobject⟩ := hdone parent (hload.1 parent hparent)
        simp only [hparent, hindex, hobject, hty]
        exact .given rfl (.given rfl ((newRegister hres).bind fun r => (emit _).bind fun _ =>
          loadParts hload.2 (hnext r) htypes))

/-- Every part that was asked for has a register. -/
theorem lookup_loadParts : ∀ {os parts parts' b b'},
    loadParts id root types parts os b = .ok (parts', b') →
    ∀ o, o ∈ os ∨ (∃ r, parts.lookup o = some r) → ∃ r, parts'.lookup o = some r
  | [], _, _, _, _, h, _, ho => by
    cases h
    exact ho.resolve_left not_mem_nil
  | o :: rest, parts, _, _, _, h, o', ho' => by
    have hnext : ∀ r, o' ∈ rest ∨ ∃ r', List.lookup o' ((o, r) :: parts) = some r' := by
      intro r
      rw [lookup_cons]
      split
      · exact .inr ⟨r, rfl⟩
      · rename_i hne
        rcases ho' with ho' | ho'
        · exact .inl ((mem_cons.1 ho').resolve_left (by simpa using hne))
        · exact .inr ho'
    rw [Flow.loadParts.eq_def] at h
    cases hparent : o.parent? <;> cases hindex : o.lastIndex? <;> simp only [hparent, hindex] at h
    case some.some parent index =>
      cases hobject : parts.lookup parent <;> cases hty : types.lookup o <;>
        simp only [hobject, hty, fault] at h
      case some.some =>
        obtain ⟨r, b1, -, h⟩ := run_bind_eq_ok h
        exact lookup_loadParts h o' (hnext r)
      all_goals cases h
    all_goals exact lookup_loadParts h o' (hnext root)

/-- Locals can be bound to parts. -/
theorem Builds.binds {c : Choice}
    (hparts : ∀ b ∈ bindings, ∃ r, c.parts.lookup b.occurrence = some r)
    (hlocals : ∀ b ∈ bindings, ∃ l, c.function.locals[b.id]? = some l ∧ l.ty.isUnresolved = false) :
    Builds scope (c.bind bindings) (Code.binds c.parts bindings)
      (bindings.map (·.id) ++ scope) := by
  induction bindings generalizing scope with
  | nil => exact .pure ()
  | cons b rest ih =>
    obtain ⟨⟨r, hr⟩, hparts⟩ := forall_mem_cons.1 hparts
    obtain ⟨⟨l, hl, hty⟩, hlocals⟩ := forall_mem_cons.1 hlocals
    have hone : Builds scope (do
        let src ← c.part b.occurrence
        let dst ← Build.bindLocal c.function b.id
        Build.emit (.move dst (.reg src))) (do
        let src ← Code.given (c.parts.lookup b.occurrence)
        let dst ← Code.bindLocal b.id
        Code.emit (.move dst (.reg src))) (b.id :: scope) := by
      simp only [Choice.part, hr, pure_bind]
      exact .given rfl ((bindLocal hl hty).bind fun _ => emit _)
    refine (hone.bind fun _ => ih hparts hlocals).weaken fun id hid => ?_
    simp only [map_cons, cons_append, mem_cons, mem_append] at hid ⊢
    tauto

/-! ## Trees -/

/-- **The blocks of arms wait to be filled:** they are empty, the builder is not at them, no two
arms have the same one, and the locals of an arm that has one have registers. -/
structure Waiting (names : Nat → List LocalId) (b : Builder) (blocks : ArmBlocks) : Prop where
  empty : ∀ (i : Nat) (l : Label), blocks[i]?.join = some l → b.blocks[l]? = some [] ∧ l ≠ b.current
  bound : ∀ (i : Nat) (l : Label), blocks[i]?.join = some l → ∀ id ∈ names i, b.Binds id
  inj : ∀ (i j : Nat) (l : Label), blocks[i]?.join = some l → blocks[j]?.join = some l → i = j

/-- More arms have blocks, and the new ones were made from some number on. -/
structure MoreBlocks (n : Nat) (blocks blocks' : ArmBlocks) : Prop where
  length_eq : blocks'.length = blocks.length
  keeps : ∀ (i : Nat) (l : Label), blocks[i]?.join = some l → blocks'[i]?.join = some l
  new : ∀ (i : Nat) (l : Label), blocks'[i]?.join = some l → blocks[i]?.join = some l ∨ n ≤ l

variable {names : Nat → List LocalId} {b b' : Builder} {blocks blocks' blocks'' : ArmBlocks}

theorem Waiting.extends (h : Waiting names b blocks) (hext : b.Extends [] b') :
    Waiting names b' blocks where
  empty i l hl := hext.getElem?_eq_nil (h.empty i l hl).1 (h.empty i l hl).2 not_mem_nil
  bound i l hl id hid := hext.binds id (h.bound i l hl id hid)
  inj := h.inj

theorem MoreBlocks.refl : MoreBlocks n blocks blocks :=
  ⟨rfl, fun _ _ h => h, fun _ _ h => .inl h⟩

theorem MoreBlocks.trans (h : MoreBlocks n blocks blocks') (h' : MoreBlocks n' blocks' blocks'')
    (hn : n ≤ n') : MoreBlocks n blocks blocks'' where
  length_eq := h'.length_eq.trans h.length_eq
  keeps i l hl := h'.keeps i l (h.keeps i l hl)
  new i l hl := by
    rcases h'.new i l hl with hl | hl
    · exact h.new i l hl
    · exact .inr (Nat.le_trans hn hl)

/-- **A step that leads to the blocks of arms gives the code of a tree**, wherever those blocks
come to stand. -/
def Chooses (names : Nat → List LocalId) (count : Nat) (scope : List LocalId)
    (x : ArmBlocks → Build ArmBlocks) (T : ArmBlocks → Tail) : Prop :=
  ∀ (b : Builder) (blocks : ArmBlocks), b.Good → (∀ id ∈ scope, b.Binds id) →
    blocks.length = count → Waiting names b blocks →
    ∃ blocks' b', x blocks b = .ok (blocks', b') ∧ b'.Good ∧ b.Extends [] b' ∧
      Waiting names b' blocks' ∧ MoreBlocks b.blocks.length blocks blocks' ∧
      ∀ (K : Layout) (targets : ArmBlocks), K.Sealed b' →
        (∀ (i : Nat) (l : Label), blocks'[i]?.join = some l → targets[i]?.join = some l) →
        K.Inside b ∧ T targets K (b.spot K) b'.registers.length

variable {count : Nat}

/-- A step, and then a choice. -/
theorem Builds.chooses {f : α → ArmBlocks → Build ArmBlocks} {T : α → ArmBlocks → Tail}
    (hx : Builds scope x E scope1) (hf : ∀ a, Chooses names count scope1 (f a) (T a)) :
    Chooses names count scope (fun blocks => x >>= fun a => f a blocks)
      (fun targets => E.andThen fun a => T a targets) := by
  intro b blocks hb hs hcount hwait
  obtain ⟨a, b1, hrun1, hb1, hext1, hs1, hE⟩ := hx b hb hs
  obtain ⟨blocks', b2, hrun2, hb2, hext2, hwait2, hmore, hT⟩ :=
    hf a b1 blocks hb1 hs1 hcount (hwait.extends hext1)
  refine ⟨blocks', b2, (run_bind hrun1).trans hrun2, hb2, hext1.trans hext2, hwait2,
    MoreBlocks.refl.trans hmore hext1.length_le, fun K targets hK htargets => ?_⟩
  obtain ⟨hK1, hT⟩ := hT K targets hK htargets
  obtain ⟨hK0, hE⟩ := hE K hK1
  exact ⟨hK0, a, b1.spot K, hE, hT⟩

theorem join_set_of_lt (hi : i < blocks.length) :
    (blocks.set i (some l))[j]?.join = if j = i then some l else blocks[j]?.join := by
  split <;> simp_all [eq_comm]

/-- An arm gets a block the first time, and has it from then on. -/
theorem run_armBlock (harm : arm < blocks.length) (hb : b.Good)
    (hbound : ∀ id ∈ names arm, b.Binds id) (hwait : Waiting names b blocks) :
    ∃ l blocks' b', armBlock arm blocks b = .ok ((l, blocks'), b') ∧ b'.Good ∧
      b.Extends [] b' ∧ Waiting names b' blocks' ∧ MoreBlocks b.blocks.length blocks blocks' ∧
      blocks'[arm]?.join = some l ∧ b'.registers = b.registers ∧
      ∀ K : Layout, K.Inside b' → K.Inside b ∧ b'.spot K = b.spot K := by
  cases hl : blocks[arm]?.join with
  | some l =>
    refine ⟨l, blocks, b, ?_, hb, .refl, hwait, .refl, hl, rfl, fun _ hK => ⟨hK, rfl⟩⟩
    rw [armBlock, hl]
    rfl
  | none =>
    refine ⟨b.blocks.length, blocks.set arm (some b.blocks.length), b.addBlock, ?_, hb.addBlock,
      .addBlock b, ?_, ?_, ?_, rfl, fun K hK => Layout.Inside.of_addBlock hb hK⟩
    · rw [armBlock, hl]
      rfl
    · have hext := hwait.extends (Builder.Extends.addBlock b)
      refine ⟨fun i l h => ?_, fun i l h => ?_, fun i j l hi hj => ?_⟩
      · rw [join_set_of_lt harm] at h
        split at h
        · cases h
          exact ⟨Builder.getElem?_blocks_addBlock_last, Nat.ne_of_gt hb.current_lt⟩
        · exact hext.empty i l h
      · rw [join_set_of_lt harm] at h
        split at h
        · rename_i hi
          exact hi ▸ hbound
        · exact hext.bound i l h
      · have hnew : ∀ k : Nat, blocks[k]?.join ≠ some b.blocks.length := fun k hk => by
          have := (List.getElem?_eq_some_iff.1 (hwait.empty k _ hk).1).1
          exact Nat.lt_irrefl _ this
        rw [join_set_of_lt harm] at hi hj
        split at hi <;> split at hj
        · simp_all
        · cases hi
          exact absurd hj (hnew j)
        · cases hj
          exact absurd hi (hnew i)
        · exact hwait.inj i j l hi hj
    · refine ⟨length_set, fun i l h => ?_, fun i l h => ?_⟩
      · rw [join_set_of_lt harm, if_neg]
        · exact h
        · rintro rfl
          rw [hl] at h
          cases h
      · rw [join_set_of_lt harm] at h
        split at h
        · cases h
          exact .inr Nat.le.refl
        · exact .inl h
    · rw [join_set_of_lt harm, if_pos rfl]

/-- A jump to the block of an arm. -/
theorem Chooses.enterArm (harm : arm < count) (hnames : ∀ id ∈ names arm, id ∈ scope) :
    Chooses names count scope (enterArm arm) (fun targets => Code.enterArm targets arm) := by
  intro b blocks hb hs hcount hwait
  obtain ⟨l, blocks', b1, hrun, hb1, hext, hwait1, hmore, hl, hregs, hK1⟩ :=
    run_armBlock (hcount ▸ harm) hb (fun id hid => hs id (hnames id hid)) hwait
  refine ⟨blocks', b1.add (.jump l), ?_, hb1.add, hext.trans (.add _ _),
    hwait1.extends (.add _ _), hmore, fun K targets hK htargets => ?_⟩
  · rw [Flow.enterArm, run_bind hrun]
    rfl
  · obtain ⟨hin, hrest⟩ := Layout.Sealed.of_add hb1 hK
    obtain ⟨hK0, hspot⟩ := hK1 K hin
    refine ⟨hK0, l, htargets arm l hl, hspot ▸ hrest, ?_⟩
    simp [Builder.spot, hregs]

/-- A branch to the block of an arm, or else on to another choice. -/
theorem Chooses.branchArm (harm : arm < count) (hnames : ∀ id ∈ names arm, id ∈ scope)
    (hf : Chooses names count scope f T) :
    Chooses names count scope (fun blocks => do
      let (body, blocks) ← armBlock arm blocks
      let next ← newBlock
      emit (.branch o body next)
      switchTo next
      f blocks) (fun targets => Code.branchArm targets arm o (T targets)) := by
  intro b blocks hb hs hcount hwait
  obtain ⟨l, blocks1, b1, hrun, hb1, hext, hwait1, hmore, hl, hregs, hK1⟩ :=
    run_armBlock (hcount ▸ harm) hb (fun id hid => hs id (hnames id hid)) hwait
  have hleaves := hb1.leaves (.branch o l b1.blocks.length) 1
  have hnext := hleaves.empty 0 Nat.one_pos
  have hext2 := hleaves.grows.moveTo (.inr Nat.le.refl)
  obtain ⟨blocks', b', hrun', hb', hext', hwait', hmore', hT⟩ :=
    hf _ blocks1 (hleaves.good.moveTo hnext)
      (fun id hid => (hext.trans hext2).binds id (hs id hid)) (hmore.length_eq.trans hcount)
      (hwait1.extends hext2)
  refine ⟨blocks', b', ?_, hb', (hext.trans hext2).trans hext', hwait',
    hmore.trans hmore' (hext.trans hext2).length_le, fun K targets hK htargets => ?_⟩
  · dsimp only
    rw [run_bind hrun]
    exact hrun'
  · obtain ⟨hK2, hT⟩ := hT K targets hK htargets
    obtain ⟨hin, hrest⟩ := hleaves.back K (hK2.seals hnext)
    obtain ⟨hK0, hspot⟩ := hK1 K hin
    rw [hspot] at hrest
    refine ⟨hK0, l, _, _, htargets arm l (hmore'.keeps arm l hl), hrest, hK2.starts hnext, ?_, hT⟩
    simp [Builder.spot, hregs, Builder.addBlock, Builder.add]

/-- Blocks of arms are blocks of the builder. -/
theorem Waiting.lt_length (h : Waiting names b blocks) {i : Nat}
    (hl : blocks[i]?.join = some l) : l < b.blocks.length :=
  (List.getElem?_eq_some_iff.1 (h.empty i l hl).1).1

/-- A branch to one of two choices. -/
theorem Chooses.branchTails {x y : ArmBlocks → Build ArmBlocks} (hx : Chooses names count scope x X)
    (hy : Chooses names count scope y Y) :
    Chooses names count scope (fun blocks => do
      let equal ← newBlock
      let other ← newBlock
      emit (.branch o equal other)
      switchTo equal
      let blocks ← x blocks
      switchTo other
      y blocks) (fun targets => Code.branchTails o (X targets) (Y targets)) := by
  intro b blocks hb hs hcount hwait
  have hleaves := hb.leaves (.branch o b.blocks.length (b.blocks.length + 1)) 2
  have hequal := hleaves.empty 0 Nat.two_pos
  have hother := hleaves.empty 1 Nat.one_lt_two
  have hext1 := hleaves.grows.moveTo (.inr Nat.le.refl)
  -- the first choice
  obtain ⟨blocks2, b2, hrun2, hb2, hext2, hwait2, hmore2, hX⟩ := hx _ blocks
    (hleaves.good.moveTo hequal)
    (fun id hid => hext1.binds id (hs id hid)) hcount (hwait.extends hext1)
  obtain ⟨hother2, -⟩ := hext2.getElem?_eq_nil hother (Nat.succ_ne_self _) not_mem_nil
  have hwait2' : Waiting names (b2.moveTo (b.blocks.length + 1)) blocks2 := by
    refine ⟨fun i l hl => ⟨(hwait2.empty i l hl).1, ?_⟩, hwait2.bound, hwait2.inj⟩
    rintro rfl
    rcases hmore2.new i _ hl with hl | hl
    · exact absurd (hwait.lt_length hl) (by simp)
    · exact absurd (List.getElem?_eq_some_iff.1 hother).1 (Nat.not_lt.2 hl)
  have hext2' := (hext1.trans hext2).moveTo (.inr (Nat.le_succ b.blocks.length))
  -- the second
  obtain ⟨blocks3, b3, hrun3, hb3, hext3, hwait3, hmore3, hY⟩ := hy _ blocks2
    (hb2.moveTo hother2)
    (fun id hid => hext2'.binds id (hs id hid)) (hmore2.length_eq.trans hcount) hwait2'
  refine ⟨blocks3, b3, ?_, hb3, hext2'.trans hext3, hwait3, ?_, fun K targets hK htargets => ?_⟩
  · dsimp only
    rw [run_newBlock, run_newBlock, Builder.length_blocks_addBlock, run_emit, run_switchTo]
    exact (run_bind hrun2).trans hrun3
  · exact (MoreBlocks.refl.trans hmore2 hext1.length_le).trans hmore3 hext2'.length_le
  · obtain ⟨hK2, hY⟩ := hY K targets hK htargets
    obtain ⟨hK1, hX⟩ := hX K targets (hK2.seals hother2)
      fun i l hl => htargets i l (hmore3.keeps i l hl)
    obtain ⟨hK0, hrest⟩ := hleaves.back K (hK1.seals hequal)
    exact ⟨hK0, _, _, _, _, hrest, hK1.starts hequal, rfl, hX, hK2.starts hother2, hY⟩

/-- A comparison, and a choice for each outcome. -/
theorem Chooses.compare (part : Reg) (value : Literal) {x y : ArmBlocks → Build ArmBlocks}
    {X Y : ArmBlocks → Tail} (hx : Chooses names count scope x X)
    (hy : Chooses names count scope y Y) :
    Chooses names count scope (fun blocks => do
      let (equal, other) ← compareWith part value
      switchTo equal
      let blocks ← x blocks
      switchTo other
      y blocks) (fun targets => Code.compare part value (X targets) (Y targets)) := by
  have hcondition : Builds scope (do
      let condition ← newRegister .bool
      emit (.binary .eq condition (.reg part) (.imm value))
      return condition) (do
      let condition ← Code.temp .bool
      Code.emit (.binary .eq condition (.reg part) (.imm value))
      return condition) scope :=
    (Builds.newRegister rfl).bind fun _ => (Builds.emit _).bind fun _ => .pure _
  have h := hcondition.chooses fun condition => branchTails (o := .reg condition) hx hy
  exact h

/-! ## A tree -/

open Decision (Tree)

/-- What is known of the arms a tree ends at: they are arms of the match, and their bindings are
for their locals, which are declared. -/
def Arm.Known (f : Typed.Function) (names : Nat → List LocalId) (count arm : Nat)
    (bindings : List Binding) : Prop :=
  arm < count ∧ bindings.map (·.id) = names arm ∧
    ∀ b ∈ bindings, ∃ l, f.locals[b.id]? = some l ∧ l.ty.isUnresolved = false

/-- Guards give code, once the locals of their arms have registers. -/
def GuardsBuild (names : Nat → List LocalId) (scope : List LocalId)
    (guards : List (Option (Build (Operand Reg))))
    (codes : List (Option (Code (Operand Reg)))) : Prop :=
  ∀ arm : Nat, match guards[arm]?.join, codes[arm]?.join with
    | none, none => True
    | some guard, some code => Builds (names arm ++ scope) guard code (names arm ++ scope)
    | _, _ => False

theorem Chooses.weaken (h : Chooses names count scope x T) (hs : ∀ id ∈ scope, id ∈ scope1) :
    Chooses names count scope1 x T :=
  fun b blocks hb hs1 => h b blocks hb fun id hid => hs1 id (hs id hid)

theorem Chooses.given {r? : Option Reg} {T : Reg → ArmBlocks → Tail} (hr : r? = some r)
    (h : Chooses names count scope x (T r)) :
    Chooses names count scope x (fun targets => (Code.given r?).andThen fun r => T r targets) := by
  intro b blocks hb hs hcount hwait
  obtain ⟨blocks', b', hrun, hb', hext, hwait', hmore, hT⟩ := h b blocks hb hs hcount hwait
  refine ⟨blocks', b', hrun, hb', hext, hwait', hmore, fun K targets hK htargets => ?_⟩
  obtain ⟨hK0, hT⟩ := hT K targets hK htargets
  exact ⟨hK0, r, _, ⟨hr, rfl⟩, hT⟩

variable {c : Choice} {codes : List (Option (Code (Operand Reg)))}
  {bodies : List (Build (Operand Reg))}

section

variable (hguards : GuardsBuild names scope c.guards codes)

include hguards

set_option linter.unusedSectionVars false in
mutual

/-- **A tree that ends at its arms gives its code.** -/
theorem chooses_tree : ∀ t : Tree, t.EndsAt (Arm.Known c.function names count) →
    (∀ o ∈ t.used, ∃ r, c.parts.lookup o = some r) →
    Chooses names count scope (fun blocks => choose c blocks t)
      (fun targets => Code.choose ⟨c.parts, codes, targets⟩ t)
  | .leaf arm bindings, h, hused => by
    obtain ⟨harm, hnames, hlocals⟩ := h
    refine (Builds.binds (fun b hb => hused _ (mem_map_of_mem hb)) hlocals).chooses fun _ =>
      Chooses.enterArm harm fun id hid => ?_
    exact mem_append_left _ (hnames ▸ hid)
  | .guard arm bindings fallback, h, hused => by
    obtain ⟨⟨harm, hnames, hlocals⟩, hfallback⟩ := h
    have hmem : ∀ id ∈ names arm, id ∈ names arm ++ scope := fun _ => mem_append_left _
    have hbinds : Builds scope (c.bind bindings) (Code.binds c.parts bindings)
        (names arm ++ scope) :=
      hnames ▸ Builds.binds
        (fun b hb => hused _ (mem_append_left _ (mem_map_of_mem hb))) hlocals
    have hrest := chooses_tree fallback hfallback
      (forall_mem_append.1 hused).2
    have hguard := hguards arm
    refine hbinds.chooses fun _ => ?_
    split at hguard
    · rename_i hg hc
      simp only [hg, hc]
      exact Chooses.enterArm harm hmem
    · rename_i guard code hg hc
      simp only [hg, hc]
      exact hguard.chooses fun o =>
        Chooses.branchArm harm hmem (hrest.weaken fun _ => mem_append_right _)
    · exact hguard.elim
  | .test o branches none, h, hused => by
    obtain ⟨⟨r, hr⟩, hused⟩ := forall_mem_cons.1 hused
    simp only [choose, Choice.part, hr, pure_bind, Code.choose]
    exact Chooses.given rfl (chooses_last r branches h.1 h.2 hused)
  | .test o branches (some default), h, hused => by
    obtain ⟨⟨r, hr⟩, hused⟩ := forall_mem_cons.1 hused
    obtain ⟨hbranches, hdefault⟩ := forall_mem_append.1 hused
    simp only [choose, Choice.part, hr, pure_bind, Code.choose]
    exact Chooses.given rfl (chooses_among r branches h.1 hbranches
      (chooses_tree default h.2 hdefault))
  | .fail, h, _ => h.elim

/-- The branches of a test, and then what follows if none of them applies. -/
theorem chooses_among (part : Reg) :
    ∀ branches : List (Literal × Tree),
      Tree.BranchesEndAt (Arm.Known c.function names count) branches →
      (∀ o ∈ Tree.branchUsed branches, ∃ r, c.parts.lookup o = some r) →
      Chooses names count scope d D →
      Chooses names count scope (fun blocks => chooseAmong c part blocks branches >>= d)
        (fun targets => Code.chooseAmong ⟨c.parts, codes, targets⟩ part (D targets) branches)
  | [], _, _, hd => by simpa only [chooseAmong, pure_bind, Code.chooseAmong] using hd
  | (value, t) :: rest, h, hused, hd => by
    have ht := chooses_tree t h.1 (forall_mem_append.1 hused).1
    have hrest := chooses_among part rest h.2
      (forall_mem_append.1 hused).2 hd
    simpa only [chooseAmong, bind_assoc, Code.chooseAmong] using
      Chooses.compare part value ht hrest

/-- The branches of a test one of which must apply. -/
theorem chooses_last (part : Reg) :
    ∀ branches : List (Literal × Tree), branches ≠ [] →
      Tree.BranchesEndAt (Arm.Known c.function names count) branches →
      (∀ o ∈ Tree.branchUsed branches, ∃ r, c.parts.lookup o = some r) →
      Chooses names count scope (fun blocks => chooseLast c part blocks branches)
        (fun targets => Code.chooseLast ⟨c.parts, codes, targets⟩ part branches)
  | [], hne, _, _ => absurd rfl hne
  | [(value, t)], _, h, hused => by
    exact chooses_tree t h.1 (forall_mem_append.1 hused).1
  | (value, t) :: next :: rest, _, h, hused => by
    have ht := chooses_tree t h.1 (forall_mem_append.1 hused).1
    have hrest := chooses_last part (next :: rest) (by simp) h.2
      (forall_mem_append.1 hused).2
    simpa only [chooseLast, Code.chooseLast] using Chooses.compare part value ht hrest

end

end

/-! ## The bodies of arms -/

/-- Bodies give code, once the locals of their arms have registers. -/
def BodiesBuild (names : Nat → List LocalId) (scope : List LocalId)
    (bodies : List (Build (Operand Reg))) (codes : List (Code (Operand Reg))) : Prop :=
  codes.length = bodies.length ∧ ∀ (i : Nat) (body : Build (Operand Reg))
    (code : Code (Operand Reg)), bodies[i]? = some body → codes[i]? = some code →
      Builds (names i ++ scope) body code scope

/-- The arms after the first wait too. -/
theorem Waiting.tail {l? : Option Label} (h : Waiting names b (l? :: blocks)) :
    Waiting (fun i => names (i + 1)) b blocks where
  empty i l hl := h.empty (i + 1) l hl
  bound i l hl := h.bound (i + 1) l hl
  inj i j l hi hj := Nat.succ.inj (h.inj (i + 1) (j + 1) l hi hj)

theorem BodiesBuild.tail {body code codes}
    (h : BodiesBuild names scope (body :: bodies) (code :: codes)) :
    BodiesBuild (fun i => names (i + 1)) scope bodies codes :=
  ⟨Nat.succ.inj h.1, fun i => h.2 (i + 1)⟩

/-- **The bodies of arms give their code**, each in the block that waits for it. -/
theorem run_armBodies (dst : Reg) (meeting : Label) :
    ∀ {bodies codes}
      {blocks} {names} {b},
      BodiesBuild names scope bodies codes → b.Good → (∀ id ∈ scope, b.Binds id) →
      Waiting names b blocks →
      ∃ b', armBodies dst meeting bodies blocks b = .ok ((), b') ∧ b'.Good ∧
        b.Extends (blocks.filterMap fun l? => l?) b' ∧
        ∀ K : Layout, K.Sealed b' → K.Sealed b ∧
          Code.armBodies K dst meeting codes blocks b.registers.length b'.registers.length
  | [], [], _, _, b, _, hb, _, _ | _ :: _, _ :: _, [], _, b, _, hb, _, _ => by
    refine ⟨b, ?_, hb, .refl, fun K hK => ⟨hK, ?_⟩⟩
    · simp only [armBodies]
      rfl
    · simp only [Code.armBodies]
  | [], _ :: _, _, _, _, h, _, _, _ | _ :: _, [], _, _, _, h, _, _, _ => absurd h.1 (by simp)
  | body :: bodies, _ :: _, none :: _, _, _, h, hb, hs, hwait => by
    simpa only [armBodies, Code.armBodies, filterMap_cons] using
      run_armBodies dst meeting h.tail hb hs hwait.tail
  | body :: bodies, code :: _, some l :: blocks, names, b, h, hb, hs, hwait => by
    obtain ⟨hempty, hne⟩ := hwait.empty 0 l rfl
    -- the body goes into its block
    obtain ⟨o, b1, hrun1, hb1, hext1, hs1, hcode⟩ := h.2 0 body code rfl rfl (b.moveTo l)
      (hb.moveTo hempty)
      (forall_mem_append.2 ⟨hwait.bound 0 l rfl, hs⟩)
    have hext3 : (b.moveTo l).Extends [] ((b1.add (.move dst o)).add (.jump meeting)) :=
      hext1.trans ((Builder.Extends.add _ _).trans (.add _ _))
    have hwait0 : Waiting (fun i => names (i + 1)) (b.moveTo l) blocks := by
      refine ⟨fun i l' hl' => ⟨(hwait.tail.empty i l' hl').1, ?_⟩, hwait.tail.bound, hwait.tail.inj⟩
      rintro rfl
      exact absurd (hwait.inj 0 (i + 1) _ rfl hl') (by simp)
    obtain ⟨b', hrun', hb', hext', hrest⟩ :=
      run_armBodies dst meeting h.tail hb1.add.add hs1 (hwait0.extends hext3)
    refine ⟨b', ?_, hb', ?_, fun K hK => ?_⟩
    · rw [armBodies, run_switchTo, run_bind hrun1]
      exact hrun'
    · rw [filterMap_cons]
      refine Builder.Extends.trans_new (Builder.Extends.trans_new
        (Builder.Extends.refl.moveTo (.inl mem_cons_self)) hext3 (by simp)) hext' ?_
      exact fun l' hl' => .inl (mem_cons_of_mem _ hl')
    · obtain ⟨hK3, hrest⟩ := hrest K hK
      obtain ⟨hK2, hrest2⟩ := Layout.Sealed.of_add hb1.add hK3
      obtain ⟨hK1, hrest1⟩ := Layout.Inside.of_add hb1 hK2
      obtain ⟨hK0, hcode⟩ := hcode K hK1
      refine ⟨hK0.seals hempty, (b.moveTo l).spot K, o, b1.spot K, hK0.starts hempty, rfl, hcode,
        by rw [hrest1, hrest2], hrest⟩

/-! ## A match -/

/-- A tree, and the arms it leads to. -/
theorem Builds.arms {patterns : List ε} (dst : Reg)
    (htree : tree.EndsAt (Arm.Known c.function names patterns.length))
    (hparts : ∀ o ∈ tree.used, ∃ r, c.parts.lookup o = some r)
    (hguards : GuardsBuild names scope c.guards codes)
    (hbodies : BodiesBuild names scope bodies bodyCodes) :
    Builds scope (do
      let meeting ← newBlock
      let blocks ← choose c (patterns.map fun _ => none) tree
      armBodies dst meeting bodies blocks
      switchTo meeting) (Code.arms c.parts codes bodyCodes dst tree) scope := by
  intro b hb hs
  have hnone : ∀ i : Nat, (patterns.map fun _ => (none : Option Label))[i]?.join = none := by
    intro i
    rw [getElem?_map]
    cases patterns[i]? <;> rfl
  have hwait : Waiting names b.addBlock (patterns.map fun _ => none) := by
    refine ⟨fun i l h => ?_, fun i l h => ?_, fun i j l h => ?_⟩ <;>
    · rw [hnone i] at h
      cases h
  obtain ⟨blocks, b1, hrun1, hb1, hext1, hwait1, hmore, htail⟩ :=
    chooses_tree hguards tree htree hparts b.addBlock _ hb.addBlock hs (length_map _) hwait
  -- every arm's block was made after the one where they meet
  have hnew : ∀ l ∈ blocks.filterMap fun l? => l?, b.addBlock.blocks.length ≤ l := by
    intro l hl
    obtain ⟨l?, hmem, rfl⟩ := mem_filterMap.1 hl
    obtain ⟨i, hi⟩ := mem_iff_getElem?.1 hmem
    refine (hmore.new i l ?_).resolve_left fun h => ?_
    · rw [hi]
      rfl
    · rw [hnone i] at h
      cases h
  have hmeeting_notMem : b.blocks.length ∉ blocks.filterMap fun l? => l? := fun h => by
    have hle := hnew _ h
    rw [Builder.length_blocks_addBlock] at hle
    exact Nat.not_succ_le_self _ hle
  obtain ⟨b2, hrun2, hb2, hext2, hcodes⟩ := run_armBodies dst b.blocks.length hbodies
    hb1 (fun id hid => hext1.binds id (hs id hid)) hwait1
  obtain ⟨hmeeting1, hne1⟩ := hext1.getElem?_eq_nil Builder.getElem?_blocks_addBlock_last
    (Nat.ne_of_gt hb.current_lt) not_mem_nil
  obtain ⟨hmeeting2, -⟩ := hext2.getElem?_eq_nil hmeeting1 hne1 hmeeting_notMem
  have hext : b.Extends [] b2 := by
    refine ((Builder.Extends.addBlock b).trans hext1).trans_new hext2 fun l hl => .inr ?_
    exact Nat.le_trans (by simp) (hnew l hl)
  refine ⟨(), b2.moveTo b.blocks.length, ?_, ?_, hext.moveTo (.inr Nat.le.refl), ?_, fun K hK => ?_⟩
  · rw [run_newBlock, run_bind hrun1, run_bind hrun2]
    rfl
  · exact hb2.moveTo hmeeting2
  · exact fun id hid => hext.binds id (hs id hid)
  · obtain ⟨hK1, hcodes⟩ := hcodes K (hK.seals hmeeting2)
    obtain ⟨hK0, htail⟩ := htail K blocks hK1 fun _ _ h => h
    obtain ⟨hKb, hspot⟩ := Layout.Inside.of_addBlock hb hK0
    exact ⟨hKb, _, _, _, hspot ▸ htail, hcodes, hK.starts hmeeting2⟩

/-- **A match gives its code**, if its tree ends at its arms and the types of its parts are
known. -/
theorem Builds.ofMatch {info : Typed.Info} (hlookup : decisions.lookup id = some tree)
    (htree : tree.EndsAt (Arm.Known f names patterns.length))
    (hscrutinee : Builds scope scrutinee code scope)
    (hscrutineeTy : scrutineeTy.isUnresolved = false) (hinfo : info.ty.isUnresolved = false)
    (htypes : ∀ o ∈ tree.occurrences, ∃ ty, List.lookup o
      ((.root, scrutineeTy) :: patterns.flatMap (patternTypes .root)) = some ty ∧
        ty.isUnresolved = false) (hguards : GuardsBuild names scope guards codes)
    (hbodies : BodiesBuild names scope bodies bodyCodes) :
    Builds scope (buildMatch f decisions info id scrutineeTy scrutinee patterns guards bodies)
      (Code.ofMatch info scrutineeTy code patterns codes bodyCodes tree) scope := by
  rw [buildMatch, hlookup]
  refine hscrutinee.bind fun o => (inRegister hscrutineeTy o).bind fun root => ?_
  refine bind_of (fun parts => ∀ o ∈ tree.used, ∃ r, parts.lookup o = some r)
    (loadParts (Decision.loadable_occurrences tree) (by simp) htypes) ?_ ?_
  · intro b parts b' hrun o ho
    exact lookup_loadParts hrun o (.inl (Decision.mem_occurrences.2 ⟨o, ho, prefix_rfl⟩))
  · intro parts hparts
    refine (newRegister hinfo).bind fun dst => ?_
    have harms := arms (c := { function := f, id, parts, guards }) dst htree
      hparts hguards hbodies
    have h := harms.bind fun _ => pure (Operand.reg dst)
    simpa only [bind_assoc] using h

end Build

end Sluice.Flow
