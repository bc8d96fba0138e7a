import Sluice.Proofs.Lower.Follow
import Sluice.Proofs.Machine.Effect

/-!
# Lowered functions come to an end and read what they wrote

Every way through the code of a well typed expression ends, and no register is read
that was not written before on the same way, whatever the types of the values
(`secures_expr`). So a run of it comes to one end, which does not depend on what other
registers held before (`Safe.runs`).
-/

namespace Sluice.Flow

open List Machine
open Typed (Arm Expr LocalId Program)

/-! ## Safe instructions -/

/-- A register is the one of an operand. -/
def Operand.Names (o : Operand Reg) (r : Reg) : Prop := o = .reg r

theorem Operand.names_of_mem {o : Operand Reg} (h : r ∈ o.reg?.toList) : o.Names r := by
  cases o with
  | imm _ => cases h
  | reg _ => exact congrArg reg (mem_singleton.1 h).symm

theorem Operand.exists_names {os : List (Operand Reg)}
    (h : r ∈ os.filterMap reg?) : ∃ o ∈ os, o.Names r := by
  obtain ⟨o, ho, hr⟩ := mem_filterMap.1 h
  exact ⟨o, ho, names_of_mem (Option.mem_toList.2 hr)⟩

/-- **Some instructions are safe** where some registers hold values: every way through them comes to
an end, and reads only registers that hold a value by then. -/
inductive Safe (K : Layout) : (Reg → Prop) → List (Instr Reg) → Prop
  /-- An instruction that control goes on after. -/
  | next {A : Reg → Prop} {i : Instr Reg} {rest : List (Instr Reg)} :
      i.isTerminator = false → i.slot? = none → (∀ r ∈ i.uses, A r) →
      Safe K (fun r => A r ∨ i.def? = some r) rest → Safe K A (i :: rest)
  /-- An instruction that ends a block. -/
  | last {A : Reg → Prop} {i : Instr Reg} {rest : List (Instr Reg)}
      (code : Label → List (Instr Reg)) :
      i.isTerminator = true → (∀ r ∈ i.uses, A r) →
      (∀ l ∈ i.successors, K.blocks[l]? = some (code l)) →
      (∀ l ∈ i.successors, Safe K A (code l)) → Safe K A (i :: rest)

variable {K : Layout} {A B : Reg → Prop} {is : List (Instr Reg)}

namespace Safe

/-- What is safe stays so where more registers hold values. -/
theorem mono (h : Safe K A is) (hA : ∀ r, A r → B r) : Safe K B is := by
  induction h generalizing B with
  | next hi hslot huses _ ih =>
    exact .next hi hslot (fun r hr => hA r (huses r hr)) (ih fun r => Or.imp_left (hA r))
  | last code hi huses hcode _ ih =>
    exact .last code hi (fun r hr => hA r (huses r hr)) hcode fun l hl => ih l hl hA

theorem jump (hl : K.blocks[l]? = some is) (h : Safe K A is) : Safe K A [.jump l] := by
  refine .last (fun _ => is) rfl nofun (fun l' hl' => ?_) fun _ _ => h
  rw [mem_singleton.1 hl', hl]

theorem branch {o : Operand Reg} (ho : ∀ r, o.Names r → A r)
    (hl : K.blocks[l]? = some is) (h : Safe K A is) (hl' : K.blocks[l']? = some is')
    (h' : Safe K A is') : Safe K A [.branch o l l'] := by
  refine .last (fun k => if k = l then is else is') rfl
    (fun r hr => ho r (Operand.names_of_mem hr)) (fun k hk => ?_) fun k hk => ?_
  · split
    · rename_i heq
      rw [heq, hl]
    · rename_i hne
      rw [mem_singleton.1 ((mem_cons.1 hk).resolve_left hne), hl']
  · split
    · exact h
    · exact h'

end Safe

/-! ## Code that makes safe -/

/-- **Code is safe if what comes after it is**, where more registers hold values, according to what
it gives. -/
def Secures {α : Type} (K : Layout) (A : Reg → Prop) (X : Code α) (W : α → Reg → Prop) : Prop :=
  ∀ p a q, X K p a q → Safe K (fun r => A r ∨ W a r) q.rest → Safe K A p.rest

variable {α β : Type} {E : Code (Operand Reg)}

namespace Secures

theorem pure (h : ∀ r, W a r → A r) : Secures K A (pure a : Code α) W := by
  rintro p _ _ ⟨rfl, rfl⟩ hq
  exact hq.mono fun r hr => hr.elim id (h r)

theorem bind {f : α → Code β} (hX : Secures K A X W)
    (hf : ∀ a, (∃ p q, X K p a q) → Secures K (fun r => A r ∨ W a r) (f a) V) :
    Secures K A (X >>= f) V := by
  rintro p b q ⟨a, p1, hx, hb⟩ hq
  refine hX p a p1 hx (hf a ⟨p, p1, hx⟩ p1 b q hb (hq.mono fun r hr => ?_))
  exact hr.imp_left .inl

theorem mono_result (hX : Secures K A X W) (h : ∀ a r, V a r → A r ∨ W a r) : Secures K A X V :=
  fun p a q hx hq => hX p a q hx (hq.mono fun r hr => hr.elim .inl (h a r))

end Secures

theorem secures_emit (hi : i.isTerminator = false) (hslot : i.slot? = none)
    (huses : ∀ r ∈ i.uses, A r) : Secures K A (Code.emit i) fun _ r => i.def? = some r := by
  rintro p _ q ⟨hrest, -⟩ hq
  rw [hrest]
  exact .next hi hslot huses hq

theorem secures_temp : Secures K A (Code.temp ty) fun _ _ => False := by
  rintro p r q ⟨-, -, hrest, -⟩ hq
  rw [← hrest]
  exact hq.mono fun r hr => hr.resolve_right nofun

theorem secures_bindLocal {id} : Secures K A (Code.bindLocal id) fun _ _ => False := by
  rintro p r q ⟨-, -, hrest⟩ hq
  rw [← hrest]
  exact hq.mono fun r hr => hr.resolve_right nofun

theorem secures_given {a? : Option α} : Secures K A (Code.given a?) fun _ _ => False := by
  rintro p a q ⟨-, rfl⟩ hq
  exact hq.mono fun r hr => hr.resolve_right nofun

theorem secures_ofLocal {id} : Secures K A (Code.ofLocal id) fun _ _ => False := by
  rintro p r q ⟨-, rfl⟩ hq
  exact hq.mono fun r hr => hr.resolve_right nofun

theorem secures_inRegister (ho : ∀ r, o.Names r → A r) :
    Secures K A (Code.inRegister ty o) fun r r' => r' = r := by
  cases o with
  | reg r => exact .pure fun r' hr' => ho r' (hr' ▸ rfl)
  | imm value =>
    refine secures_temp.bind fun r _ => (secures_emit rfl rfl nofun).bind fun _ _ => .pure ?_
    rintro _ rfl
    exact .inr rfl

/-- A new temporary is written by an instruction. -/
theorem secures_write {ty} {i : Reg → Instr Reg} (huses : ∀ r, ∀ r' ∈ (i r).uses, A r')
    (hi : ∀ r, (i r).isTerminator = false := by exact fun _ => rfl)
    (hslot : ∀ r, (i r).slot? = none := by exact fun _ => rfl)
    (hdef : ∀ r, (i r).def? = some r := by exact fun _ => rfl) :
    Secures K A (do
      let r ← Code.temp ty
      Code.emit (i r)
      return Operand.reg r) Operand.Names := by
  refine secures_temp.bind fun r _ => (secures_emit (hi r) (hslot r)
    fun r' hr' => .inl (huses r r' hr')).bind fun _ _ => .pure ?_
  rintro r' hr'
  cases hr'
  exact .inr (hdef r)

theorem secures_stores : ∀ {values : List (Nat × Operand Reg)} {A}, A r →
    (∀ x ∈ values, ∀ r, x.2.Names r → A r) →
    Secures K A (values.forM fun (index, value) => Code.emit (.store r index value))
      fun _ _ => False
  | [], _, _, _ => .pure nofun
  | (index, value) :: rest, A, hr, hv => by
    obtain ⟨hvalue, hrest⟩ := forall_mem_cons.1 hv
    refine Secures.bind (secures_emit rfl rfl ?_) fun _ _ =>
      secures_stores (.inl hr) fun x hx r hr => .inl (hrest x hx r hr)
    exact forall_mem_cons.2 ⟨hr, fun r' hr' => hvalue r' (Operand.names_of_mem hr')⟩

theorem secures_object (hv : ∀ x ∈ values, ∀ r, x.2.Names r → A r) :
    Secures K A (Code.object ty shape values) Operand.Names := by
  refine secures_temp.bind fun r _ => (secures_emit rfl rfl nofun).bind fun _ _ =>
    Secures.bind (secures_stores (.inr rfl) fun x hx r' hr' => .inl (.inl (hv x hx r' hr')))
      fun _ _ => .pure ?_
  rintro _ hr'
  cases hr'
  exact .inl (.inr rfl)

/-! ## Branches -/

theorem secures_detour (henter : ∀ l l' is is', K.blocks[l]? = some is → K.blocks[l']? = some is' →
      Safe K A is → Safe K A is' → Safe K A [enter l l']) (hX : Secures K A X fun _ _ => False) :
    Secures K A (Code.detour enter X) fun _ _ => False := by
  rintro p _ q ⟨second, meeting, p1, q1, hp, hp1, -, hx, hq1, hmeeting, -⟩ hq
  have hq' : Safe K A q.rest := hq.mono fun r hr => hr.resolve_right nofun
  rw [hp]
  refine henter second meeting _ _ hp1 hmeeting (hX p1 () q1 hx ?_) hq'
  rw [hq1]
  exact .jump hmeeting hq

theorem secures_fork (ho : ∀ r, o.Names r → A r) (hX : Secures K A X W)
    (hY : Secures K A Y W) : Secures K A (Code.fork o X Y) W := by
  rintro p _ q ⟨yes, no, meeting, p1, q1, p2, q2, hp, hp1, -, hx, hq1, hp2, -, hy, hq2, hmeeting,
    -⟩ hq
  rw [hp]
  refine .branch ho hp1 (hX p1 () q1 hx ?_) hp2 (hY p2 () q2 hy ?_)
  · rw [hq1]
    exact .jump hmeeting hq
  · rw [hq2]
    exact .jump hmeeting hq

/-- A register is given the value of an expression. -/
theorem secures_assign (hE : Secures K A E Operand.Names) :
    Secures K A (do Code.emit (.move dst (← E)) : Code Unit) fun _ r => r = dst := by
  refine hE.bind fun o _ => (secures_emit rfl rfl fun r hr =>
    .inr (Operand.names_of_mem hr)).mono_result ?_
  rintro _ r rfl
  exact .inr rfl

/-- A second operand that is only evaluated if the first does not decide. -/
theorem secures_shortcut {enter : Operand Reg → Label → Label → Instr Reg}
    (henter : ∀ o l l' is is' (B : Reg → Prop), (∀ r, o.Names r → B r) → K.blocks[l]? = some is →
      K.blocks[l']? = some is' → Safe K B is → Safe K B is' → Safe K B [enter o l l'])
    (hE : Secures K A E Operand.Names)
    (hF : ∀ B : Reg → Prop, (∀ r, A r → B r) → Secures K B F Operand.Names) :
    Secures K A (do
      let lhs ← E
      let dst ← Code.temp .bool
      Code.emit (.move dst lhs)
      Code.detour (enter lhs) do Code.emit (.move dst (← F))
      return Operand.reg dst) Operand.Names := by
  refine hE.bind fun o _ => secures_temp.bind fun dst _ => (secures_emit rfl rfl fun r hr =>
    .inl (.inr (Operand.names_of_mem hr))).bind fun _ _ => Secures.bind (secures_detour ?_ ?_)
      fun _ _ => .pure ?_
  · exact fun l l' is is' => henter o l l' is is' _ fun r hr => .inl (.inl (.inr hr))
  · exact (secures_assign (hF _ fun r hr => .inl (.inl (.inl hr)))).mono_result nofun
  · rintro r hr
    cases hr
    exact .inl (.inr rfl)

/-! ## Matches -/

theorem secures_loads {root types} :
    ∀ {os parts} {A}, A root →
      (∀ o r, parts.lookup o = some r → A r) →
      Secures K A (Code.loads root types parts os) fun parts r => ∃ o, parts.lookup o = some r
  | [], parts, A, _, hparts => .pure fun r ⟨o, ho⟩ => hparts o r ho
  | o :: rest, parts, A, hroot, hparts => by
    have hcons : ∀ {B : Reg → Prop} {r : Reg}, B r → (∀ o r, parts.lookup o = some r → B r) →
        ∀ o' r', List.lookup o' ((o, r) :: parts) = some r' → B r' := by
      intro B r hr hparts o' r' h
      rw [lookup_cons] at h
      split at h
      · exact Option.some.inj h ▸ hr
      · exact hparts o' r' h
    rw [Code.loads]
    split
    · refine secures_given.bind fun object hgiven => secures_given.bind fun ty _ =>
        secures_temp.bind fun r _ => (secures_emit rfl rfl ?_).bind fun _ _ =>
          secures_loads (.inl (.inl (.inl (.inl hroot)))) (hcons (.inr rfl) ?_)
      · obtain ⟨_, _, hobject, -⟩ := hgiven
        exact fun r' hr' => .inl (.inl (.inl (mem_singleton.1 hr' ▸ hparts _ _ hobject)))
      · exact fun o r hr => .inl (.inl (.inl (.inl (hparts o r hr))))
    · exact secures_loads hroot (hcons hroot hparts)

theorem secures_binds {parts} : ∀ {bindings} {A},
    (∀ o r, parts.lookup o = some r → A r) →
    Secures K A (Code.binds parts bindings) fun _ r => ∃ b ∈ bindings, K.reg? b.id = some r
  | [], A, _ => .pure nofun
  | b :: rest, A, hparts => by
    have hfirst : Secures K A (do
        let src ← Code.given (parts.lookup b.occurrence)
        let dst ← Code.bindLocal b.id
        Code.emit (.move dst (.reg src))) fun _ r => K.reg? b.id = some r := by
      refine secures_given.bind fun src ⟨_, _, hsrc, _⟩ => secures_bindLocal.bind
        fun dst ⟨_, _, hdst, _⟩ => (secures_emit rfl rfl ?_).mono_result fun _ r hr => ?_
      · exact fun r hr => .inl (.inl (mem_singleton.1 hr ▸ hparts _ _ hsrc))
      · exact .inr (hdst.symm.trans hr)
    exact hfirst.bind fun _ _ => (secures_binds fun o r hr => .inl (hparts o r hr)).mono_result
      fun _ _ hr => ((exists_mem_cons_iff _ _ _).1 hr).imp_left .inr

/-- A register is that of a local of an arm. -/
def OfArm (K : Layout) (a : Arm Expr) (r : Reg) : Prop :=
  ∃ id ∈ a.pattern.binders, K.reg? id = some r

/-- What the code of a tree relies on: the registers of parts hold values, and guards are secure
and the blocks of arms are safe where the locals of their arm hold values too. -/
structure Code.Ways.Secure (K : Layout) (c : Code.Ways) (A : Reg → Prop) (arms : List (Arm Expr)) :
    Prop where
  parts : ∀ o r, c.parts.lookup o = some r → A r
  guards : ∀ (i : Nat) a code, arms[i]? = some a → c.guards[i]?.join = some code →
    ∀ B : Reg → Prop, (∀ r, A r ∨ OfArm K a r → B r) → Secures K B code Operand.Names
  targets : ∀ (i : Nat) a l, arms[i]? = some a → c.targets[i]?.join = some l →
    ∃ is, K.blocks[l]? = some is ∧ Safe K (fun r => A r ∨ OfArm K a r) is

/-- An end of a tree binds what the pattern of its arm binds. -/
def Binds (arms : List (Arm Expr)) (i : Nat) (bindings : List Decision.Binding) : Prop :=
  ∃ a, arms[i]? = some a ∧ bindings = Decision.patternBindings .root a.pattern

variable {c : Code.Ways} {arms : List (Arm Expr)} {guards : List (Option (Code (Operand Reg)))}
  {bodies : List (Code (Operand Reg))}

theorem OfArm.mem_patternBindings (h : OfArm K a r) :
    ∃ b ∈ Decision.patternBindings .root a.pattern, K.reg? b.id = some r := by
  obtain ⟨id, hid, hr⟩ := h
  obtain ⟨b, hb, rfl⟩ := mem_map.1 (a.pattern.map_id_patternBindings ▸ hid)
  exact ⟨b, hb, hr⟩

/-- A tail is safe where some registers hold values, and others may. -/
def SafeTail (K : Layout) (A : Reg → Prop) (T : Tail) : Prop :=
  ∀ p n (B : Reg → Prop), (∀ r, A r → B r) → T K p n → Safe K B p.rest

/-- A comparison of a part, and then one of two tails. -/
theorem SafeTail.compare (hpart : A part) (hX : SafeTail K A X)
    (hY : SafeTail K A Y) : SafeTail K A (Code.compare part value X Y) := by
  intro p n B hB hcode
  obtain ⟨r, q, hcompare, yes, no, p1, p2, hq, hp1, -, hx, hp2, hy⟩ := hcode
  obtain ⟨_, p3, ht, _, _, he, rfl, rfl⟩ := hcompare
  refine secures_temp p r p3 ht (secures_emit rfl rfl ?_ p3 () q he ?_)
  · exact fun r' hr' => .inl (mem_singleton.1 hr' ▸ hB part hpart)
  · rw [hq]
    refine .branch (fun r' hr' => ?_) hp1 (hX p1 _ _ (fun r hr => .inl (.inl (hB r hr))) hx) hp2
      (hY p2 _ _ (fun r hr => .inl (.inl (hB r hr))) hy)
    cases hr'
    exact .inr rfl

section

variable (hc : c.Secure K A arms)

include hc

set_option linter.unusedSectionVars false in
mutual

/-- **The code of a tree is safe.** -/
theorem safe_choose : ∀ t, t.EndsAt (Binds arms) → SafeTail K A (Code.choose c t)
  | .leaf arm bindings, ⟨a, ha, hbindings⟩ => by
    rintro p n B hB ⟨_, q, hbinds, l, hl, hrest, -⟩
    subst hbindings
    obtain ⟨is, his, hsafe⟩ := hc.targets arm a l ha hl
    refine secures_binds (fun o r hr => hB r (hc.parts o r hr)) p () q hbinds ?_
    rw [hrest]
    exact .jump his (hsafe.mono fun r hr => hr.imp (hB r) OfArm.mem_patternBindings)
  | .guard arm bindings fallback, ⟨⟨a, ha, hbindings⟩, hfallback⟩ => by
    rintro p n B hB ⟨_, q, hbinds, hcode⟩
    subst hbindings
    refine secures_binds (fun o r hr => hB r (hc.parts o r hr)) p () q hbinds ?_
    have hnames : ∀ r, A r ∨ OfArm K a r → B r ∨
        ∃ b ∈ Decision.patternBindings .root a.pattern, K.reg? b.id = some r :=
      fun r hr => hr.imp (hB r) OfArm.mem_patternBindings
    cases hguard : c.guards[arm]?.join with
    | none =>
      simp only [hguard] at hcode
      obtain ⟨l, hl, hrest, -⟩ := hcode
      obtain ⟨is, his, hsafe⟩ := hc.targets arm a l ha hl
      rw [hrest]
      exact .jump his (hsafe.mono hnames)
    | some code =>
      simp only [hguard] at hcode
      obtain ⟨o, q1, hcode, l, next, p1, hl, hbranch, hnext, -, hrest⟩ := hcode
      obtain ⟨is, his, hsafe⟩ := hc.targets arm a l ha hl
      refine hc.guards arm a code ha hguard _ hnames q o q1 hcode ?_
      rw [hbranch]
      refine .branch (fun r hr => .inr hr) his (hsafe.mono fun r hr => .inl (hnames r hr)) hnext ?_
      exact safe_choose fallback hfallback p1 n _ (fun r hr => .inl (.inl (hB r hr))) hrest
  | .test o branches none, ht => by
    rintro p n B hB ⟨part, _, ⟨hpart, rfl⟩, hcode⟩
    exact safe_chooseLast (hc.parts o part hpart) branches ht.2 p n B hB hcode
  | .test o branches (some default), ht => by
    rintro p n B hB ⟨part, _, ⟨hpart, rfl⟩, hcode⟩
    exact safe_chooseAmong (hc.parts o part hpart) (safe_choose default ht.2) branches ht.1 p n B hB
      hcode
  | .fail, _ => fun _ _ _ _ hcode => hcode.elim

theorem safe_chooseAmong (hpart : A part)
    (ho : SafeTail K A others) : ∀ branches,
    Decision.Tree.BranchesEndAt (Binds arms) branches →
    SafeTail K A (Code.chooseAmong c part others branches)
  | [], _ => ho
  | (_, t) :: rest, ht => .compare hpart (safe_choose t ht.1) (safe_chooseAmong hpart ho rest ht.2)

theorem safe_chooseLast (hpart : A part) :
    ∀ branches,
    Decision.Tree.BranchesEndAt (Binds arms) branches →
    SafeTail K A (Code.chooseLast c part branches)
  | [], _ => fun _ _ _ _ hcode => hcode.elim
  | [(_, t)], ht => safe_choose t ht.1
  | (_, t) :: next :: rest, ht =>
    .compare hpart (safe_choose t ht.1) (safe_chooseLast hpart (next :: rest) ht.2)

end

end

/-- The guards and bodies of arms are secure where the locals of their arm hold values. -/
def ArmsSecure (K : Layout) (A : Reg → Prop) (arms : List (Arm Expr))
    (guards : List (Option (Code (Operand Reg)))) (bodies : List (Code (Operand Reg))) : Prop :=
  ∀ (i : Nat) a, arms[i]? = some a → ∀ B : Reg → Prop, (∀ r, A r ∨ OfArm K a r → B r) →
    (∃ body, bodies[i]? = some body ∧ Secures K B body Operand.Names) ∧
      ∀ code, guards[i]?.join = some code → Secures K B code Operand.Names

theorem ArmsSecure.cons {guard? : Option (Code (Operand Reg))}
    (hbody : ∀ B : Reg → Prop, (∀ r, A r ∨ OfArm K a r → B r) → Secures K B body Operand.Names)
    (hguard : ∀ code, guard? = some code → ∀ B : Reg → Prop, (∀ r, A r ∨ OfArm K a r → B r) →
      Secures K B code Operand.Names) (h : ArmsSecure K A arms guards bodies) :
    ArmsSecure K A (a :: arms) (guard? :: guards) (body :: bodies)
  | 0, _, rfl, B, hB => ⟨⟨body, rfl, hbody B hB⟩, fun code hcode => hguard code hcode B hB⟩
  | i + 1, a', ha, B, hB => h i a' ha B hB

theorem secures_arms {parts : Parts} (hparts : ∀ o r, parts.lookup o = some r → A r)
    (harms : ArmsSecure K A arms guards bodies)
    (htotal : (Decision.compile arms).firstFailure? = none) :
    Secures K A (Code.arms parts guards bodies dst (Decision.compile arms)) fun _ r => r = dst := by
  rintro p _ q ⟨meeting, targets, n, hchoose, hbodies, hmeeting⟩ hq
  have hc : Code.Ways.Secure K ⟨parts, guards, targets⟩ A arms :=
    { parts := hparts
      guards := fun i a code ha hcode B hB => (harms i a ha B hB).2 code hcode
      targets := fun i a l ha hl => by
        obtain ⟨body, hb, hsecures⟩ := (harms i a ha _ fun _ h => h).1
        obtain ⟨p1, o, q1, hp1, -, hcode, hrest, -⟩ := armBodies_getElem? hbodies hl hb
        refine ⟨p1.rest, hp1, hsecures p1 o q1 hcode ?_⟩
        rw [hrest]
        refine .next rfl rfl (fun r hr => .inr (Operand.names_of_mem hr)) (.jump hmeeting
          (hq.mono fun r hr => ?_))
        exact hr.imp (fun h => .inl (.inl h)) fun h => congrArg some h.symm }
  exact safe_choose hc _ (Decision.endsAt_compile (fun i a ha => ⟨a, ha, rfl⟩) htotal) p n A
    (fun _ h => h) hchoose

theorem secures_ofMatch (hE : Secures K A E Operand.Names)
    (harms : ∀ B : Reg → Prop, (∀ r, A r → B r) → ArmsSecure K B arms guards bodies)
    (htotal : (Decision.compile arms).firstFailure? = none) :
    Secures K A (Code.ofMatch info ty E (arms.map (·.pattern)) guards bodies
      (Decision.compile arms)) Operand.Names := by
  refine hE.bind fun o _ => (secures_inRegister fun r hr => .inr hr).bind fun root _ =>
    (secures_loads (.inr rfl) nofun).bind fun parts _ => secures_temp.bind fun dst _ =>
      (secures_arms ?_ (harms _ fun r hr => .inl (.inl (.inl (.inl hr)))) htotal).bind
        fun _ _ => .pure fun r hr => ?_
  · exact fun o r hr => .inl (.inr ⟨o, hr⟩)
  · cases hr
    exact .inr rfl

/-! ## Expressions -/

/-- No match among some fails. -/
def Exhaustive (sites : List Decision.Site) : Prop :=
  ∀ site ∈ sites, (Decision.compile site.arms).firstFailure? = none

theorem Exhaustive.left (h : Exhaustive (xs ++ ys)) : Exhaustive xs :=
  (forall_mem_append.1 h).1

theorem Exhaustive.right (h : Exhaustive (xs ++ ys)) : Exhaustive ys :=
  (forall_mem_append.1 h).2

/-- The locals in scope hold values. -/
def Bound (K : Layout) (scope : List LocalId) (A : Reg → Prop) : Prop :=
  ∀ id ∈ scope, ∀ r, K.reg? id = some r → A r

theorem Bound.mono (h : Bound K scope A) (hA : ∀ r, A r → B r) : Bound K scope B :=
  fun id hid r hr => hA r (h id hid r hr)

theorem Bound.arm (h : Bound K scope A)
    (hB : ∀ r, A r ∨ OfArm K a r → B r) : Bound K (a.pattern.binders ++ scope) B := by
  intro id hid r hr
  rcases mem_append.1 hid with hid | hid
  · exact hB r (.inr ⟨id, hid, hr⟩)
  · exact hB r (.inl (h id hid r hr))

variable {prog : Program} {locals : List Typed.Local}

/-- A call of a known function. -/
theorem secures_direct {ty : Ty} (hargs : Secures K A args fun os r => ∃ o ∈ os, o.Names r) :
    Secures K A (do
      let os ← args
      let r ← Code.temp ty
      Code.emit (.call r (.direct symbol) os)
      return Operand.reg r) Operand.Names := by
  exact hargs.bind fun os _ => secures_write fun _ _ hr => .inr (Operand.exists_names hr)

mutual

/-- **The code of a well typed expression is secure** where the locals in scope hold values, if none
of its matches fails. -/
theorem secures_expr : ∀ {e : Expr} {scope} {A : Reg → Prop},
    e.WellTyped prog locals scope → Exhaustive (Decision.sites e) → Bound K scope A →
    Secures K A (Code.ofExpr e) Operand.Names
  | .literal _ _, _, _, _, _, _ => .pure nofun
  | .var _ id, _, A, he, _, hA => by
    refine secures_ofLocal.bind fun r ⟨_, _, hr, _⟩ => .pure fun r' hr' => ?_
    cases hr'
    exact .inl (hA id he.1 r hr)
  | .function _ _, _, _, _, _, _ => secures_write fun _ => nofun
  | .letIn _ id _ _, _, A, ⟨_, _, hvalue, hbody⟩, hx, hA => by
    refine (secures_expr hvalue hx.left hA).bind fun o _ => secures_bindLocal.bind
      fun dst ⟨_, _, hdst, _⟩ => (secures_emit rfl rfl fun r hr =>
        .inl (.inr (Operand.names_of_mem hr))).bind fun _ _ => secures_expr hbody hx.right ?_
    intro id' hid' r hr
    rcases mem_cons.1 hid' with rfl | hid'
    · exact .inr (hdst.symm.trans hr)
    · exact .inl (.inl (.inl (hA id' hid' r hr)))
  | .block _ _, _, _, he, hx, hA => secures_block he.2 hx hA nofun
  | .ifThen _ _ _, _, A, he, hx, hA => by
    refine (secures_expr he.2.2.2.1 hx.left hA).bind fun o _ => Secures.bind (secures_detour ?_ ?_)
      fun _ _ => .pure nofun
    · exact fun _ _ _ _ hl hl' h h' => .branch (fun r hr => .inr hr) hl h hl' h'
    · exact (secures_expr he.2.2.2.2 hx.right (hA.mono fun _ => .inl)).bind fun _ _ => .pure nofun
  | .ifElse _ _ _ _, _, A, he, hx, hA => by
    have hinner {o : Operand Reg} := hA.mono fun r hr =>
      (.inl (.inl hr) : (A r ∨ o.Names r) ∨ False)
    refine (secures_expr he.2.2.2.1 hx.left.left hA).bind fun o _ => secures_temp.bind fun dst _ =>
      Secures.bind (secures_fork (fun r hr => .inl (.inr hr))
        (secures_assign (secures_expr he.2.2.2.2.1 hx.left.right hinner))
        (secures_assign (secures_expr he.2.2.2.2.2 hx.right hinner))) fun _ _ =>
          .pure fun r hr => ?_
    cases hr
    exact .inr rfl
  | .record _ _ _, _, _, ⟨_, _, _, _, hfields⟩, hx, hA =>
    (secures_fields hfields hx hA).bind fun _ _ => secures_object fun x hx _ hr =>
      .inr ⟨x, hx, hr⟩
  | .field _ _ _ _, _, _, he, hx, hA =>
    (secures_expr he.2 hx hA).bind fun _ _ => (secures_inRegister fun _ hr => .inr hr).bind
      fun _ _ => secures_write fun _ _ hr => .inr (mem_singleton.1 hr)
  | .callFunction _ _ _, _, _, he, hx, hA => secures_direct (secures_list he.2 hx hA)
  | .callMethod _ _ _ _ _, _, _, he, hx, hA => secures_direct (secures_list he.2.2.2 hx hA)
  | .callValue _ _ _, _, _, he, hx, hA => by
    refine (secures_expr he.2.1 hx.left hA).bind fun _ _ =>
      (secures_inRegister fun _ hr => .inr hr).bind fun callee _ =>
        (secures_list he.2.2 hx.right (hA.mono fun _ hr => .inl (.inl hr))).bind fun os _ =>
          secures_write fun _ r hr => ?_
    rcases mem_append.1 hr with hr | hr
    · exact .inl (.inr (mem_singleton.1 hr))
    · exact .inr (Operand.exists_names hr)
  | .cases _ _ _ arms, _, _, he, hx, hA => by
    obtain ⟨hx, hxs⟩ := forall_mem_cons.1 hx
    exact secures_ofMatch (secures_expr he.1 (Exhaustive.left hxs) hA)
      (fun B hB => armsSecure he.2 (Exhaustive.right hxs) (hA.mono hB)) hx
  | .list _ _, _, _, he, hx, hA =>
    (secures_list he.2 hx hA).bind fun _ _ => secures_object fun x hx _ hr =>
      .inr ⟨x.2, mem_of_mem_indexed hx, hr⟩
  | .binary _ op _ _, _, A, he, hx, hA => by
    have hlhs := secures_expr he.2.1 hx.left hA
    have hrhs : ∀ B : Reg → Prop, (∀ r, A r → B r) → Secures K B _ Operand.Names := fun B hB =>
      secures_expr he.2.2 hx.right (hA.mono hB)
    by_cases hand : op = .and
    · subst hand
      exact secures_shortcut (fun _ _ _ _ _ _ ho hl hl' h h' => .branch ho hl h hl' h') hlhs hrhs
    by_cases hor : op = .or
    · subst hor
      exact secures_shortcut (fun _ _ _ _ _ _ ho hl hl' h h' => .branch ho hl' h' hl h) hlhs hrhs
    rw [Code.ofExpr_binary hand hor]
    refine hlhs.bind fun _ _ => (hrhs _ fun _ => .inl).bind fun _ _ =>
      secures_write fun _ r hr => ?_
    rcases mem_append.1 hr with hr | hr
    · exact .inl (.inr (Operand.names_of_mem hr))
    · exact .inr (Operand.names_of_mem hr)
  | .unary _ _ _, _, _, he, hx, hA =>
    (secures_expr he.2 hx hA).bind fun _ _ => secures_write fun _ _ hr =>
      .inr (Operand.names_of_mem hr)

theorem secures_list : ∀ {es scope} {A},
    Expr.WellTypedList prog locals scope es → Exhaustive (Decision.sitesList es) →
    Bound K scope A → Secures K A (Code.ofList es) fun os r => ∃ o ∈ os, o.Names r
  | [], _, _, _, _, _ => .pure nofun
  | _ :: _, _, _, he, hx, hA =>
    (secures_expr he.1 hx.left hA).bind fun _ _ =>
      (secures_list he.2 hx.right (hA.mono fun _ => .inl)).bind fun _ _ =>
        .pure fun _ hr => ((exists_mem_cons_iff _ _ _).1 hr).imp_left .inr

theorem secures_block : ∀ {es scope} {A}
    {last}, Expr.WellTypedList prog locals scope es →
    Exhaustive (Decision.sitesList es) → Bound K scope A → (∀ r, last.Names r → A r) →
    Secures K A (Code.ofBlock last es) Operand.Names
  | [], _, _, _, _, _, _, hlast => .pure hlast
  | _ :: _, _, _, _, he, hx, hA, _ =>
    (secures_expr he.1 hx.left hA).bind fun _ _ =>
      secures_block he.2 hx.right (hA.mono fun _ => .inl) fun _ => .inr

theorem secures_fields {record} : ∀ {fields}
    {scope} {A},
    Expr.WellTypedFields prog locals scope record fields →
    Exhaustive (Decision.sitesFields fields) → Bound K scope A →
    Secures K A (Code.ofFields fields) fun xs r => ∃ x ∈ xs, x.2.Names r
  | [], _, _, _, _, _ => .pure nofun
  | ⟨_, _, _, _⟩ :: _, _, _, he, hx, hA =>
    (secures_expr he.2.1 hx.left hA).bind fun _ _ =>
      (secures_fields he.2.2 hx.right (hA.mono fun _ => .inl)).bind fun _ _ =>
        .pure fun _ hr => ((exists_mem_cons_iff _ _ _).1 hr).imp_left .inr

theorem armsSecure {ty result} : ∀ {arms scope}
    {A}, Expr.WellTypedArms prog locals scope ty result arms →
    Exhaustive (Decision.sitesArms arms) → Bound K scope A →
    ArmsSecure K A arms (Code.ofGuards arms) (Code.ofBodies arms)
  | [], _, _, _, _, _ => nofun
  | ⟨_, _, none, body⟩ :: rest, _, _, ⟨_, _, hbody, hrest⟩, hx, hA =>
    .cons (fun _ hB => secures_expr hbody hx.left (hA.arm hB)) nofun (armsSecure hrest hx.right hA)
  | ⟨_, _, some guard, body⟩ :: rest, _, _, ⟨_, _, _, hguard, hbody, hrest⟩, hx, hA => by
    refine .cons (fun _ hB => secures_expr hbody hx.left.right (hA.arm hB)) ?_
      (armsSecure hrest hx.right hA)
    intro code hcode B hB
    exact Option.some.inj hcode ▸ secures_expr hguard hx.left.left (hA.arm hB)

end

/-! ## Functions -/

variable {calls : Calls} {g : Function Reg}

/-- Safe instructions step alike where the registers that hold values are the same. -/
theorem step_of_agree {i : Instr Reg} (hslot : i.slot? = none) (huses : ∀ r ∈ i.uses, A r)
    (hw : t.world = s.world) (h : ∀ r, A r → t.get r = s.get r) :
    i.step calls t = (i.effect calls s.get (stackOf s) s.world).apply t (i.def?.map Cell.cell) := by
  rw [i.step_eq, hw, i.effect_congr (fun r hr => h r (huses r hr)) (by simp [hslot])]

/-- A write keeps the agreement of two states, and extends it to its register. -/
theorem agree_set {s t : State} (h : ∀ r, A r → t.get r = s.get r) (r : Reg)
    (hr : A r ∨ some d = some r) :
    ({ t with world := w }.set d v).get r = ({ s with world := w }.set d v).get r := by
  by_cases heq : r = d
  · rw [heq, get_set_self, get_set_self]
  · rw [get_set_of_ne heq, get_set_of_ne heq]
    exact h r (hr.resolve_right fun h => heq (Option.some.inj h).symm)

/-- **Safe instructions come to one end**, which depends only on the world and on the registers
that hold values. -/
theorem Safe.runs (hblocks : ∀ l : Label, g.blocks[l]?.map (·.instrs) = K.blocks[l]?)
    (h : Safe K A is) : ∀ s : State, ∃ e w', ∀ t : State, t.world = s.world →
      (∀ r, A r → t.get r = s.get r) → ∃ t', Runs calls g is t e t' ∧ t'.world = w' := by
  -- `Safe` is well founded even where blocks are shared, so no bound on the steps is needed
  induction h with
  | @next A i rest hi hslot huses _ ih =>
    intro s
    cases he : i.effect calls s.get (stackOf s) s.world with
    | write v w =>
      obtain ⟨d, hd⟩ := Instr.exists_def_of_effect he
      obtain ⟨e, w', hruns⟩ := ih ({ s with world := w }.set d v)
      refine ⟨e, w', fun t hw ht => ?_⟩
      obtain ⟨t', hrest, hw'⟩ := hruns ({ t with world := w }.set d v) rfl fun r hr =>
        agree_set ht r (hd ▸ hr)
      refine ⟨t', .next ?_ hrest, hw'⟩
      rw [step_of_agree hslot huses hw ht, he, hd]
      rfl
    | change w =>
      obtain ⟨e, w', hruns⟩ := ih { s with world := w }
      refine ⟨e, w', fun t hw ht => ?_⟩
      obtain ⟨t', hrest, hw'⟩ := hruns { t with world := w } rfl fun r hr =>
        ht r (hr.resolve_right (Instr.def?_of_effect he ▸ nofun))
      refine ⟨t', .next ?_ hrest, hw'⟩
      rw [step_of_agree hslot huses hw ht, he]
      rfl
    | spill slot v =>
      obtain ⟨src, rfl⟩ := Instr.slot_of_effect he
      cases hslot
    | goto l => rw [Instr.isTerminator_of_effect he] at hi; cases hi
    | halt e w =>
      refine ⟨e, w, fun t hw ht => ⟨{ t with world := w }, .halt ?_, rfl⟩⟩
      rw [step_of_agree hslot huses hw ht, he]
      rfl
  | @last A i rest code hi huses hcode _ ih =>
    intro s
    have hslot : i.slot? = none := Instr.slot?_of_isTerminator hi
    rcases Instr.effect_of_isTerminator hi with ⟨l, he⟩ | ⟨e, he⟩
    · have hl := Instr.mem_successors_of_effect he
      obtain ⟨b, hb, hinstrs⟩ := Option.map_eq_some_iff.1 ((hblocks l).trans (hcode l hl))
      obtain ⟨e, w', hruns⟩ := ih l hl s
      refine ⟨e, w', fun t hw ht => ?_⟩
      obtain ⟨t', hrest, hw'⟩ := hruns t hw ht
      refine ⟨t', .goto ?_ hb (hinstrs ▸ hrest), hw'⟩
      rw [step_of_agree hslot huses hw ht, he]
      rfl
    · refine ⟨e, s.world, fun t hw ht => ⟨{ t with world := s.world }, .halt ?_, rfl⟩⟩
      rw [step_of_agree hslot huses hw ht, he]
      rfl

end Sluice.Flow
