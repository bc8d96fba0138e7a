import Sluice.Proofs.Lower.Frame
import Sluice.Proofs.Typing.Preservation

/-!
# A run follows an evaluation

What it is for a run of code to follow an evaluation (`Tracks`): it comes to the
next spot with the same world, or stops for the same reason with the same world.
Code follows an expression (`Simulates`) if its operand then holds the value,
and what the code leaves alone is as before.
-/

namespace Sluice.Flow

open Machine
open Typed (Arm Env Eval Expr Gives LocalId Program)

/-! ## The setting -/

/-- A function with some layout, in a world whose functions keep the types of a program. -/
structure Setting (K : Layout) where
  prog : Program
  locals : List Typed.Local
  calls : Calls
  function : Function Reg
  blocks : ∀ l : Label, function.blocks[l]?.map (·.instrs) = K.blocks[l]?
  apart : K.Apart
  calls_typed : calls.Typed prog.records prog.functionTypes

variable {K : Layout}

/-! ## Following an evaluation -/

/-- **A run follows an evaluation:** where that gives a value, the run leads to some place with the
same world; where it stops, the run stops for the same reason with the same world. -/
def Tracks (S : Setting K) {α : Type} (is : List (Instr Reg)) (s : State)
    (r : EStateM.Result Stop World α) (post : α → List (Instr Reg) → State → Prop) : Prop :=
  match r with
  | .ok a w => ∃ is' s', Leads S.calls S.function is s is' s' ∧ s'.world = w ∧ post a is' s'
  | .error stop w => ∃ t, Runs S.calls S.function is s (.stopped stop) t ∧ t.world = w

namespace Tracks

variable {S : Setting K} {α β : Type} {is is' : List (Instr Reg)} {s s' : State}
  {post : α → List (Instr Reg) → State → Prop}

theorem done (h : post a is s) : Tracks S is s (.ok a s.world) post :=
  ⟨is, s, fun _ _ h => h, rfl, h⟩

/-- A run that leads to where another starts. -/
theorem lead (hl : Leads S.calls S.function is s is' s')
    (h : Tracks S is' s' r post) : Tracks S is s r post := by
  cases r with
  | ok a w =>
    obtain ⟨is1, s1, hl1, hw, hpost⟩ := h
    exact ⟨is1, s1, fun e t ht => hl e t (hl1 e t ht), hw, hpost⟩
  | error stop w =>
    obtain ⟨t, ht, hw⟩ := h
    exact ⟨t, hl _ t ht, hw⟩

theorem mono (h : Tracks S is s r post)
    (hp : ∀ a is' s', post a is' s' → post' a is' s') : Tracks S is s r post' := by
  cases r with
  | ok a w =>
    obtain ⟨is1, s1, hl1, hw, hpost⟩ := h
    exact ⟨is1, s1, hl1, hw, hp a is1 s1 hpost⟩
  | error stop w => exact h

/-- One evaluation after another. -/
theorem bind {f : α → Eval β} (hx : Tracks S is s (x s.world) post)
    (hf : ∀ a is' s', x s.world = .ok a s'.world → post a is' s' →
      Tracks S is' s' (f a s'.world) post') :
    Tracks S is s ((x >>= f) s.world) post' := by
  cases hr : x s.world with
  | ok a w =>
    have hbind : (x >>= f) s.world = f a w := by simp only [Bind.bind, EStateM.bind, hr]
    rw [hr] at hx
    rw [hbind]
    obtain ⟨is1, s1, hl, rfl, hpost⟩ := hx
    exact (hf a is1 s1 hr hpost).lead hl
  | error stop w =>
    have hbind : (x >>= f) s.world = .error stop w := by simp only [Bind.bind, EStateM.bind, hr]
    rw [hr] at hx
    rwa [hbind]

/-- Code that follows no evaluation of its own, and then more. -/
theorem seq (hx : Tracks S is s (.ok a w) post)
    (hf : ∀ is' s', s'.world = w → post a is' s' → Tracks S is' s' r post') :
    Tracks S is s r post' := by
  obtain ⟨is1, s1, hl, hw, hpost⟩ := hx
  exact (hf is1 s1 hw hpost).lead hl

/-- An evaluation, and then code that follows none. -/
theorem andThen (h : Tracks S is s r post)
    (hf : ∀ a is' s', post a is' s' → Tracks S is' s' (.ok a s'.world) post') :
    Tracks S is s r post' := by
  cases r with
  | ok a w =>
    obtain ⟨is1, s1, hl, rfl, hpost⟩ := h
    exact (hf a is1 s1 hpost).lead hl
  | error stop w => exact h

/-- A result of a kind that the evaluation is known to give. -/
theorem typed (hg : Gives records fns objs x kind) (hw : s.world.heap.Typed records fns objs)
    (h : Tracks S is s (x s.world) post) :
    Tracks S is s (x s.world) fun a is' s' => post a is' s' ∧
      ∃ objs', objs.Grows objs' ∧ s'.world.heap.Typed records fns objs' ∧ kind objs' a := by
  cases hr : x s.world with
  | ok a w =>
    rw [hr] at h
    obtain ⟨is1, s1, hl, rfl, hpost⟩ := h
    exact ⟨is1, s1, hl, rfl, hpost, hg s.world a s1.world hw hr⟩
  | error stop w => rwa [hr] at h

theorem next (hi : i.step S.calls s = .next s')
    (h : Tracks S is s' r post) : Tracks S (i :: is) s r post :=
  h.lead fun _ _ ht => .next hi ht

/-- Control goes on in a block. -/
theorem goto (hi : i.step S.calls s = .goto l s) (hl : K.blocks[l]? = some is')
    (h : Tracks S is' s r post) : Tracks S (i :: is) s r post := by
  rw [← S.blocks] at hl
  obtain ⟨b, hb, rfl⟩ := Option.map_eq_some_iff.1 hl
  exact h.lead fun _ _ ht => .goto hi hb ht

theorem halt (hi : i.step S.calls s = .halt (.stopped stop) { s with world := w }) :
    Tracks S (i :: is) s (.error stop w) post :=
  ⟨{ s with world := w }, .halt hi, rfl⟩

end Tracks

/-! ## Following an expression -/

/-- **A state meets an environment:** registers hold the values of the locals in scope, and these
and the heap are well typed. -/
structure Meets (S : Setting K) (scope : List LocalId) (env : Env) (objs : ObjectTypes)
    (s : State) : Prop where
  agrees : Agrees K scope env s
  suits : env.Suits S.prog.functionTypes objs S.locals scope
  heap : s.world.heap.Typed S.prog.records S.prog.functionTypes objs

/-- What code has done when it comes to the next spot: its operand holds the value, and what it
leaves alone is as before. -/
structure Core (K : Layout) (n : Nat) (q : Spot) (o : Operand Reg) (held bound : List LocalId)
    (s : State) (v : Value) (is : List (Instr Reg)) (s' : State) : Prop where
  rest : is = q.rest
  value : o.value s' = v
  holds : Holds K q.next held o
  frame : Frame K n bound s s'

variable {S : Setting K} {scope bound : List LocalId} {env : Env} {objs : ObjectTypes} {s : State}

theorem Meets.frame (h : Meets S scope env objs s) (hf : Frame K n bound s s')
    (hd : Distinct scope bound) (hg : objs.Grows objs')
    (hw : s'.world.heap.Typed S.prog.records S.prog.functionTypes objs') :
    Meets S scope env objs' s' :=
  ⟨h.agrees.frame hf hd.2, h.suits.mono hg, hw⟩

/-- Code that only writes new temporaries keeps a state in line with its environment. -/
theorem Meets.temps (h : Meets S scope env objs s) (hf : Frame K n [] s s')
    (hw : s'.world = s.world) : Meets S scope env objs s' :=
  h.frame hf ⟨List.nodup_nil, fun _ _ => List.not_mem_nil⟩ .refl (hw ▸ h.heap)

/-- **Code follows the evaluation of an expression.** -/
def Simulates (S : Setting K) (scope bound : List LocalId) (E : Code (Operand Reg)) (e : Expr) :
    Prop :=
  ∀ ⦃env objs p o q s⦄, E K p o q → Meets S scope env objs s →
    Tracks S p.rest s (e.eval S.calls env s.world) fun v is s' =>
      Core K p.next q o (scope ++ bound) bound s v is s' ∧
        ∃ objs', objs.Grows objs' ∧ Meets S scope env objs' s' ∧
          HasType S.prog.functionTypes objs' v e.ty

/-- To follow a well typed expression it is enough to come to its value. -/
theorem Simulates.of_core (he : e.WellTyped S.prog S.locals scope)
    (hd : Distinct scope bound)
    (h : ∀ {env objs p o q s}, E K p o q → Meets S scope env objs s →
      Tracks S p.rest s (e.eval S.calls env s.world)
        (Core K p.next q o (scope ++ bound) bound s)) :
    Simulates S scope bound E e := by
  intro env objs p o q s hE hm
  refine ((h hE hm).typed (he.gives S.calls_typed hm.suits) hm.heap).mono ?_
  rintro v is s' ⟨hcore, objs', hg, hw, hv⟩
  exact ⟨hcore, objs', hg, hm.frame hcore.frame hd hg hw, hv⟩

/-! ## Small pieces of code -/

variable {held : List LocalId} {n n' : Nat} {p p1 p2 q : Spot} {o : Operand Reg} {v : Value}

/-- Code after code that left enough alone. -/
theorem Core.after (hf : Frame K n bound s s1) (hn : n ≤ n')
    (h : Core K n' q o held bound s1 v is s') : Core K n q o held bound s v is s' :=
  ⟨h.rest, h.value, h.holds, hf.trans (h.frame.mono hn fun _ hid => hid)⟩

/-- An instruction that writes a new temporary. -/
theorem tracks_write (ht : Code.temp ty K p r p1) (he : Code.emit i K p1 () q)
    (hi : i.step S.calls s = .next ({ s with world := w }.set r v)) :
    Tracks S p.rest s (.ok v w) (Core K p.next q (.reg r) held bound s) := by
  obtain ⟨rfl, hnext, hrest, -, htemp⟩ := ht
  obtain ⟨hi', hnext'⟩ := he
  rw [← hrest, hi']
  refine .next hi (.done (s := { s with world := w }.set p.next v) ⟨rfl, get_set_self .., ?_, ?_⟩)
  · exact .of_temp htemp (by rw [hnext', hnext]; exact Nat.lt_succ_self _)
  · exact Frame.trans (.of_memory_eq rfl) (.set_temp v htemp Nat.le.refl)

/-- A value is put into a register, if it is not in one. -/
theorem tracks_inRegister (h : Code.inRegister ty o K p r q) (ho : Holds K p.next held o) :
    Tracks S p.rest s (.ok (o.value s) s.world) (Core K p.next q (.reg r) held [] s) := by
  cases o with
  | reg r' =>
    obtain ⟨rfl, rfl⟩ := h
    exact .done ⟨rfl, rfl, ho, .refl⟩
  | imm l =>
    obtain ⟨r', p1, ht, _, p2, he, rfl, rfl⟩ := h
    exact tracks_write ht he rfl

/-- Fields are stored one after the other. -/
theorem tracks_stores : ∀ {values : List (Nat × Operand Reg)} {p q s},
    (values.forM fun (index, value) => Code.emit (.store r index value)) K p () q →
    Tracks S p.rest s (.ok () ((values.map fun x => (x.1, x.2.value s)).foldl
      (fun w (index, v) => w.store (s.get r) index v) s.world))
      fun _ is s' => is = q.rest ∧ q.next = p.next ∧ s'.memory = s.memory
  | [], p, q, s, h => by
    obtain ⟨-, rfl⟩ := h
    exact .done ⟨rfl, rfl, rfl⟩
  | (index, value) :: rest, p, q, s, h => by
    obtain ⟨_, p1, ⟨hi, hnext⟩, hrest⟩ := h
    rw [hi]
    refine .next rfl ((tracks_stores hrest).mono ?_)
    rintro _ is s' ⟨hr, hn, hm⟩
    exact ⟨hr, hn.trans hnext, hm⟩

/-- An object is made and filled in. -/
theorem tracks_object (h : Code.object ty shape values K p o q)
    (hv : ∀ x ∈ values, Holds K p.next held x.2) :
    Tracks S p.rest s
      (Typed.construct shape (values.map fun x => (x.1, x.2.value s)) s.world)
      (Core K p.next q o held bound s) := by
  obtain ⟨r, p1, ht, _, p2, he, _, p3, hstores, rfl, rfl⟩ := h
  obtain ⟨rfl, hnext, hrest, -, htemp⟩ := ht
  obtain ⟨hi, hnext'⟩ := he
  let s1 := { s with world := (s.world.alloc shape).2 }.set p.next (s.world.alloc shape).1
  have hframe : ∀ bound, Frame K p.next bound s s1 := fun _ =>
    Frame.trans (.of_memory_eq rfl) (.set_temp _ htemp Nat.le.refl)
  have hvalues : values.map (fun x => (x.1, x.2.value s1)) =
      values.map fun x => (x.1, x.2.value s) := by
    refine List.map_congr_left fun x hx => ?_
    rw [(hv x hx).value_eq (hframe []) Nat.le.refl fun _ _ => List.not_mem_nil]
  have hobject : s1.get p.next = (s.world.alloc shape).1 := get_set_self ..
  have htracks : Tracks S p2.rest s1 _ _ := tracks_stores hstores
  obtain ⟨is, s', hleads, hworld, hrest', hnext'', hmemory⟩ := htracks
  rw [hvalues, hobject] at hworld
  have hstep : (Instr.alloc p.next shape []).step S.calls s = .next s1 := rfl
  rw [← hrest, hi]
  refine .next hstep ⟨is, s', hleads, hworld, hrest', ?_, ?_, ?_⟩
  · exact (congrFun hmemory _).trans hobject
  · exact .of_temp htemp (by rw [hnext'', hnext', hnext]; exact Nat.lt_succ_self _)
  · exact (hframe bound).trans (.of_memory_eq hmemory)

end Sluice.Flow
