import Sluice.Proofs.Lower.Code
import Sluice.Proofs.Machine.Run
import Sluice.Proofs.Typing.Rules

/-!
# What code leaves alone

Code uses registers from the number it starts at (`Code.steady`), and the
registers of the locals it binds. All others keep their values (`Frame`), among
them those that hold values computed before: temporaries of earlier code, and
the registers of locals bound elsewhere (`Holds`).
-/

namespace Sluice.Flow

open List Machine
open Typed (LocalId)

/-! ## Registers that keep their values -/

/-- A register is a temporary. -/
def Layout.Temporary (K : Layout) (r : Reg) : Prop := ∀ id, K.reg? id ≠ some r

/-- No two locals share a register. -/
def Layout.Apart (K : Layout) : Prop :=
  ∀ id id' r, K.reg? id = some r → K.reg? id' = some r → id = id'

/-- A register is left alone by code that starts at a number and binds some locals. -/
def Spared (K : Layout) (n : Nat) (bound : List LocalId) (r : Reg) : Prop :=
  (r < n ∧ K.Temporary r) ∨ ∃ id, K.reg? id = some r ∧ id ∉ bound

/-- **Registers that are left alone have kept their values.** -/
def Frame (K : Layout) (n : Nat) (bound : List LocalId) (s s' : State) : Prop :=
  ∀ r, Spared K n bound r → s'.get r = s.get r

/-- **An operand holds its value** until some locals are bound anew: it is a constant, an earlier
temporary or the register of one of the locals. -/
def Holds (K : Layout) (n : Nat) (locals : List LocalId) : Operand Reg → Prop
  | .imm _ => True
  | .reg r => (r < n ∧ K.Temporary r) ∨ ∃ id ∈ locals, K.reg? id = some r

/-- Registers hold the values of the locals in scope. -/
def Agrees (K : Layout) (scope : List LocalId) (env : Typed.Env) (s : State) : Prop :=
  ∀ id ∈ scope, ∃ r, K.reg? id = some r ∧ s.get r = env id

/-- Locals that are bound once, and not among those in scope. -/
def Distinct (scope bound : List LocalId) : Prop :=
  bound.Nodup ∧ ∀ id ∈ scope, id ∉ bound

variable {K : Layout} {n n' : Nat} {bound bound' scope scope' : List LocalId} {s s' s'' : State}
  {r : Reg} {id : LocalId}

theorem Distinct.append : Distinct scope (bound ++ bound') ↔
    Distinct scope bound ∧ Distinct (scope ++ bound) bound' := by
  simp only [Distinct, nodup_append, mem_append]
  grind

theorem Distinct.mono (h : Distinct scope bound) (hs : ∀ id ∈ scope', id ∈ scope) :
    Distinct scope' bound :=
  ⟨h.1, fun id hid => h.2 id (hs id hid)⟩

/-- Locals that are bound apart are bound apart in each part. -/
theorem Distinct.split (h : Distinct scope (bound ++ bound')) :
    Distinct scope bound ∧ Distinct scope bound' :=
  have ⟨h1, h2⟩ := append.1 h
  ⟨h1, h2.mono fun _ => mem_append_left _⟩

theorem Distinct.cons : Distinct scope (id :: bound) ↔
    id ∉ scope ∧ Distinct (id :: scope) bound := by
  simp only [Distinct, nodup_cons, mem_cons]
  grind

theorem Spared.mono (h : Spared K n bound r) (hn : n ≤ n') (hb : ∀ id ∈ bound', id ∈ bound) :
    Spared K n' bound' r := by
  rcases h with ⟨hlt, htemp⟩ | ⟨id, hid, hnot⟩
  · exact .inl ⟨Nat.lt_of_lt_of_le hlt hn, htemp⟩
  · exact .inr ⟨id, hid, fun hmem => hnot (hb id hmem)⟩

namespace Frame

theorem refl : Frame K n bound s s := fun _ _ => rfl

theorem trans (h : Frame K n bound s s') (h' : Frame K n bound s' s'') : Frame K n bound s s'' :=
  fun r hr => (h' r hr).trans (h r hr)

/-- Code that starts later and binds less leaves more alone. -/
theorem mono (h : Frame K n' bound' s s') (hn : n ≤ n') (hb : ∀ id ∈ bound', id ∈ bound) :
    Frame K n bound s s' :=
  fun r hr => h r (hr.mono hn hb)

/-- One piece of code after another. -/
theorem append (h : Frame K n bound s s') (h' : Frame K n' bound' s' s'') (hn : n ≤ n') :
    Frame K n (bound ++ bound') s s'' :=
  (h.mono Nat.le.refl fun _ => mem_append_left _).trans
    (h'.mono hn fun _ => mem_append_right _)

/-- Code may write new temporaries. -/
theorem set_temp (v : Value) (hr : K.Temporary r) (hn : n ≤ r) : Frame K n bound s (s.set r v) := by
  intro r' hr'
  refine get_set_of_ne ?_ v
  rintro rfl
  rcases hr' with ⟨hlt, -⟩ | ⟨id, hid, -⟩
  · exact absurd hlt (Nat.not_lt.2 hn)
  · exact hr id hid

/-- Code may write the locals it binds. -/
theorem set_local (v : Value) (hK : K.Apart) (hr : K.reg? id = some r) (hid : id ∈ bound) :
    Frame K n bound s (s.set r v) := by
  intro r' hr'
  refine get_set_of_ne ?_ v
  rintro rfl
  rcases hr' with ⟨-, htemp⟩ | ⟨id', hid', hnot⟩
  · exact htemp id hr
  · exact hnot (hK id' id _ hid' hr ▸ hid)

/-- What the world does is not seen in registers. -/
theorem of_memory_eq (h : s'.memory = s.memory) : Frame K n bound s s' :=
  fun r _ => congrFun h (Cell.cell r)

end Frame

theorem Holds.mono (h : Holds K n scope o) (hn : n ≤ n')
    (hs : ∀ id ∈ scope, id ∈ scope') : Holds K n' scope' o := by
  cases o with
  | imm _ => trivial
  | reg r =>
    rcases h with ⟨hlt, htemp⟩ | ⟨id, hid, hr⟩
    · exact .inl ⟨Nat.lt_of_lt_of_le hlt hn, htemp⟩
    · exact .inr ⟨id, hs id hid, hr⟩

theorem Holds.of_temp (hr : K.Temporary r) (hn : r < n) : Holds K n scope (.reg r) :=
  .inl ⟨hn, hr⟩

/-- A register that holds a value is left alone by code that binds other locals. -/
theorem Holds.spared (h : Holds K n scope (.reg r)) (hn : n ≤ n') (hb : ∀ id ∈ scope, id ∉ bound) :
    Spared K n' bound r := by
  rcases h with ⟨hlt, htemp⟩ | ⟨id, hid, hr⟩
  · exact .inl ⟨Nat.lt_of_lt_of_le hlt hn, htemp⟩
  · exact .inr ⟨id, hr, hb id hid⟩

/-- **An operand keeps its value** while code binds other locals. -/
theorem Holds.value_eq (h : Holds K n scope o) (hf : Frame K n' bound s s') (hn : n ≤ n')
    (hb : ∀ id ∈ scope, id ∉ bound) : o.value s' = o.value s := by
  cases o with
  | imm _ => rfl
  | reg r => exact hf r (h.spared hn hb)

theorem Agrees.frame (h : Agrees K scope env s) (hf : Frame K n bound s s')
    (hb : ∀ id ∈ scope, id ∉ bound) : Agrees K scope env s' := by
  intro id hid
  obtain ⟨r, hr, hv⟩ := h id hid
  exact ⟨r, hr, (hf r (.inr ⟨id, hr, hb id hid⟩)).trans hv⟩

/-- A local is bound to a value. -/
theorem Agrees.bind (h : Agrees K scope env s) (hK : K.Apart) (hr : K.reg? id = some r)
    (v : Value) : Agrees K (id :: scope) (Function.update env id v) (s.set r v) := by
  intro id' hid'
  by_cases heq : id' = id
  · subst heq
    exact ⟨r, hr, by rw [get_set_self, Function.update_self]⟩
  · obtain ⟨r', hr', hv⟩ := h id' ((mem_cons.1 hid').resolve_left heq)
    refine ⟨r', hr', ?_⟩
    rw [get_set_of_ne, hv, Function.update_of_ne heq]
    rintro rfl
    exact heq (hK id' id _ hr' hr)

end Sluice.Flow
