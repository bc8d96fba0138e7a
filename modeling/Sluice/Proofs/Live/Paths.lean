import Sluice.Proofs.Live.Sets

/-!
# What is written before it is read

A path starts at the entry and passes instructions one by one (`Function.Path`). To
see that something is written on every path before it is read, it is enough to name
the blocks in front of which it may still be needed, as long as the entry is not one
of them (`Function.Path.exists_write`). For registers these are the blocks that they
are live at, so a function in which only parameters are live at the entry reads no
register before it is written (`Function.Path.written`).

A trail is a path from anywhere (`Function.Trail`). A register is live where a trail
comes to a read of it and does not pass a write (`mem_liveAt_iff`): the sets have no
more than that since they are the least ones, and no less since they solve the equations.
-/

namespace Sluice.Flow

open List

variable {f : Function Reg} {passed is : List (Instr Reg)} {i : Instr Reg} {l : Label} {r : Reg}

/-! ## Paths -/

/-- **A path from the entry:** the instructions that it passes, and what is left of the block that
it comes to. -/
inductive Function.Path (f : Function Reg) : List (Instr Reg) → Label → List (Instr Reg) → Prop
  | start {b : Block Reg} (hb : f.blocks[entry]? = some b) : f.Path [] entry b.instrs
  | next {passed is : List (Instr Reg)} {i : Instr Reg} {l : Label}
    (h : f.Path passed l (i :: is)) : f.Path (passed ++ [i]) l is
  | goto {passed is : List (Instr Reg)} {i : Instr Reg} {l k : Label} {b : Block Reg}
    (h : f.Path passed l (i :: is)) (hk : k ∈ i.successors) (hb : f.blocks[k]? = some b) :
    f.Path (passed ++ [i]) k b.instrs

theorem Function.Path.at_place (h : f.Path passed l is) : f.At l is := by
  induction h with
  | start hb => exact .start hb
  | next _ ih => exact ih.next
  | goto _ _ hb _ => exact .start hb

/-! ## What is needed -/

/-- Something is needed before some instructions: one of them reads it and none before that writes
it, or none writes it and it is needed after them. -/
def Needs (reads writes : Instr Reg → Prop) (after : Prop) : List (Instr Reg) → Prop
  | [] => after
  | i :: is => reads i ∨ ¬ writes i ∧ Needs reads writes after is

variable {reads writes : Instr Reg → Prop} {after : Prop}

theorem needs_append :
    Needs reads writes after (is ++ js) ↔ Needs reads writes (Needs reads writes after js) is := by
  induction is with
  | nil => exact Iff.rfl
  | cons i is ih => simp only [cons_append, Needs, ih]

/-- A register is needed where it is live. -/
theorem needs_iff_mem_liveFrom (is : List (Instr Reg)) :
    Needs (fun i => r ∈ i.uses) (fun i => i.def? = some r) (r ∈ out) is ↔ r ∈ liveFrom out is := by
  induction is with
  | nil => exact Iff.rfl
  | cons i is ih => rw [Needs, liveFrom_cons, mem_liveBefore, ih, and_comm]

/-- A function in front of whose blocks something is needed at most where `S` says. -/
def Function.Needing (f : Function Reg) (reads writes : Instr Reg → Prop) (S : Label → Prop) :
    Prop :=
  ∀ (l : Label) b, f.blocks[l]? = some b →
    Needs reads writes (∃ k ∈ f.successors l, S k) b.instrs → S l

/-- **What is not needed at the entry is written on every path before it is read.** -/
theorem Function.Path.exists_write (hf : f.WellFormed) {S : Label → Prop}
    (hS : f.Needing reads writes S) (hentry : ¬ S entry) (h : f.Path passed l is) :
    Needs reads writes (∃ k ∈ f.successors l, S k) is → ∃ j ∈ passed, writes j := by
  induction h with
  | start hb => exact fun hneeds => absurd (hS entry _ hb hneeds) hentry
  | @next passed is i l _ ih =>
    intro hneeds
    by_cases hi : writes i
    · exact ⟨i, mem_append_right _ mem_cons_self, hi⟩
    · obtain ⟨j, hj, hwrites⟩ := ih (.inr ⟨hi, hneeds⟩)
      exact ⟨j, mem_append_left _ hj, hwrites⟩
  | @goto passed is i l k b h hk hb ih =>
    intro hneeds
    have hSk := hS k b hb hneeds
    by_cases hi : writes i
    · exact ⟨i, mem_append_right _ mem_cons_self, hi⟩
    · have hterm : i.isTerminator = true := by
        cases i <;> first | rfl | cases hk
      -- the path leaves the block, so nothing is left of it
      obtain ⟨rfl, hsucc⟩ := h.at_place.last hf hterm
      obtain ⟨j, hj, hwrites⟩ := ih (.inr ⟨hi, k, hsucc ▸ hk, hSk⟩)
      exact ⟨j, mem_append_left _ hj, hwrites⟩

/-- A register is needed at most where it is live. -/
theorem Function.needing_live (f : Function Reg) (r : Reg) :
    f.Needing (fun i => r ∈ i.uses) (fun i => i.def? = some r) fun l => r ∈ f.liveInAt l := by
  intro l b hb hneeds
  simp only [← mem_liveOutAt] at hneeds
  rw [liveInAt_eq hb]
  exact (needs_iff_mem_liveFrom b.instrs).1 hneeds

/-- **No register is read before it is written,** where only parameters are live at the entry. -/
theorem Function.Path.written (hf : f.WellFormed) (henters : ∀ r ∈ f.liveInAt entry, r ∈ f.params)
    (h : f.Path passed l (i :: is)) (hr : r ∈ i.uses) :
    r ∈ f.params ∨ ∃ j ∈ passed, j.def? = some r := by
  by_cases hparam : r ∈ f.params
  · exact .inl hparam
  · exact .inr (h.exists_write hf (f.needing_live r) (fun hlive => hparam (henters r hlive))
      (.inl hr))

/-! ## Registers that are read later -/

/-- **A trail through a function:** from what is left of one block it passes instructions, and comes
to what is left of another. -/
inductive Function.Trail (f : Function Reg) :
    Label → List (Instr Reg) → List (Instr Reg) → Label → List (Instr Reg) → Prop
  | here (l : Label) (is : List (Instr Reg)) : f.Trail l is [] l is
  | pass {l k : Label} {i : Instr Reg} {is passed js : List (Instr Reg)}
    (h : f.Trail l is passed k js) : f.Trail l (i :: is) (i :: passed) k js
  | goto {l m k : Label} {b : Block Reg} {passed js : List (Instr Reg)} (hm : m ∈ f.successors l)
    (hb : f.blocks[m]? = some b) (h : f.Trail m b.instrs passed k js) : f.Trail l [] passed k js

/-- **A register is read later:** a trail comes to an instruction that uses it, and passes none that
writes it. -/
def Function.ReadLater (f : Function Reg) (r : Reg) (l : Label) (is : List (Instr Reg)) : Prop :=
  ∃ passed k i js, f.Trail l is passed k (i :: js) ∧ r ∈ i.uses ∧ ∀ j ∈ passed, j.def? ≠ some r

theorem Function.ReadLater.goto (h : f.ReadLater r k b.instrs) (hk : k ∈ f.successors l)
    (hb : f.blocks[k]? = some b) : f.ReadLater r l [] := by
  obtain ⟨passed, m, i, js, htrail, hread⟩ := h
  exact ⟨passed, m, i, js, .goto hk hb htrail, hread⟩

/-- What is live in a block is read later if that is so at its end. -/
theorem readLater_of_mem_liveFrom (hout : r ∈ out → f.ReadLater r l []) :
    ∀ is, r ∈ liveFrom out is → f.ReadLater r l is := by
  intro is
  induction is with
  | nil => exact hout
  | cons i is ih =>
    intro hr
    rcases mem_liveBefore.1 hr with hr | ⟨hr, hdef⟩
    · exact ⟨[], l, i, is, .here .., hr, forall_mem_nil _⟩
    · obtain ⟨passed, k, j, js, htrail, hread, hpassed⟩ := ih hr
      exact ⟨_, k, j, js, htrail.pass, hread, forall_mem_cons.2 ⟨hdef, hpassed⟩⟩

/-- **A register is live where it is read later.** -/
theorem mem_liveAt_iff : r ∈ f.liveAt l is ↔ f.ReadLater r l is := by
  constructor
  · have hleast : ∀ l, ∀ r ∈ f.liveInAt l,
        ∃ b, f.blocks[l]? = some b ∧ f.ReadLater r l b.instrs := by
      refine liveInAt_least fun l b hb out hout r hr =>
        ⟨b, hb, readLater_of_mem_liveFrom (fun hr => ?_) _ hr⟩
      obtain ⟨k, hk, c, hc, hlater⟩ := hout r hr
      exact hlater.goto (by simpa [Function.successors, hb] using hk) hc
    refine readLater_of_mem_liveFrom (fun hr => ?_) is
    obtain ⟨k, hk, hr⟩ := mem_liveOutAt.1 hr
    obtain ⟨b, hb, hlater⟩ := hleast k r hr
    exact hlater.goto hk hb
  · rintro ⟨passed, k, i, js, htrail, hread, hpassed⟩
    generalize his : i :: js = rest at htrail
    induction htrail with
    | here => exact his ▸ mem_liveBefore.2 (.inl hread)
    | pass _ ih =>
      obtain ⟨hdef, hpassed⟩ := forall_mem_cons.1 hpassed
      exact mem_liveBefore.2 (.inr ⟨ih hpassed his, hdef⟩)
    | goto hm hb _ ih => exact mem_liveOutAt.2 ⟨_, hm, liveInAt_eq hb ▸ ih hpassed his⟩

end Sluice.Flow
