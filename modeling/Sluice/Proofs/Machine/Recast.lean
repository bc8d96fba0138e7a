import Sluice.Proofs.Live.Sets
import Sluice.Proofs.Machine.Observe

/-!
# Instructions changed where they stand

A function whose instructions are replaced one by one (`Function.Recast`) stays in
order and needs no other registers, as long as no instruction asks for more than the
one it stands for. Runs of both go through the same states, if what is known of a
state makes the two instructions do the same there (`Function.Recast.inStep`).
-/

namespace Sluice.Flow

open List Machine

/-! ## Fewer live registers -/

/-- Registers that a block carries back from below what was live at its end stay below what was
live at its start, so they stay below everywhere. -/
theorem liveInAt_subset {f g : Function Reg}
    (hsucc : ∀ k l, l ∈ g.successors k → l ∈ f.successors k)
    (hblock : ∀ (l : Label) c, g.blocks[l]? = some c → ∀ out : IdSet,
      (∀ r ∈ out, r ∈ f.liveOutAt l) → ∀ r ∈ liveFrom out c.instrs, r ∈ f.liveInAt l) :
    ∀ l, ∀ r ∈ g.liveInAt l, r ∈ f.liveInAt l := by
  refine liveInAt_least fun l c hc out hout r hr => hblock l c hc out (fun q hq => ?_) r hr
  obtain ⟨k, hk, hq⟩ := hout q hq
  have hk' : k ∈ g.successors l := by simpa [Function.successors, hc] using hk
  exact mem_liveOutAt.2 ⟨k, hsucc l k hk', hq⟩

/-! ## Instructions changed where they stand -/

/-- **An instruction asks for no more than another one:** it writes the same register and uses the
same slot, and it reads no other register and goes nowhere else. -/
structure Instr.Narrows (j i : Instr Reg) : Prop where
  isTerminator_eq : j.isTerminator = i.isTerminator
  def_eq : j.def? = i.def?
  uses_subset : ∀ r ∈ j.uses, r ∈ i.uses
  successors_subset : ∀ l ∈ j.successors, l ∈ i.successors
  slot_eq : j.slot? = i.slot?

theorem Instr.Narrows.mentions {i j : Instr Reg} (h : j.Narrows i) (hr : j.Mentions r) :
    i.Mentions r :=
  hr.imp (fun hr => h.def_eq ▸ hr) (h.uses_subset r)

/-- **A function with other instructions in the same places**, each related to the one it stands
for. -/
structure Function.Recast (E : Instr Reg → Instr Reg → Prop) (f g : Function Reg) : Prop where
  name : g.name = f.name
  params : g.params = f.params
  registers : g.registers = f.registers
  blocks : List.Forall₂ (fun b c => List.Forall₂ E b.instrs c.instrs) f.blocks g.blocks

variable {E : Instr Reg → Instr Reg → Prop} {f g : Function Reg} {l k : Label} {c : Block Reg}

/-- Related lists are related place by place. -/
theorem getElem?_of_forall₂ (h : Forall₂ R xs ys) {n : Nat}
    (hx : xs[n]? = some x) : ∃ y, ys[n]? = some y ∧ R x y := by
  induction h generalizing n with
  | nil => simp at hx
  | cons hxy _ ih =>
    cases n with
    | zero => exact ⟨_, rfl, Option.some.inj hx ▸ hxy⟩
    | succ n => exact ih hx

/-- Related lists have related last members. -/
theorem exists_concat_of_forall₂ {R : α → β → Prop} :
    ∀ {xs ys}, Forall₂ R (xs ++ [x]) ys → ∃ ys' y, ys = ys' ++ [y] ∧ Forall₂ R xs ys' ∧ R x y
  | [], _, .cons hx .nil => ⟨[], _, rfl, .nil, hx⟩
  | _ :: _, _, .cons hfirst hrest =>
    let ⟨ys', y, heq, hys, hx⟩ := exists_concat_of_forall₂ hrest
    ⟨_ :: ys', y, congrArg _ heq, .cons hfirst hys, hx⟩

section

variable (hE : ∀ i j, E i j → j.Narrows i)
include hE

/-- Narrower instructions need fewer registers. -/
theorem liveFrom_subset (h : Forall₂ E is js)
    (hout : ∀ r ∈ out', r ∈ out) : ∀ r ∈ liveFrom out' js, r ∈ liveFrom out is := by
  induction h with
  | nil => exact hout
  | cons hij _ ih =>
    intro r hr
    rw [liveFrom_cons, mem_liveBefore] at hr ⊢
    have hnarrow := hE _ _ hij
    exact hr.imp (hnarrow.uses_subset r) fun ⟨hr, hdef⟩ => ⟨ih r hr, hnarrow.def_eq ▸ hdef⟩

/-- Narrower instructions make up a whole block too, and the instructions that end the two blocks
are related. -/
theorem Ended.of_forall₂ {b : Block Reg} (h : Forall₂ E b.instrs c.instrs) (hb : Ended b.instrs) :
    Ended c.instrs ∧
      ∃ i j, E i j ∧ b.successors = i.successors ∧ c.successors = j.successors := by
  obtain ⟨body, last, heq, hlast, hbody⟩ := hb
  rw [heq] at h
  obtain ⟨body', last', heq', hrest, hlast'⟩ := exists_concat_of_forall₂ h
  have hterm : last'.isTerminator = true := (hE _ _ hlast').isTerminator_eq.trans hlast
  refine ⟨⟨body', last', heq', hterm, fun j hj => ?_⟩, last, last', hlast',
    b.successors_eq heq hlast, c.successors_eq heq' hterm⟩
  obtain ⟨n, hn⟩ := getElem?_of_mem hj
  obtain ⟨i, hi, hij⟩ := getElem?_of_forall₂ hrest.flip hn
  rw [(hE i j hij).isTerminator_eq]
  exact hbody i (mem_of_getElem? hi)

end

namespace Function.Recast

theorem block (h : Recast E f g) (hb : f.blocks[l]? = some b) :
    ∃ c, g.blocks[l]? = some c ∧ Forall₂ E b.instrs c.instrs :=
  getElem?_of_forall₂ h.blocks hb

theorem of_block (h : Recast E f g) (hc : g.blocks[l]? = some c) :
    ∃ b, f.blocks[l]? = some b ∧ Forall₂ E b.instrs c.instrs :=
  getElem?_of_forall₂ h.blocks.flip hc

/-- Every instruction stands for one. -/
theorem of_mem (h : Recast E f g) (hc : c ∈ g.blocks) (hj : j ∈ c.instrs) :
    ∃ b ∈ f.blocks, ∃ i ∈ b.instrs, E i j := by
  obtain ⟨l, hl⟩ := getElem?_of_mem hc
  obtain ⟨b, hb, hinstrs⟩ := h.of_block hl
  obtain ⟨n, hn⟩ := getElem?_of_mem hj
  obtain ⟨i, hi, hij⟩ := getElem?_of_forall₂ hinstrs.flip hn
  exact ⟨b, mem_of_getElem? hb, i, mem_of_getElem? hi, hij⟩

theorem withPredecessors (h : Recast E f g) : Recast E f g.withPredecessors where
  name := h.name
  params := h.params
  registers := h.registers
  blocks := by
    have hinstrs : g.withPredecessors.blocks.map (·.instrs) = g.blocks.map (·.instrs) := by
      refine ext_getElem? fun l => ?_
      rw [getElem?_map, getElem?_map, getElem?_withPredecessors, Option.map_map]
      rfl
    have hblocks := h.blocks
    rw [← forall₂_map_right_iff (f := Block.instrs)] at hblocks ⊢
    rwa [hinstrs]

section

variable (h : Recast E f g) (hE : ∀ i j, E i j → j.Narrows i)
include h hE

theorem slots : ∀ j ∈ g.instructions, ∀ slot ∈ j.slot?, ∃ i ∈ f.instructions, slot ∈ i.slot? := by
  intro j hj slot hslot
  obtain ⟨c, hc, hj⟩ := mem_flatMap.1 hj
  obtain ⟨b, hb, i, hi, hij⟩ := h.of_mem hc hj
  exact ⟨i, mem_flatMap.2 ⟨b, hb, hi⟩, (hE i j hij).slot_eq ▸ hslot⟩

variable (hf : f.WellFormed)
include hf

/-- A block goes where some instruction goes, and the block in its place where the related one
does. -/
theorem exists_ends (hk : k < f.blocks.length) :
    ∃ i j, E i j ∧ f.successors k = i.successors ∧ g.successors k = j.successors := by
  have hb := getElem?_eq_getElem hk
  obtain ⟨c, hc, hinstrs⟩ := h.block hb
  obtain ⟨-, i, j, hij, hi, hj⟩ := (hf.ended _ (getElem_mem hk)).of_forall₂ hE hinstrs
  exact ⟨i, j, hij, by simpa [Function.successors, hb] using hi,
    by simpa [Function.successors, hc] using hj⟩

theorem successors_subset (hl : l ∈ g.successors k) : l ∈ f.successors k := by
  have hk : k < f.blocks.length := h.blocks.length_eq ▸ lt_of_mem_successors hl
  obtain ⟨i, j, hij, hi, hj⟩ := h.exists_ends hE hf hk
  rw [hj] at hl
  rw [hi]
  exact (hE i j hij).successors_subset l hl

theorem wellFormed : g.WellFormed where
  nonempty := h.blocks.length_eq ▸ hf.nonempty
  ended c hc := by
    obtain ⟨l, hl⟩ := getElem?_of_mem hc
    obtain ⟨b, hb, hinstrs⟩ := h.of_block hl
    exact ((hf.ended b (mem_of_getElem? hb)).of_forall₂ hE hinstrs).1
  target_lt c hc k hk := by
    obtain ⟨l, hl⟩ := getElem?_of_mem hc
    have hk' : k ∈ g.successors l := by simpa [Function.successors, hl] using hk
    exact h.blocks.length_eq ▸ hf.successor_lt (h.successors_subset hE hf hk')
  known c hc j hj r hr := by
    obtain ⟨b, hb, i, hi, hij⟩ := h.of_mem hc hj
    rw [h.registers]
    exact hf.known b hb i hi r ((hE i j hij).mentions hr)

theorem live : ∀ l, ∀ r ∈ g.liveInAt l, r ∈ f.liveInAt l := by
  refine liveInAt_subset (fun k l => h.successors_subset hE hf) fun l c hc out hout r hr => ?_
  obtain ⟨b, hb, hinstrs⟩ := h.of_block hc
  rw [liveInAt_eq hb]
  exact liveFrom_subset hE hinstrs hout r hr

end

/-- Instructions that go where the ones they stand for go make blocks that do. -/
theorem subset_successors (h : Recast E f g) (hE : ∀ i j, E i j → j.Narrows i)
    (hsucc : ∀ i j, E i j → ∀ l ∈ i.successors, l ∈ j.successors) (hf : f.WellFormed)
    (hl : l ∈ f.successors k) : l ∈ g.successors k := by
  obtain ⟨i, j, hij, hi, hj⟩ := h.exists_ends hE hf (lt_of_mem_successors hl)
  rw [hi] at hl
  rw [hj]
  exact hsucc i j hij l hl

end Function.Recast

/-! ## Runs through the same states -/

/-- Every step of a run keeps something true of where it is and of its state. -/
structure Function.Keeps (calls : Calls) (f : Function Reg)
    (I : Label → List (Instr Reg) → State → Prop) : Prop where
  next : ∀ {l : Label} {i : Instr Reg} {is : List (Instr Reg)} {s s' : State}, f.At l (i :: is) →
    I l (i :: is) s → i.step calls s = .next s' → I l is s'
  goto : ∀ {l k : Label} {i : Instr Reg} {is : List (Instr Reg)} {s : State} {b : Block Reg},
    f.At l (i :: is) → I l (i :: is) s → k ∈ i.successors → f.blocks[k]? = some b →
    I k b.instrs s

theorem Function.Keeps.trivial : f.Keeps calls fun _ _ _ => True where
  next _ _ _ := ⟨⟩
  goto _ _ _ _ := ⟨⟩

/-- Control goes to a block of the function. -/
theorem Function.At.exists_block (h : f.At l (i :: is)) (hf : f.WellFormed)
    (hk : k ∈ i.successors) : ∃ b, f.blocks[k]? = some b := by
  have hi : i.isTerminator = true := by
    cases i <;> first | rfl | cases hk
  obtain ⟨-, hsucc⟩ := h.last hf hi
  exact ⟨_, getElem?_eq_getElem (hf.successor_lt (hsucc ▸ hk))⟩

section

variable {calls : Calls} {I : Label → List (Instr Reg) → State → Prop}
  (h : Function.Recast E f g) (hf : f.WellFormed) (hkeeps : f.Keeps calls I)
  (hsame : ∀ {l i is s j}, f.At l (i :: is) → I l (i :: is) s → E i j →
    j.sights s.get = i.sights s.get ∧ j.step calls s = i.step calls s)
include h hf hkeeps hsame

/-- **Runs of a recast function go through the same states**, if what is known of a state makes
related instructions do the same there. -/
theorem Function.Recast.inStep :
    InStep some calls f g fun is s js t => t = s ∧ Forall₂ E is js ∧ ∃ l, f.At l is ∧ I l is s where
  nil := by
    rintro s js t ⟨-, hnil, -⟩
    cases hnil
    rfl
  cons := by
    rintro i is s js t ⟨rfl, hjs, l, hat, hI⟩
    cases hjs with
    | @cons _ j _ js hij hrest =>
      obtain ⟨hsights, hstep⟩ := hsame hat hI hij
      refine .inr ⟨j, js, rfl, congrArg _ hsights, ?_⟩
      rw [hstep]
      cases hi : i.step calls t with
      | next s' => exact .next ⟨rfl, hrest, l, hat.next, hkeeps.next hat hI hi⟩
      | goto k s' =>
        obtain ⟨rfl, hk⟩ := Instr.goto_of_step hi
        obtain ⟨b, hb⟩ := hat.exists_block hf hk
        obtain ⟨c, hc, hinstrs⟩ := h.block hb
        exact .goto hb hc ⟨rfl, hinstrs, k, .start hb, hkeeps.goto hat hI hk hb⟩
      | halt e s' => exact .halt rfl

/-- What is seen of a call is seen of the recast function, if something is known from the entry
on. -/
theorem Function.Recast.shows (hstart : ∀ b, f.blocks[entry]? = some b → ∀ s, I entry b.instrs s)
    (hshows : f.Shows calls m args w seen e w') : g.Shows calls m args w seen e w' := by
  obtain ⟨b, hb⟩ := hf.exists_entry
  obtain ⟨c, hc, hinstrs⟩ := h.block hb
  have harrive : g.arrive m args = f.arrive m args := by simp only [Function.arrive, h.params]
  refine (((h.inStep hf hkeeps hsame).function_iff hb hc ?_).2 _ _ _).1 hshows
  rw [harrive]
  exact ⟨rfl, hinstrs, entry, .start hb, hstart b hb _⟩

end

end Sluice.Flow
