import Sluice.Proofs.Place.Resolve
import Sluice.Proofs.Place.Spill

/-!
# Running a function with a register in a slot

While a function runs, the slot is the place of the spilled register: it is loaded
before it is read, and stored after it was written. The loads and stores are steps
that the function did not take (`Beside`), and nothing is seen of them but stores to
the stack (`inStep_spills`). A parameter is stored when control comes in, so this needs
that control comes in only once.
-/

namespace Sluice.Flow

open List Machine

section Instead

variable {calls : Calls} {read : Reg → Value} {stack : Slot → Value} {w : World}
variable (r x x' : Reg) (i : Instr Reg)

theorem Instr.effect_instead : (i.instead r x x').effect calls read stack w =
    i.effect calls (fun q => read (if q = r then x else q)) stack w := by
  have hmap : (i.instead r x x').effect calls read stack w =
      (i.map fun q => if q = r then x else q).effect calls read stack w := by
    cases i <;> rfl
  rw [hmap, effect_map]
  rfl

theorem Instr.sights_instead : (i.instead r x x').sights read =
    i.sights fun q => read (if q = r then x else q) := by
  have hmap : (i.instead r x x').sights read =
      (i.map fun q => if q = r then x else q).sights read := by
    cases i <;> rfl
  rw [hmap, sights_map]
  rfl

end Instead

/-- Where registers are, if one of them lives in a slot. -/
def slotted (r : Reg) (slot : Slot) (q : Reg) : Location :=
  if q = r then .stack slot else .machine q

/-- **Where two runs are:** one in the code of some instructions, the other before them. -/
inductive Beside (f : Function Reg) (r : Reg) (slot : Slot) (hi : Nat) :
    List (Instr Reg) → State → List (Instr Reg) → State → Prop
  | code {l is codes s t} :
    Forall₂ (CodeOf r slot f.registers.length hi) is codes → InPlace f (slotted r slot) l is s t →
      Beside f r slot hi codes.flatten t is s
  /-- What an instruction reads is loaded. -/
  | loaded {l i is x x' codes s t} :
    f.registers.length ≤ x' → Forall₂ (CodeOf r slot f.registers.length hi) is codes →
      InPlace f (slotted r slot) l (i :: is) s t →
      (r ∈ i.uses → t.memory (.machine x) = t.memory (.stack slot)) →
      Beside f r slot hi (i.instead r x x' ::
        ((if i.def? = some r then [.spillStore slot x'] else []) ++ codes.flatten)) t (i :: is) s
  /-- What an instruction wrote is not stored yet. -/
  | written {l is x codes s t} :
    Forall₂ (CodeOf r slot f.registers.length hi) is codes →
      InPlace f (slotted r slot) l is s
        { t with memory := Function.update t.memory (.stack slot) (t.memory (.machine x)) } →
      Beside f r slot hi (.spillStore slot x :: codes.flatten) t is s

variable {f g : Function Reg} {r x x' : Reg} {slot : Slot} {i : Instr Reg}
  {is : List (Instr Reg)} {codes : List (List (Instr Reg))} {l : Label} {s t : State}

theorem separates_slotted (hslot : ∀ i ∈ f.instructions, i.slot? ≠ some slot) :
    f.Separates (slotted r slot) where
  apart q _ q' _ hne _ _ _ := by
    unfold slotted
    split <;> split <;> simp_all
  slots q _ _ _ i hi k hk := by
    unfold slotted
    split
    · exact fun heq => hslot i hi (Location.stack.inj heq ▸ hk)
    · exact Location.noConfusion

/-- A temporary is none of the registers. -/
theorem InPlace.temporary (h : InPlace f (slotted r slot) l is s t) (hf : f.WellFormed)
    (hx : f.registers.length ≤ x) (v : Value) : InPlace f (slotted r slot) l is s
      { t with memory := Function.update t.memory (.machine x) v } where
  at_place := h.at_place
  live q hq := by
    have hlt := hf.lt_of_mem_liveAt h.at_place hq
    have hne : slotted r slot q ≠ .machine x := by
      unfold slotted
      split
      · exact Location.noConfusion
      · exact fun heq => Nat.not_lt.2 hx (Location.machine.inj heq ▸ hlt)
    rw [← h.live q hq]
    exact Function.update_of_ne hne ..
  slots i hi k hk := by simp [h.slots i hi k hk]
  world := h.world

/-- With the register loaded, an instruction finds what it found. -/
theorem InPlace.reads (h : InPlace f (slotted r slot) l (i :: is) s t)
    (hload : r ∈ i.uses → t.memory (.machine x) = t.memory (.stack slot)) :
    ∀ q ∈ i.uses, (t.get (if q = r then x else q) : Value) = s.get q := by
  intro q hq
  have hlive := h.live q (mem_liveBefore.2 (.inl hq))
  unfold slotted at hlive
  split at hlive
  · rename_i heq
    subst heq
    rw [if_pos rfl]
    exact (hload hq).trans hlive
  · rename_i hne
    rw [if_neg hne]
    exact hlive

section

variable {calls : Calls} (h : f.Spills r slot g) (hf : f.WellFormed)
  (hentry : ∀ l, entry ∉ f.successors l) (hslot : ∀ i ∈ f.instructions, i.slot? ≠ some slot)
include h hf hentry hslot

/-- **What an instruction does to the registers, it does in its code to registers and slot.** -/
theorem alike_instead (hx' : f.registers.length ≤ x')
    (hcodes : Forall₂ (CodeOf r slot f.registers.length g.registers.length) is codes)
    (hin : InPlace f (slotted r slot) l (i :: is) s t)
    (hload : r ∈ i.uses → t.memory (.machine x) = t.memory (.stack slot)) :
    Alike (Beside f r slot g.registers.length) g f
      ((if i.def? = some r then [.spillStore slot x'] else []) ++ codes.flatten) is
      ((i.instead r x x').step calls t) (i.step calls s) := by
  have hloc := separates_slotted (r := r) hslot
  have heffect : (i.instead r x x').effect calls t.get (stackOf t) t.world =
      i.effect calls s.get (stackOf s) s.world := by
    rw [Instr.effect_instead, hin.world]
    refine i.effect_congr (hin.reads hload) fun k hk => ?_
    exact hin.slots i (hin.at_place.mem_instructions mem_cons_self) k hk
  rw [Instr.step_eq, Instr.step_eq, heffect, Instr.def?_instead]
  refine .of_effect ?_ ?_ ?_ ?_
  · intro v w hwrite
    obtain ⟨d, hd⟩ := Instr.exists_def_of_effect hwrite
    rw [hd]
    by_cases hdr : d = r
    · subst hdr
      rw [if_pos rfl]
      refine .written (l := l) hcodes ?_
      have hwritten := (hin.temporary hf hx' v).write hf hloc hd v w
      simpa [slotted, Cell.cell] using hwritten
    · rw [if_neg fun heq => hdr (Option.some.inj heq)]
      have hwritten := hin.write hf hloc hd v w
      simpa [slotted, hdr, Cell.cell] using Beside.code hcodes hwritten
  · intro w hchange
    have hnone := Instr.def?_of_effect hchange
    rw [hnone]
    exact .code hcodes (hin.change hnone w)
  · intro k v hspill
    obtain ⟨src, rfl⟩ := Instr.slot_of_effect hspill
    exact .code hcodes (hin.spill hf hloc v _ _)
  · intro k hgoto
    have hk := Instr.mem_successors_of_effect hgoto
    obtain ⟨b, hb, hrel⟩ := hin.goto hf hk
    -- the entry also stores a parameter, so control must not come back to it
    have hne : k ≠ entry := by
      rintro rfl
      have hlast := hin.at_place.last hf (Instr.isTerminator_of_effect hgoto)
      exact hentry l (hlast.2 ▸ hk)
    obtain ⟨codes', hcodes', hc⟩ := h.block hb
    rw [Function.arrival, if_neg fun harrival => hne harrival.1, nil_append] at hc
    exact ⟨_, b, hc, hb, .code hcodes' hrel⟩

/-- **A function with a register in a slot is in step with the function**, apart from loads and
stores of the slot, where control does not come back to the entry and the slot is new. -/
theorem inStep_spills :
    InStep Sight.event? calls g f (Beside f r slot g.registers.length) := by
  have hloaded : ∀ {l i is x x' codes s t}, f.registers.length ≤ x' →
      Forall₂ (CodeOf r slot f.registers.length g.registers.length) is codes →
      InPlace f (slotted r slot) l (i :: is) s t →
      (r ∈ i.uses → t.memory (.machine x) = t.memory (.stack slot)) →
      ∃ j js, i :: is = j :: js ∧ (j.sights s.get).filterMap Sight.event? =
          ((i.instead r x x').sights t.get).filterMap Sight.event? ∧
        Alike (Beside f r slot g.registers.length) g f
          ((if i.def? = some r then [.spillStore slot x'] else []) ++ codes.flatten) js
          ((i.instead r x x').step calls t) (j.step calls s) := by
    intro l i is x x' codes s t hx' hcodes hin hload
    refine ⟨i, is, rfl, ?_, alike_instead h hf hentry hslot hx' hcodes hin hload⟩
    rw [Instr.sights_instead, i.sights_congr (hin.reads hload)]
  constructor
  · intro t is s hrel
    generalize hjs : ([] : List (Instr Reg)) = js at hrel
    cases hrel with
    | code hcodes _ =>
      cases hcodes with
      | nil => rfl
      | cons hcode _ =>
        obtain ⟨_, _, -, -, -, -, rfl⟩ := hcode
        simp [Instr.withSlot] at hjs
    | loaded => cases hjs
    | written => cases hjs
  · intro j js t is s hrel
    generalize hjs : j :: js = js' at hrel
    cases hrel with
    | code hcodes hin =>
      cases hcodes with
      | nil => cases hjs
      | cons hcode hcodes =>
        obtain ⟨x, x', hx, -, hx', -, rfl⟩ := hcode
        rw [flatten_cons, Instr.withSlot, append_assoc, cons_append] at hjs
        split at hjs
        · cases hjs
          refine .inl ⟨_, rfl, rfl, .loaded hx' hcodes (hin.temporary hf hx _) fun _ => ?_⟩
          simp [State.set, Cell.cell]
        · rename_i hr
          cases hjs
          exact .inr (hloaded hx' hcodes hin fun hr' => absurd hr' hr)
    | loaded hx' hcodes hin hload =>
      cases hjs
      exact .inr (hloaded hx' hcodes hin hload)
    | written hcodes hin =>
      cases hjs
      exact .inl ⟨_, rfl, rfl, .code hcodes ⟨hin.at_place, hin.live, hin.slots, hin.world⟩⟩

end

/-! ## Entry -/

/-- A parameter gets its argument, and other registers keep what they had. -/
theorem arrive_eq {args : List Value} (hargs : args.length = f.params.length)
    (hq : q ∈ f.params ∨ m' (.machine q) = m (.machine q)) :
    f.arrive m' args (.machine q) = f.arrive m args (.machine q) := by
  refine foldl_update_place (fun _ _ hne heq => hne (Location.machine.inj heq)) ?_
  exact hq.symm.imp_right (exists_given hargs)

theorem arrive_of_not_mem (h : ∀ p ∈ f.params, .machine p ≠ c) : f.arrive m args c = m c :=
  foldl_update_of_ne .machine m fun g hg => h g.1 (of_mem_zip hg).1

/-- **Calls are beside each other on entry**, if what is live there is a parameter or was in its
place before. -/
theorem beside_entry (h : f.Spills r slot g) {args : List Value}
    (hargs : args.length = f.params.length)
    (hlive : ∀ q ∈ f.liveInAt entry, q ∈ f.params ∨ m' (slotted r slot q) = m (.machine q))
    (hslot : ∀ i ∈ f.instructions, i.slot? ≠ some slot)
    (hslots : ∀ i ∈ f.instructions, ∀ k ∈ i.slot?, m' (.stack k) = m (.stack k))
    (hb : f.blocks[entry]? = some b) :
    ∃ c, g.blocks[entry]? = some c ∧ Beside f r slot g.registers.length c.instrs
      { memory := g.arrive m' args, world := w } b.instrs
      { memory := f.arrive m args, world := w } := by
  obtain ⟨codes, hcodes, hc⟩ := h.block hb
  refine ⟨_, hc, ?_⟩
  have harrive : g.arrive m' args = f.arrive m' args := by
    rw [Function.arrive, Function.arrive, h.params]
  have hstack : ∀ (m : Memory) k, f.arrive m args (.stack k) = m (.stack k) := fun m k =>
    arrive_of_not_mem fun _ _ => Location.noConfusion
  have hother : ∀ q ∈ f.liveInAt entry, q ≠ r →
      f.arrive m' args (.machine q) = f.arrive m args (.machine q) := by
    intro q hq hne
    refine arrive_eq hargs ((hlive q hq).imp_right fun heq => ?_)
    rwa [slotted, if_neg hne] at heq
  rw [harrive, Function.arrival]
  by_cases hparam : r ∈ f.params
  · rw [if_pos ⟨rfl, hparam⟩]
    refine .written hcodes ⟨.start hb, fun q hq => ?_, fun i hi k hk => ?_, rfl⟩
    · rw [← liveInAt_eq hb] at hq
      unfold slotted
      split
      · rename_i heq
        subst heq
        simpa using arrive_eq hargs (.inl hparam)
      · rename_i hne
        simpa using hother q hq hne
    · have hne : k ≠ slot := fun heq => hslot i hi (heq ▸ hk)
      simpa [hne, hstack] using hslots i hi k hk
  · rw [if_neg fun harrival => hparam harrival.2]
    refine .code hcodes ⟨.start hb, fun q hq => ?_, fun i hi k hk => ?_, rfl⟩
    · rw [← liveInAt_eq hb] at hq
      unfold slotted
      split
      · rename_i heq
        subst heq
        have hkeep : f.arrive m args (.machine q) = m (.machine q) :=
          arrive_of_not_mem fun p hp heq => hparam (Location.machine.inj heq ▸ hp)
        have hplace := (hlive q hq).resolve_left hparam
        rw [slotted, if_pos rfl] at hplace
        exact ((hstack m' slot).trans hplace).trans hkeep.symm
      · rename_i hne
        exact hother q hq hne
    · simpa [hstack] using hslots i hi k hk

/-- **A function with a register in a slot implements the function.** -/
theorem implements_spills (h : f.Spills r slot g) (hf : f.WellFormed)
    (hentry : ∀ l, entry ∉ f.successors l) (hslot : ∀ i ∈ f.instructions, i.slot? ≠ some slot) :
    g.Implements f := by
  refine ⟨by rw [h.params], fun calls args w m hargs => ?_⟩
  obtain ⟨b, hb⟩ := hf.exists_entry
  -- every register finds before the call what its place holds then
  obtain ⟨c, hc, hrel⟩ := beside_entry (m := before (slotted r slot) m) h hargs
    (fun _ _ => .inr rfl) hslot (fun _ _ _ _ => rfl) hb
  exact ⟨_, fun e w' => ((inStep_spills h hf hentry hslot).seenAlike hc hb hrel).yields_iff.2⟩

end Sluice.Flow
