import Sluice.Proofs.Flow.Rename
import Sluice.Proofs.Machine.Recast
import Sluice.Proofs.Place.Check

/-!
# Running a function in its places

A function whose registers are replaced by their places runs in step with the function
itself, as far as registers that share a place never hold a value at one position
(`inStep_map`). A place has the value of whichever of its registers is live. What is
written to the place of a result is then lost to nobody: a register that is live after
the instruction has another place.

The check asks for no more than this, so every placement that it accepts is right,
however it was found (`resolve_shows_iff`).
-/

namespace Sluice.Flow

open List Machine

/-- The place of a register that has one. -/
def placeOf (p : Placement) (r : Reg) : Location :=
  (p.get? r).getD (.machine 0)

theorem placeOf_eq (h : p.get? r = some l) : placeOf p r = l := by
  rw [placeOf, h]
  rfl

/-- **A function can be resolved** if and only if all its registers have a place. -/
theorem resolve_eq_ok {f : Function Reg} :
    p.resolve f = .ok g ↔
      ((∀ r ∈ f.params, (p.get? r).isSome) ∧
        ∀ b ∈ f.blocks, ∀ i ∈ b.instrs, ∀ r ∈ i.names, (p.get? r).isSome) ∧
      g = f.map (placeOf p) := by
  refine computes_function (fun r l => ?_) f g
  unfold Placement.require
  cases h : p.get? r with
  | none => simp
  | some l' => simp [placeOf_eq h, eq_comm]

/-! ## Runs in step -/

variable {f : Function Reg} {loc : Reg → Location} {calls : Calls}

/-- **Registers that hold a value at one position have different places**, and none of them is a
slot that the function uses itself. -/
structure Function.Separates (f : Function Reg) (loc : Reg → Location) : Prop where
  apart : ∀ r < f.registers.length, ∀ q < f.registers.length, r ≠ q →
    ∀ n, f.Holds r n → f.Holds q n → loc r ≠ loc q
  slots : ∀ r < f.registers.length, ∀ n, f.Holds r n →
    ∀ i ∈ f.instructions, ∀ slot ∈ i.slot?, loc r ≠ .stack slot

/-- **Where two runs are, and what they have in common:** live registers have their values in their
places, and the slots that the function uses are the same. -/
structure InPlace (f : Function Reg) (loc : Reg → Location) (l : Label) (is : List (Instr Reg))
    (s t : State) : Prop where
  at_place : f.At l is
  live : ∀ r ∈ f.liveAt l is, t.memory (loc r) = s.memory (.machine r)
  slots : ∀ i ∈ f.instructions, ∀ slot ∈ i.slot?, t.memory (.stack slot) = s.memory (.stack slot)
  world : t.world = s.world

variable {l : Label} {i : Instr Reg} {is : List (Instr Reg)} {s t : State}

/-- An instruction has the same effect on the values of registers as on those of places. -/
theorem InPlace.effect_map (h : InPlace f loc l (i :: is) s t) :
    (i.map loc).effect calls t.get (stackOf t) t.world =
      i.effect calls s.get (stackOf s) s.world := by
  rw [Instr.effect_map, h.world]
  refine i.effect_congr (fun r hr => h.live r (mem_liveBefore.2 (.inl hr))) fun slot hslot => ?_
  exact h.slots i (h.at_place.mem_instructions mem_cons_self) slot hslot

/-- **A result is lost to nobody:** registers that are live afterwards have other places. -/
theorem InPlace.write (h : InPlace f loc l (i :: is) s t) (hf : f.WellFormed)
    (hloc : f.Separates loc) (hd : i.def? = some d) (v : Value) (w : World) :
    InPlace f loc l is { s with memory := Function.update s.memory (.machine d) v, world := w }
      { t with memory := Function.update t.memory (loc d) v, world := w } where
  at_place := h.at_place.next
  live r hr := by
    by_cases hrd : r = d
    · subst hrd
      simp
    · obtain ⟨n, -, hafter⟩ := h.at_place.exists_position hf
      have hrlt := hf.lt_of_mem_liveAt h.at_place.next hr
      have hdlt := h.at_place.known hf (.inl hd)
      have hne := hloc.apart r hrlt d hdlt hrd _ (hafter r (.inl hr)) (hafter d (.inr hd))
      have hbefore : r ∈ f.liveAt l (i :: is) := by
        refine mem_liveBefore.2 (.inr ⟨hr, ?_⟩)
        rw [hd]
        exact fun heq => hrd (Option.some.inj heq).symm
      simp [hne, hrd, h.live r hbefore]
  slots j hj slot hslot := by
    obtain ⟨n, -, hafter⟩ := h.at_place.exists_position hf
    have hdlt := h.at_place.known hf (.inl hd)
    have hne := hloc.slots d hdlt _ (hafter d (.inr hd)) j hj slot hslot
    simp [Ne.symm hne, h.slots j hj slot hslot]
  world := rfl

/-- A spilled value goes to a slot that is no register's place. -/
theorem InPlace.spill (h : InPlace f loc l (.spillStore slot src :: is) s t) (hf : f.WellFormed)
    (hloc : f.Separates loc) (v : Value) (spills spills' : List (Slot × Value)) :
    InPlace f loc l is
      { s with memory := Function.update s.memory (.stack slot) v, spills := spills }
      { t with memory := Function.update t.memory (.stack slot) v, spills := spills' } where
  at_place := h.at_place.next
  live r hr := by
    obtain ⟨n, -, hafter⟩ := h.at_place.exists_position hf
    have hne := hloc.slots r (hf.lt_of_mem_liveAt h.at_place.next hr) _ (hafter r (.inl hr)) _
      (h.at_place.mem_instructions mem_cons_self) slot rfl
    have hbefore : r ∈ f.liveAt l (.spillStore slot src :: is) :=
      mem_liveBefore.2 (.inr ⟨hr, by simp [Instr.def?]⟩)
    simp [hne, h.live r hbefore]
  slots j hj slot' hslot' := by
    simp [Function.update_apply, h.slots j hj slot' hslot']
  world := h.world

theorem InPlace.change (h : InPlace f loc l (i :: is) s t) (hi : i.def? = none) (w : World) :
    InPlace f loc l is { s with world := w } { t with world := w } where
  at_place := h.at_place.next
  live r hr := h.live r (mem_liveBefore.2 (.inr ⟨hr, by simp [hi]⟩))
  slots := h.slots
  world := rfl

theorem InPlace.goto (h : InPlace f loc l (i :: is) s t) (hf : f.WellFormed)
    (hk : k ∈ i.successors) : ∃ b, f.blocks[k]? = some b ∧ InPlace f loc k b.instrs s t := by
  obtain ⟨b, hb⟩ := h.at_place.exists_block hf hk
  refine ⟨b, hb, .start hb, fun r hr => ?_, h.slots, h.world⟩
  exact h.live r (h.at_place.live_of_successor hf hk (liveInAt_eq hb ▸ hr))

/-- **A function runs in step with itself in its places.** -/
theorem inStep_map (hf : f.WellFormed) (hloc : f.Separates loc) :
    InStep some calls f (f.map loc) fun is s js t =>
      js = is.map (·.map loc) ∧ ∃ l, InPlace f loc l is s t where
  nil := by
    rintro s js t ⟨rfl, -⟩
    rfl
  cons := by
    rintro i is s js t ⟨rfl, l, h⟩
    have hreads : ∀ r ∈ i.uses, (t.get ∘ loc) r = (s.get r : Value) :=
      fun r hr => h.live r (mem_liveBefore.2 (.inl hr))
    have hdef : (i.map loc).def? = i.def?.map loc := by cases i <;> rfl
    refine .inr ⟨i.map loc, is.map (·.map loc), rfl, ?_, ?_⟩
    · rw [i.sights_map loc, i.sights_congr hreads]
    rw [Instr.step_eq, Instr.step_eq, h.effect_map, hdef]
    refine .of_effect ?_ ?_ ?_ ?_
    · intro v w hwrite
      obtain ⟨d, hd⟩ := Instr.exists_def_of_effect hwrite
      rw [hd]
      exact ⟨rfl, l, h.write hf hloc hd v w⟩
    · exact fun w hchange => ⟨rfl, l, h.change (Instr.def?_of_effect hchange) w⟩
    · intro slot v hspill
      obtain ⟨src, rfl⟩ := Instr.slot_of_effect hspill
      exact ⟨rfl, l, h.spill hf hloc v _ _⟩
    · intro k hgoto
      obtain ⟨b, hb, hrel⟩ := h.goto hf (Instr.mem_successors_of_effect hgoto)
      exact ⟨b, { b with instrs := b.instrs.map (·.map loc) }, hb, by simp [Function.map, hb], rfl,
        k, hrel⟩

/-! ## Entry -/

/-- Arguments that arrive in registers arrive in their places, as long as a register that looks on
shares no place with another one that gets a value. -/
theorem foldl_update_place : ∀ {given : List (Reg × Value)} {m m' : Memory},
    (∀ g ∈ given, g.1 ≠ r → loc g.1 ≠ loc r) →
    (m' (loc r) = m (.machine r) ∨ ∃ g ∈ given, g.1 = r) →
    (given.foldl (fun m (q, v) => Function.update m (loc q) v) m') (loc r) =
      (given.foldl (fun m (q, v) => Function.update m (.machine q) v) m) (.machine r)
  | [], m, m', _, hr => by
    obtain hr | ⟨g, hg, -⟩ := hr
    · exact hr
    · exact nomatch hg
  | (q, v) :: given, m, m', hne, hr => by
    obtain ⟨hq, hne⟩ := forall_mem_cons.1 hne
    simp only [foldl_cons]
    refine foldl_update_place hne ?_
    by_cases hqr : q = r
    · subst hqr
      exact .inl (by simp)
    · refine hr.imp (fun hr => ?_) ?_
      · have hloc : loc r ≠ loc q := Ne.symm (hq hqr)
        simp [hloc, Ne.symm hqr, hr]
      · rintro ⟨g, hg, hgr⟩
        rcases mem_cons.1 hg with rfl | hg
        · exact absurd hgr hqr
        · exact ⟨g, hg, hgr⟩

theorem foldl_update_of_ne (cell : Reg → Location) :
    ∀ {given : List (Reg × Value)} (m : Memory), (∀ g ∈ given, cell g.1 ≠ x) →
      (given.foldl (fun m (q, v) => Function.update m (cell q) v) m) x = m x
  | [], _, _ => rfl
  | (q, v) :: given, m, h => by
    obtain ⟨hq, h⟩ := forall_mem_cons.1 h
    rw [foldl_cons, foldl_update_of_ne cell _ h]
    exact Function.update_of_ne (Ne.symm hq) v m

/-- Every parameter is given an argument. -/
theorem exists_given {args : List Value} (hargs : args.length = f.params.length)
    (hr : r ∈ f.params) : ∃ g ∈ f.params.zip args, g.1 = r := by
  obtain ⟨n, hn, rfl⟩ := getElem_of_mem hr
  exact ⟨(f.params[n], args[n]), mem_iff_getElem.2 ⟨n, by simp [hn, hargs], by simp⟩, rfl⟩

/-- **On entry every live register has its value in its place**, if it is a parameter or had the
same value before. -/
theorem inPlace_entry (hf : f.WellFormed) (hparams : ∀ r ∈ f.params, r < f.registers.length)
    (hloc : f.Separates loc) {args : List Value} {w : World} (hargs : args.length = f.params.length)
    (hlive : ∀ r ∈ f.liveInAt entry, r ∈ f.params ∨ m' (loc r) = m (.machine r))
    (hslots : ∀ i ∈ f.instructions, ∀ slot ∈ i.slot?, m' (.stack slot) = m (.stack slot))
    (hb : f.blocks[entry]? = some b) :
    InPlace f loc entry b.instrs { memory := f.arrive m args, world := w }
      { memory := (f.map loc).arrive m' args, world := w } := by
  have harrive : (f.map loc).arrive m' args =
      (f.params.zip args).foldl (fun m (q, v) => Function.update m (loc q) v) m' := by
    rw [Function.arrive, Function.map, zip_map_left, foldl_map]
    rfl
  have hgiven : ∀ g ∈ f.params.zip args, g.1 ∈ f.params := fun g hg => (of_mem_zip hg).1
  refine ⟨.start hb, fun r hr => ?_, fun i hi slot hslot => ?_, rfl⟩
  · rw [← liveInAt_eq hb] at hr
    rw [harrive]
    refine foldl_update_place (fun g hg hne => ?_) ?_
    · have hg := hgiven g hg
      exact hloc.apart g.1 (hparams _ hg) r (hf.lt_of_mem_liveInAt entry r hr) hne 0
        (holds_zero_of_mem_params hg) (holds_zero_of_live hf hr)
    · rcases hlive r hr with hr | hr
      · exact .inr (exists_given hargs hr)
      · exact .inl hr
  · rw [harrive]
    have hright : f.arrive m args (.stack slot) = m (.stack slot) :=
      foldl_update_of_ne .machine m fun _ _ => Location.noConfusion
    refine Eq.trans (foldl_update_of_ne loc m' fun g hg => ?_)
      ((hslots i hi slot hslot).trans hright.symm)
    have hg := hgiven g hg
    exact hloc.slots g.1 (hparams _ hg) 0 (holds_zero_of_mem_params hg) i hi slot hslot

/-! ## Checked placements -/

variable {p : Placement} {count : Nat}

/-- A placement that fits separates registers, if it has none of the slots that the function
uses. -/
theorem separates_of_fits (hfits : p.Fits f count)
    (hslots : ∀ r slot, p.get? r = some (.stack slot) → ∀ i ∈ f.instructions, i.slot? ≠ some slot) :
    f.Separates (placeOf p) where
  apart r hr q hq hne n hrn hqn heq := by
    obtain ⟨l, hl, -⟩ := hfits.placed r hr n hrn
    obtain ⟨k, hk, -⟩ := hfits.placed q hq n hqn
    rw [placeOf_eq hl, placeOf_eq hk] at heq
    exact hfits.apart r hr q hq hne n hrn hqn (by rw [hl, hk, heq])
  slots r hr n hrn i hi slot hslot heq := by
    obtain ⟨l, hl, -⟩ := hfits.placed r hr n hrn
    rw [placeOf_eq hl] at heq
    exact hslots r slot (heq ▸ hl) i hi hslot

/-- A memory in which every register holds what its place holds in another one. -/
def before (loc : Reg → Location) (m : Memory) : Memory
  | .machine r => m (loc r)
  | .stack slot => m (.stack slot)

/-- **A function in its places implements the function.** -/
theorem implements_map (hf : f.WellFormed) (hparams : ∀ r ∈ f.params, r < f.registers.length)
    (hloc : f.Separates loc) : (f.map loc).Implements f := by
  refine ⟨by simp [Function.map], fun calls args w m hargs => ?_⟩
  obtain ⟨b, hb⟩ := hf.exists_entry
  have hc : (f.map loc).blocks[entry]? = some { b with instrs := b.instrs.map (·.map loc) } := by
    simp [Function.map, hb]
  refine ⟨before loc m, fun e w' =>
    ((inStep_map hf hloc).seenAlike hb hc ⟨rfl, entry, ?_⟩).yields_iff.1⟩
  have hlive : ∀ r ∈ f.liveInAt entry, r ∈ f.params ∨ m (loc r) = before loc m (.machine r) :=
    fun _ _ => .inr rfl
  exact inPlace_entry hf hparams hloc hargs hlive (fun _ _ _ _ => rfl) hb

/-- **Every placement that passes the check is right.** Let a function be accepted, its parameters be
registers of it and nothing else be live on entry. Whatever placement the check accepts for it, if it
has a place for every register and none of the slots that the function spills to: a call of the
function in these places shows what a call of the function shows, step by step, and comes to the same
end. -/
theorem resolve_shows_iff {g : Function Location} (hverify : verify f = .ok ())
    (hparams : ∀ r ∈ f.params, r < f.registers.length)
    (hentry : ∀ r ∈ f.liveInAt entry, r ∈ f.params) (hvalid : validate f p count = .ok ())
    (hresolve : p.resolve f = .ok g)
    (hslots : ∀ r slot, p.get? r = some (.stack slot) → ∀ i ∈ f.instructions, i.slot? ≠ some slot)
    (calls : Calls) (args : List Value) (hargs : args.length = f.params.length) (w : World)
    (m m' : Memory)
    (hstack : ∀ i ∈ f.instructions, ∀ slot ∈ i.slot?, m' (.stack slot) = m (.stack slot)) :
    (∀ seen, f.Begins calls m args w seen ↔ g.Begins calls m' args w seen) ∧
      ∀ seen e w', f.Shows calls m args w seen e w' ↔ g.Shows calls m' args w seen e w' := by
  have hf := wellFormed_of_verify hverify
  have hloc := separates_of_fits ((validate_eq_ok hf).1 hvalid) hslots
  obtain ⟨-, rfl⟩ := resolve_eq_ok.1 hresolve
  obtain ⟨b, hb⟩ := hf.exists_entry
  have hc : (f.map (placeOf p)).blocks[entry]? =
      some { b with instrs := b.instrs.map (·.map (placeOf p)) } := by simp [Function.map, hb]
  refine (inStep_map hf hloc).function_iff hb hc ⟨rfl, entry, ?_⟩
  exact inPlace_entry hf hparams hloc hargs (fun r hr => .inl (hentry r hr)) hstack hb

/-- A loop that counts its parameter down. What it counts down to shares a register with what it
started from, and the condition is kept on the stack beside the slot that the loop spills to. -/
def countdown : Function Reg where
  name := "countdown"
  params := [0]
  registers := [.int, .int, .bool]
  blocks := [⟨[.jump 1], ∅⟩, ⟨[.binary .sub 1 (.reg 0) (.imm (.int 1)), .spillStore 0 1,
      .binary .le 2 (.reg 1) (.imm (.int 0)), .branch (.reg 2) 2 3], .ofList [0, 3]⟩,
    ⟨[.ret (.reg 1)], .ofList [1]⟩,
    ⟨[.move 0 (.reg 1), .jump 1], .ofList [1]⟩]

/-- Places for `countdown`. -/
def countdownPlaces : Placement := [(0, .machine 0), (1, .machine 0), (2, .stack 1)]

theorem resolve_shows_iff_countdown :
    verify countdown = .ok () ∧ validate countdown countdownPlaces 1 = .ok () ∧
    ∃ g, countdownPlaces.resolve countdown = .ok g ∧
      ∀ (calls : Calls) (v : Value) (w : World) (m : Memory),
        (∀ seen, countdown.Begins calls m [v] w seen ↔ g.Begins calls m [v] w seen) ∧
        ∀ seen e w', countdown.Shows calls m [v] w seen e w' ↔ g.Shows calls m [v] w seen e w' := by
  have hverify : verify countdown = .ok () := by decide +kernel
  have hvalid : validate countdown countdownPlaces 1 = .ok () := by decide +kernel
  have hentry : ∀ r ∈ (countdown.liveInAt entry).toList, r ∈ countdown.params := by decide +kernel
  have hresolve : countdownPlaces.resolve countdown = .ok (countdown.map (placeOf countdownPlaces)) := by
    decide +kernel
  have hslots : ∀ r slot, countdownPlaces.get? r = some (.stack slot) →
      ∀ i ∈ countdown.instructions, i.slot? ≠ some slot := by
    intro r slot hr
    have hslot : slot = 1 := by
      simp only [countdownPlaces, Placement.get?_cons] at hr
      grind [Placement.get?]
    subst hslot
    decide
  refine ⟨hverify, hvalid, _, hresolve, fun calls v w m => ?_⟩
  exact resolve_shows_iff hverify (by decide) hentry hvalid hresolve hslots calls [v] rfl w m m
    fun _ _ _ _ => rfl

/-- A function that returns the first of two parameters, of which only the first is a register of
it. -/
def strayParameter : Function Reg where
  name := "stray_parameter"
  params := [0, 1]
  registers := [.int]
  blocks := [⟨[.ret (.reg 0)], ∅⟩]

/-- Both parameters in one place. -/
def strayPlaces : Placement := [(0, .machine 0), (1, .machine 0)]

/-- **The check does not look at a parameter that is no register of the function:** it can be given
the place of another one, and is then returned instead. -/
theorem resolve_strayParameter :
    verify strayParameter = .ok () ∧
    (∀ r ∈ strayParameter.liveInAt entry, r ∈ strayParameter.params) ∧
    validate strayParameter strayPlaces 1 = .ok () ∧
    ∃ g, strayPlaces.resolve strayParameter = .ok g ∧
      (∀ r slot, strayPlaces.get? r ≠ some (.stack slot)) ∧
      ∀ (calls : Calls) (w : World) (m : Memory),
        strayParameter.Shows calls m [.bool true, .bool false] w [] (.value (.bool true)) w ∧
        ¬g.Shows calls m [.bool true, .bool false] w [] (.value (.bool true)) w := by
  have hentry : ∀ r ∈ (strayParameter.liveInAt entry).toList, r ∈ strayParameter.params := by
    decide +kernel
  refine ⟨by decide +kernel, hentry, by decide +kernel, strayParameter.map (placeOf strayPlaces),
    by decide +kernel, fun r slot hr => ?_, fun calls w m => ⟨?_, fun hshows => ?_⟩⟩
  · simp only [strayPlaces, Placement.get?_cons] at hr
    grind [Placement.get?]
  · exact ⟨_, _, rfl, .single rfl, rfl⟩
  · have hfalse : (strayParameter.map (placeOf strayPlaces)).Shows calls m [.bool true, .bool false]
        w [] (.value (.bool false)) w := ⟨_, _, rfl, .single rfl, rfl⟩
    have hend := (Function.yields_iff.2 ⟨_, hshows⟩).unique (Function.yields_iff.2 ⟨_, hfalse⟩)
    cases hend.1

end Sluice.Flow
