import Sluice.Proofs.Lower.Meaning
import Sluice.Proofs.Lower.Ready
import Sluice.Proofs.Place.Allocate

/-!
# What is listed for the collector

An allocation of an object lists the places whose values are still needed after it.
`Function.Needed` says what that means of a function in its places, with no regard to
how the places were found: control can come to an instruction that reads the place, and
nothing writes the place on the way.

A place that is needed belongs to a register that is live (`exists_live_of_needed`), and
the live registers are what is listed. The slots of spill code are the exception: they
are no register's place, so they are needed and never listed (`allocate_lists_iff`).
Only colouring makes such slots, and there a value can be lost to the collector
(`allocate_omits_slot`). Linear scan lists everything.
-/

namespace Sluice

open List

namespace Flow

/-! ## Places that are needed -/

/-- The places that an instruction reads: those of its operands, or the slot that it loads. -/
def Instr.reads : Instr Location → List Location
  | spillLoad _ slot => [.stack slot]
  | i => i.uses

/-- The place that an instruction writes: that of its result, or the slot that it fills. -/
def Instr.writes : Instr Location → List Location
  | spillStore slot _ => [.stack slot]
  | i => i.def?.toList

/-- **The content of a place is needed** before some instructions: on some way on from them it is
read before it is overwritten. -/
inductive Function.Needed (g : Function Location) (x : Location) : List (Instr Location) → Prop
  | read {i is} : x ∈ i.reads → g.Needed x (i :: is)
  | pass {i is} : i.isTerminator = false → x ∉ i.writes → g.Needed x is → g.Needed x (i :: is)
  | goto {i is k b} :
    k ∈ i.successors → g.blocks[k]? = some b → g.Needed x b.instrs → g.Needed x (i :: is)

/-- A place is a slot that the function itself loads or fills. -/
def Function.SpillSlot {ρ : Type} (g : Function ρ) (x : Location) : Prop :=
  ∃ i ∈ g.instructions, ∃ n, i.slot? = some n ∧ x = .stack n

section

variable {loc : Reg → Location} {i : Instr Reg} {x : Location}

theorem Instr.slot?_map : (i.map loc).slot? = i.slot? := by cases i <;> rfl

theorem Instr.successors_map : (i.map loc).successors = i.successors := by cases i <;> rfl

theorem Function.spillSlot_map {f : Function Reg} : (f.map loc).SpillSlot x ↔ f.SpillSlot x := by
  have hinstrs : (f.map loc).instructions = f.instructions.map (·.map loc) := by
    simp [instructions, map, flatMap_map, map_flatMap]
  simp [Function.SpillSlot, hinstrs, Instr.slot?_map]

/-- A place that is read is that of a register that is read, unless it is a slot of spill code. -/
theorem Instr.mem_reads_map (h : x ∈ (i.map loc).reads) :
    (∃ r ∈ i.uses, loc r = x) ∨ ∃ n, i.slot? = some n ∧ x = .stack n := by
  have huses : x ∈ (i.map loc).uses → ∃ r ∈ i.uses, loc r = x := by
    rw [uses_map]
    exact mem_map.1
  cases i with
  | spillLoad dst slot => exact .inr ⟨slot, rfl, mem_singleton.1 h⟩
  | _ => exact .inl (huses h)

/-- The place of the result is written. -/
theorem Instr.mem_writes_map (h : i.def? = some r) : loc r ∈ (i.map loc).writes := by
  have hdef : loc r ∈ (i.map loc).def?.toList := by simp [def?_map, h]
  cases i with
  | spillStore slot src => cases h
  | _ => exact hdef

end

variable {f : Function Reg} {loc : Reg → Location} {l : Label} {x : Location}

/-- What is left of a block in its places is what is left of the block. -/
theorem Function.At.exists_map (h : (f.map loc).At l js) :
    ∃ is, f.At l is ∧ js = is.map (·.map loc) := by
  obtain ⟨c, before, hc, heq⟩ := h
  rw [Function.map, getElem?_map] at hc
  obtain ⟨b, hb, rfl⟩ := Option.map_eq_some_iff.1 hc
  obtain ⟨before', is, heq', -, rfl⟩ := map_eq_append_iff.1 heq
  exact ⟨is, ⟨b, before', hb, heq'⟩, rfl⟩

/-- **A place that is needed is that of a live register**, unless spill code uses it. -/
theorem exists_live_of_needed (hf : f.WellFormed) (hx : ¬ f.SpillSlot x)
    (h : (f.map loc).Needed x js) :
    ∀ {l is}, f.At l is → js = is.map (·.map loc) → ∃ r ∈ f.liveAt l is, loc r = x := by
  -- walk back from where it is read: what writes the register would write the place
  induction h with
  | @read j js hread =>
    intro l is hat heq
    obtain ⟨i, is, rfl, rfl, -⟩ := map_eq_cons_iff.1 heq.symm
    rcases Instr.mem_reads_map hread with ⟨r, hr, hloc⟩ | ⟨n, hn, hstack⟩
    · exact ⟨r, mem_liveBefore.2 (.inl hr), hloc⟩
    · exact absurd ⟨i, hat.mem_instructions mem_cons_self, n, hn, hstack⟩ hx
  | @pass j js _ hwrite _ ih =>
    intro l is hat heq
    obtain ⟨i, is, rfl, rfl, rfl⟩ := map_eq_cons_iff.1 heq.symm
    obtain ⟨r, hr, rfl⟩ := ih hat.next rfl
    exact ⟨r, mem_liveBefore.2 (.inr ⟨hr, fun hdef => hwrite (Instr.mem_writes_map hdef)⟩), rfl⟩
  | @goto j js k c hk hc _ ih =>
    intro l is hat heq
    obtain ⟨i, is, rfl, rfl, rfl⟩ := map_eq_cons_iff.1 heq.symm
    rw [Function.map, getElem?_map] at hc
    obtain ⟨b, hb, rfl⟩ := Option.map_eq_some_iff.1 hc
    obtain ⟨r, hr, hloc⟩ := ih (.start hb) rfl
    rw [← liveInAt_eq hb] at hr
    exact ⟨r, hat.live_of_successor hf (Instr.successors_map ▸ hk) hr, hloc⟩

/-! ## What is listed -/

/-- What is left of a block after listing is what was left of it, listed. -/
theorem exists_of_zipWith_withLive :
    ∀ {is before'},
      List.zipWith Instr.withLive is (liveThrough out is).1 = before' ++ j :: js →
      ∃ before i rest, is = before ++ i :: rest ∧ j = i.withLive (liveFrom out rest) ∧
        js = List.zipWith Instr.withLive rest (liveThrough out rest).1
  | [], before', h => by cases before' <;> cases h
  | i :: is, [], h => by
    obtain ⟨hj, hjs⟩ := List.cons.inj h
    exact ⟨[], i, is, rfl, hj.symm, hjs.symm⟩
  | i :: is, k :: before', h => by
    obtain ⟨before, i', rest, rfl, hj, hjs⟩ := exists_of_zipWith_withLive (List.cons.inj h).2
    exact ⟨i :: before, i', rest, rfl, hj, hjs⟩

/-- **An allocation lists the registers that are live after it**, its own result apart. -/
theorem Function.At.mem_listed (hf : f.WellFormed)
    (h : f.withLive.At l (.alloc dst shape live :: js)) :
    r ∈ live ↔ r ∈ f.withLive.liveAt l js ∧ r ≠ dst := by
  obtain ⟨c, before', hc, heq⟩ := h
  rw [getElem?_withLive] at hc
  obtain ⟨b, hb, rfl⟩ := Option.map_eq_some_iff.1 hc
  obtain ⟨before, i, rest, his, hi, rfl⟩ := exists_of_zipWith_withLive heq
  have hlive : f.withLive.liveAt l (List.zipWith Instr.withLive rest
      (liveThrough (f.liveOutAt l) rest).1) = f.liveAt l rest := by
    rw [Function.liveAt, Function.liveAt, (recast_withLive f).listed_liveOutAt hf]
    exact (zipWith_point_congr (forall₂_withLive rest)).1
  rw [hlive]
  cases i with
  | alloc d s old =>
    injection hi with hd _ hlisted
    subst hd hlisted
    exact IdSet.mem_erase
  | _ => cases hi

end Flow

open Flow (Function Reg Instr Label Shape lower placeOf verify)

variable {f : Function Reg} {count : Nat} {found : Found} {way : Strategy}

/-- The place of a register is no slot of spill code. -/
theorem Found.Sound.not_spillSlot (h : found.Sound f count) (r : Reg) :
    ¬ found.function.withLive.SpillSlot (placeOf found.placement r) := by
  rintro ⟨j, hj, n, hn, hplace⟩
  obtain ⟨i, hi, hn⟩ := Flow.exists_slot_of_withLive hj hn
  cases hget : found.placement.get? r with
  | none =>
    rw [placeOf, hget] at hplace
    cases hplace
  | some loc =>
    rw [Flow.placeOf_eq hget] at hplace
    subst hplace
    exact h.apart r n hget i hi hn

/-- **Of the places that are needed, those that are not for spill code are listed.** -/
theorem Found.Sound.mem_listed_iff (h : found.Sound f count)
    (hat : (found.function.withLive.map (placeOf found.placement)).At l
      (.alloc dst shape live :: js)) (hne : x ≠ dst)
    (hneeded : (found.function.withLive.map (placeOf found.placement)).Needed x js) :
    x ∈ live ↔ ¬ found.function.withLive.SpillSlot x := by
  obtain ⟨_, hlisted, heq⟩ := hat.exists_map
  obtain ⟨i, is, rfl, hi, rfl⟩ := map_eq_cons_iff.1 heq.symm
  cases i with
  | alloc d s listed =>
    injection hi with hd _ hlive
    subst hd hlive
    constructor
    · intro hx
      obtain ⟨r, -, rfl⟩ := mem_map.1 hx
      exact h.not_spillSlot r
    · intro hspill
      obtain ⟨r, hr, rfl⟩ := Flow.exists_live_of_needed (Flow.wellFormed_withLive h.wellFormed)
        hspill hneeded hlisted.next rfl
      have hne : r ≠ d := fun hrd => hne (hrd ▸ rfl)
      exact mem_map_of_mem ((hlisted.mem_listed h.wellFormed).2 ⟨hr, hne⟩)
  | _ => cases hi

/-- Linear scan makes no spill code. -/
theorem not_spillSlot_of_linearScan (hf : f.WellFormed)
    (hslots : ∀ i ∈ f.instructions, i.slot? = none) (hfind : find .linearScan count f = .ok found)
    (x : Location) : ¬ found.function.withLive.SpillSlot x := by
  rw [find_linearScan hf] at hfind
  cases hfind
  rintro ⟨j, hj, n, hn, -⟩
  obtain ⟨i, hi, hn⟩ := Flow.exists_slot_of_withLive hj hn
  rw [hslots i hi] at hn
  cases hn

/-- **What an allocation lists of what is needed.** Lower any function of a program that passes
type inference, if its matches handle every value, and give its registers places on any machine
with a register. Of the places that are needed after an allocation of an object, its own result
apart, the allocation lists exactly those that are not slots of spill code. With linear scan these
are all. -/
theorem allocate_lists_iff {source : Source.Program} {prog : Typed.Program}
    (h : Infer.infer source = .ok prog) {f : Typed.Function} (hf : f ∈ prog.functions)
    (hexhaustive : ∀ witness span,
      .nonExhaustive witness span ∉ Decision.functionErrors prog.records f)
    (way : Strategy) {count : Nat} (hcount : 0 < count) :
    ∃ g p r, lower f (Decision.decisions f) = .ok g ∧ allocate way count g = .ok p ∧
      p.resolve = .ok r ∧
      ∀ l dst shape live is, r.At l (.alloc dst shape live :: is) →
        ∀ x, x ≠ dst → r.Needed x is →
          (x ∈ live ↔ ¬ r.SpillSlot x) ∧ (way = .linearScan → x ∈ live) := by
  obtain ⟨herrors, rfl⟩ := Infer.infer_eq_ok.1 h
  have hwt := Infer.wellTyped_of_check (List.isEmpty_iff.1 herrors) f hf
  have htotal := Flow.firstFailure?_eq_none hexhaustive
  obtain ⟨g, K, hlower, hL⟩ := Flow.lower_eq_ok hwt htotal
  obtain ⟨hg, -⟩ := Flow.sound_of_lower hwt htotal hlower hL
  obtain ⟨found, hfind, hfound⟩ := exists_find way count hg.verify hg.slots
  refine ⟨g, found.placed way, _, hlower, hfound.allocate hcount hfind,
    hfound.resolve hg.params_lt, fun l dst shape live is hat x hne hneeded => ?_⟩
  have hlisted := hfound.mem_listed_iff hat hne hneeded
  refine ⟨hlisted.trans (not_congr Flow.Function.spillSlot_map.symm), ?_⟩
  rintro rfl
  exact hlisted.2 (not_spillSlot_of_linearScan hg.wellFormed hg.slots hfind x)

/-! ## A value kept in a slot -/

/-- A function that makes a list of its argument and gives the argument back. -/
def keepSource : Source.Program :=
  let at0 : Span := ⟨0, 0⟩
  let id (name : String) : Source.Ident := ⟨name, at0⟩
  [.function at0 ⟨at0, id "keep", [⟨at0, id "x", .named at0 (id "str")⟩], none,
    .block at0 [.list at0 [.ident at0 (id "x")], .ident at0 (id "x")]⟩]

/-- The code of the first function of a program in its places, on a machine with one register. -/
def codeInPlaces (way : Strategy) (source : Source.Program) :
    Option (List (List (Instr Location))) := do
  let f ← (Infer.check source).program.functions.head?
  let g ← (lower f (Decision.decisions f)).toOption
  let p ← (allocate way 1 g).toOption
  let r ← p.resolve.toOption
  return r.blocks.map (·.instrs)

theorem codeInPlaces_eq_some (h : codeInPlaces way source = some code) :
    ∃ f ∈ (Infer.check source).program.functions, ∃ g p r,
      lower f (Decision.decisions f) = .ok g ∧ allocate way 1 g = .ok p ∧ p.resolve = .ok r ∧
        r.blocks.map (·.instrs) = code := by
  have hok : ∀ {ε α : Type} {x : Except ε α} {a : α}, x.toOption = some a → x = .ok a := by
    intro ε α x a hx
    cases x with
    | error e => cases hx
    | ok b => exact congrArg Except.ok (Option.some.inj hx)
  obtain ⟨f, hf, h⟩ := Option.bind_eq_some_iff.1 h
  obtain ⟨g, hg, h⟩ := Option.bind_eq_some_iff.1 h
  obtain ⟨p, hp, h⟩ := Option.bind_eq_some_iff.1 h
  obtain ⟨r, hr, h⟩ := Option.bind_eq_some_iff.1 h
  exact ⟨f, mem_of_head? hf, g, p, r, hok hg, hok hp, hok hr, Option.some.inj h⟩

/-- What the code of the first block ends in is what is left of it at some point. -/
theorem at_of_map_instrs {r : Function Location} (before : List (Instr Location))
    (h : r.blocks.map (·.instrs) = (before ++ is) :: code) : r.At Flow.entry is := by
  obtain ⟨b, blocks, hblocks, hb, -⟩ := map_eq_cons_iff.1 h
  exact ⟨b, before, by rw [hblocks]; rfl, hb⟩

/-- With linear scan the argument stays in a slot, which is listed. -/
theorem allocate_lists_iff_keep : ∃ f ∈ (Infer.check keepSource).program.functions, ∃ g p r,
    lower f (Decision.decisions f) = .ok g ∧ allocate .linearScan 1 g = .ok p ∧
      p.resolve = .ok r ∧ ∃ dst shape live is, r.At Flow.entry (.alloc dst shape live :: is) ∧
        r.Needed (.stack 0) is ∧ .stack 0 ∈ live := by
  have hok : Infer.infer keepSource = .ok (Infer.check keepSource).program :=
    Infer.infer_eq_ok.2 ⟨by decide +kernel, rfl⟩
  have hmatches : ∀ f ∈ (Infer.check keepSource).program.functions,
      Decision.functionErrors (Infer.check keepSource).program.records f = [] := by
    decide +kernel
  have hcode : codeInPlaces .linearScan keepSource = some
      [[.alloc (.machine 0) (.list 1) [.stack 0], .store (.machine 0) 0 (.reg (.stack 0)),
        .ret (.reg (.stack 0))]] := by decide +kernel
  obtain ⟨f, hf, g, p, r, hg, hp, hr, hblocks⟩ := codeInPlaces_eq_some hcode
  obtain ⟨g', p', r', hg', hp', hr', hlists⟩ := allocate_lists_iff hok hf
    (by rw [hmatches f hf]; exact fun _ _ => not_mem_nil) .linearScan Nat.one_pos
  cases hg.symm.trans hg'
  cases hp.symm.trans hp'
  cases hr.symm.trans hr'
  have hat := at_of_map_instrs [] hblocks
  have hneeded : r.Needed (.stack 0)
      [.store (.machine 0) 0 (.reg (.stack 0)), .ret (.reg (.stack 0))] := .read (by decide)
  exact ⟨f, hf, g, p, r, hg, hp, hr, _, _, _, _, hat, hneeded,
    (hlists _ _ _ _ _ hat (.stack 0) nofun hneeded).2 rfl⟩

/-- **Colouring can lose a value to the collector.** With one register the argument is spilled to a
slot, from which it is loaded after the allocation; the allocation lists nothing. -/
theorem allocate_omits_slot : Infer.infer keepSource = .ok (Infer.check keepSource).program ∧
    ∃ f ∈ (Infer.check keepSource).program.functions,
      Decision.functionErrors (Infer.check keepSource).program.records f = [] ∧
      ∃ g p r, lower f (Decision.decisions f) = .ok g ∧
        allocate .graphColouring 1 g = .ok p ∧ p.resolve = .ok r ∧
        ∃ dst shape live is, r.At Flow.entry (.alloc dst shape live :: is) ∧
          .stack 0 ≠ dst ∧ r.Needed (.stack 0) is ∧ .stack 0 ∉ live := by
  have hmatches : ∀ f ∈ (Infer.check keepSource).program.functions,
      Decision.functionErrors (Infer.check keepSource).program.records f = [] := by
    decide +kernel
  have hcode : codeInPlaces .graphColouring keepSource = some
      [[.spillStore 0 (.machine 0), .alloc (.machine 0) (.list 1) [],
        .spillStore 1 (.machine 0), .spillLoad (.stack 2) 0, .spillLoad (.machine 0) 1,
        .store (.machine 0) 0 (.reg (.stack 2)), .spillLoad (.machine 0) 0,
        .ret (.reg (.machine 0))]] := by decide +kernel
  obtain ⟨f, hf, g, p, r, hg, hp, hr, hblocks⟩ := codeInPlaces_eq_some hcode
  have hat := at_of_map_instrs [_] hblocks
  refine ⟨Infer.infer_eq_ok.2 ⟨by decide +kernel, rfl⟩, f, hf, hmatches f hf, g, p, r, hg, hp, hr,
    _, _, _, _, hat, nofun, ?_, not_mem_nil⟩
  exact .pass rfl (by decide) (.read (mem_singleton_self _))

end Sluice
