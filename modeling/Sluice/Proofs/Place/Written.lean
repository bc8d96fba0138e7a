import Sluice.Proofs.Live.Paths
import Sluice.Proofs.Lower.Meaning
import Sluice.Proofs.Lower.Ready
import Sluice.Proofs.Optimize.Passes
import Sluice.Proofs.Place.Spill

/-!
# Nothing is read before it is written

A lowered function reads no register before it is written, and neither improvements
nor spilling change that, in any order and number (`Function.Derived`). Spilling moves
the question to a slot: a slot is loaded where the register was read and stored where
it was written, so it may be needed in front of a block only if the register was live
there (`Function.Spills.guards`). From then on no step touches how the slot is used:
improvements keep every access to it, and spilling to another slot adds none.
-/

namespace Sluice

open List

namespace Flow

variable {f g : Function Reg} {is js : List (Instr Reg)} {i j : Instr Reg} {l : Label}
variable {r t t' q : Reg} {slot other : Slot} {after : Prop}

/-! ## Accesses to a slot -/

/-- What an instruction does with a slot. -/
inductive Access where
  | load
  | store
  deriving DecidableEq

/-- What an instruction does with a given slot, if anything. -/
def Instr.access? (slot : Slot) : Instr Reg → Option Access
  | spillLoad _ k => if k = slot then some .load else none
  | spillStore k _ => if k = slot then some .store else none
  | _ => none

theorem Instr.access?_eq_none (h : i.slot? ≠ some slot) : i.access? slot = none := by
  cases i with
  | spillLoad _ k | spillStore k _ => exact if_neg fun hk => h (congrArg some hk)
  | _ => rfl

theorem Instr.eq_spillStore_of_access? (h : i.access? slot = some .store) :
    ∃ q, i = .spillStore slot q := by
  cases i with
  | spillStore k q =>
    simp only [access?] at h
    split at h
    · rename_i hk
      exact ⟨q, hk ▸ rfl⟩
    · cases h
  | spillLoad _ k =>
    simp only [access?] at h
    split at h <;> cases h
  | _ => cases h

/-- A slot is needed before some instructions. -/
abbrev NeedsSlot (slot : Slot) (after : Prop) (is : List (Instr Reg)) : Prop :=
  Needs (fun i => i.access? slot = some .load) (fun i => i.access? slot = some .store) after is

/-- Whether a slot is needed depends on the accesses to it only. -/
theorem needsSlot_iff (is : List (Instr Reg)) :
    NeedsSlot slot after is ↔ match (is.filterMap (Instr.access? slot)).head? with
      | some Access.load => True
      | some Access.store => False
      | none => after := by
  induction is with
  | nil => exact Iff.rfl
  | cons i is ih =>
    simp only [NeedsSlot, Needs, filterMap_cons] at ih ⊢
    rw [ih]
    cases i.access? slot with
    | none => simp
    | some access => cases access <;> simp

/-- **The entry guards a slot:** it is needed in front of some blocks at most, and the entry is not
one of them. -/
def Function.Guards (f : Function Reg) (slot : Slot) : Prop :=
  ∃ S, f.Needing (fun i => i.access? slot = some .load) (fun i => i.access? slot = some .store) S ∧
    ¬ S entry

/-- Every load of a slot comes after a store to it, whatever path leads there. -/
def Function.StoredFirst (f : Function Reg) (slot : Slot) : Prop :=
  ∀ passed l t is, f.Path passed l (.spillLoad t slot :: is) → ∃ q, .spillStore slot q ∈ passed

theorem Function.Guards.storedFirst (h : f.Guards slot) (hf : f.WellFormed) :
    f.StoredFirst slot := by
  intro passed l t is hpath
  obtain ⟨S, hS, hentry⟩ := h
  obtain ⟨j, hj, hstore⟩ := hpath.exists_write hf hS hentry (.inl (if_pos rfl))
  obtain ⟨q, rfl⟩ := Instr.eq_spillStore_of_access? hstore
  exact ⟨q, hj⟩

/-- A slot that is not used is needed nowhere. -/
theorem guards_of_fresh (hfresh : ∀ i ∈ f.instructions, i.slot? ≠ some slot) : f.Guards slot := by
  refine ⟨fun _ => False, fun l b hb hneeds => ?_, id⟩
  have hnone : b.instrs.filterMap (Instr.access? slot) = [] := by
    refine filterMap_eq_nil_iff.2 fun i hi => Instr.access?_eq_none (hfresh i ?_)
    exact mem_flatMap.2 ⟨b, mem_of_getElem? hb, hi⟩
  have hafter := (needsSlot_iff b.instrs).1 hneeds
  rw [hnone] at hafter
  obtain ⟨k, -, hk⟩ := hafter
  exact hk

/-- **Blocks with the same accesses and no other successors** guard a slot all the same. -/
theorem Function.Guards.of_accesses (h : f.Guards slot)
    (hsucc : ∀ k l, l ∈ g.successors k → l ∈ f.successors k)
    (hblock : ∀ (l : Label) c, g.blocks[l]? = some c → ∃ b, f.blocks[l]? = some b ∧
      c.instrs.filterMap (Instr.access? slot) = b.instrs.filterMap (Instr.access? slot)) :
    g.Guards slot := by
  obtain ⟨S, hS, hentry⟩ := h
  refine ⟨S, fun l c hc hneeds => ?_, hentry⟩
  obtain ⟨b, hb, hsame⟩ := hblock l c hc
  have hfirst := (needsSlot_iff c.instrs).1 hneeds
  rw [hsame] at hfirst
  refine hS l b hb ((needsSlot_iff b.instrs).2 ?_)
  split at hfirst
  · trivial
  · exact hfirst
  · obtain ⟨k, hk, hSk⟩ := hfirst
    exact ⟨k, hsucc l k hk, hSk⟩

/-! ## Improvements -/

theorem filterMap_access_of_forall₂ {E : Instr Reg → Instr Reg → Prop}
    (hE : ∀ i j, E i j → j.access? slot = i.access? slot) (h : Forall₂ E is js) :
    js.filterMap (Instr.access? slot) = is.filterMap (Instr.access? slot) := by
  induction h with
  | nil => rfl
  | cons hij _ ih => rw [filterMap_cons, filterMap_cons, hE _ _ hij, ih]

theorem Instr.access?_fold (i : Instr Reg) : i.fold.access? slot = i.access? slot := by
  unfold fold
  split
  · split <;> rfl
  · split <;> rfl
  · rfl
  · rfl
  · rfl

/-- Dead code touches no slot. -/
theorem filterMap_access_kept (out : IdSet) (is : List (Instr Reg)) :
    (kept out is).filterMap (Instr.access? slot) = is.filterMap (Instr.access? slot) := by
  induction is with
  | nil => rfl
  | cons i is ih =>
    cases hdead : i.isDead (keptLive out is) with
    | false => rw [kept, prune_of_not_dead hdead, filterMap_cons, filterMap_cons, ih]
    | true =>
      have hpure := (isDead_eq_true.1 hdead).1
      have hnone : i.access? slot = none := by
        cases i <;> first | rfl | cases hpure
      rw [kept, prune_of_dead hdead, filterMap_cons, hnone]
      exact ih

end Flow

open Flow (Function Instr Reg Label Slot Block entry verify lower)

variable {f g : Function Reg} {slot : Slot}

/-- **An improvement keeps every slot guarded.** -/
theorem Pass.guards (p : Pass) (hf : f.Ready) (hrun : p.run f = .ok g) (h : f.Guards slot) :
    g.Guards slot := by
  obtain ⟨g', hrun', himproves⟩ := p.run_improves hf
  cases hrun.symm.trans hrun'
  refine h.of_accesses himproves.successors fun l c hc => ?_
  cases p with
  | propagate =>
    cases hrun
    have hrecast : Function.Recast (fun i j => j.access? slot = i.access? slot) f f.propagate :=
      Flow.recast_mapBlocks _ fun i _ => by cases i <;> rfl
    obtain ⟨b, hb, hinstrs⟩ := hrecast.of_block hc
    exact ⟨b, hb, Flow.filterMap_access_of_forall₂ (fun _ _ h => h) hinstrs⟩
  | fold =>
    cases hrun
    obtain ⟨b, hb, hinstrs⟩ := (Flow.recast_fold f).of_block hc
    refine ⟨b, hb, Flow.filterMap_access_of_forall₂ ?_ hinstrs⟩
    rintro i _ rfl
    exact i.access?_fold
  | prune =>
    simp only [run, hf.wellFormed.checkClosed_eq_ok] at hrun
    cases hrun
    obtain ⟨b, hb, rfl⟩ := Flow.of_pruned hc
    exact ⟨b, hb, Flow.filterMap_access_kept _ _⟩

namespace Flow

variable {is js : List (Instr Reg)} {i j : Instr Reg} {l : Label}
variable {r t t' q : Reg} {other : Slot} {after : Prop} {lo hi : Nat}
variable {codes : List (List (Instr Reg))} {out : IdSet}

/-- **Spilling keeps a function ready.** -/
theorem Function.Spills.ready (h : f.Spills r slot g) (hf : f.Ready) : g.Ready where
  wellFormed := h.wellFormed hf.wellFormed
  enters q hq := by
    rw [h.params]
    rcases h.live hf.wellFormed entry q hq with ⟨-, hlive⟩ | ⟨rfl, hparam⟩
    · exact hf.enters q hlive
    · exact hparam

/-! ## The slot of a spilled register -/

theorem Instr.access?_instead (i : Instr Reg) :
    (i.instead r t t').access? slot = i.access? slot := by
  cases i <;> rfl

/-- The code of an instruction needs the slot where the instruction reads the register, and not
where it writes it. -/
theorem needsSlot_withSlot (hi : i.access? slot = none)
    (h : NeedsSlot slot after (i.withSlot r slot t t')) : r ∈ i.uses ∨ i.def? ≠ some r ∧ after := by
  by_cases hr : r ∈ i.uses
  · exact .inl hr
  · rw [Instr.withSlot, if_neg hr, nil_append] at h
    rcases h with hload | ⟨-, h⟩
    · rw [Instr.access?_instead, hi] at hload
      cases hload
    · by_cases hdef : i.def? = some r
      · rw [if_pos hdef] at h
        rcases h with hload | ⟨hstore, -⟩
        · simp [Instr.access?] at hload
        · exact absurd (if_pos rfl) hstore
      · rw [if_neg hdef] at h
        exact .inr ⟨hdef, h⟩

/-- The code of a block needs the slot only if the block needs the register. -/
theorem needsSlot_codes (hafter : after → r ∈ out) (h : Forall₂ (CodeOf r slot lo hi) is codes)
    (hfresh : ∀ i ∈ is, i.access? slot = none) :
    NeedsSlot slot after codes.flatten → r ∈ liveFrom out is := by
  induction h with
  | nil => exact hafter
  | cons hcode _ ih =>
    intro hneeds
    obtain ⟨t, t', -, -, -, -, rfl⟩ := hcode
    rw [flatten_cons, NeedsSlot, needs_append] at hneeds
    rw [liveFrom_cons, mem_liveBefore]
    rcases needsSlot_withSlot (hfresh _ mem_cons_self) hneeds with hu | ⟨hdef, hrest⟩
    · exact .inl hu
    · exact .inr ⟨ih (fun i hi => hfresh i (mem_cons_of_mem _ hi)) hrest, hdef⟩

/-- The code of an instruction does with another slot what the instruction does. -/
theorem filterMap_access_withSlot (hne : other ≠ slot) :
    (i.withSlot r other t t').filterMap (Instr.access? slot) = (i.access? slot).toList := by
  have hload : Instr.access? slot (.spillLoad t other) = none := if_neg hne
  have hstore : Instr.access? slot (.spillStore other t') = none := if_neg hne
  have hinstead : [i.instead r t t'].filterMap (Instr.access? slot) = (i.access? slot).toList := by
    rw [filterMap_cons, Instr.access?_instead]
    cases i.access? slot <;> rfl
  have hcons : ∀ xs, (i.instead r t t' :: xs) = [i.instead r t t'] ++ xs := fun _ => rfl
  rw [Instr.withSlot, hcons, filterMap_append, filterMap_append, hinstead]
  split <;> split <;> simp [hload, hstore]

theorem filterMap_access_codes (hne : other ≠ slot)
    (h : Forall₂ (CodeOf r other lo hi) is codes) :
    codes.flatten.filterMap (Instr.access? slot) = is.filterMap (Instr.access? slot) := by
  induction h with
  | nil => rfl
  | @cons i _ _ _ hcode _ ih =>
    obtain ⟨t, t', -, -, -, -, rfl⟩ := hcode
    rw [flatten_cons, filterMap_append, filterMap_access_withSlot hne, ih, filterMap_cons]
    cases i.access? slot <;> rfl

namespace Function.Spills

/-- **The slot of a spilled register is guarded:** it can be needed only where the register was
live, and not at the entry, where a parameter is stored on arrival. -/
theorem guards (h : f.Spills r slot g) (hf : f.Ready)
    (hfresh : ∀ i ∈ f.instructions, i.slot? ≠ some slot) : g.Guards slot := by
  refine ⟨fun l => r ∈ f.liveInAt l ∧ (l = entry → r ∉ f.params), fun l c hc hneeds => ?_,
    fun hentry => hentry.2 rfl (hf.enters r hentry.1)⟩
  obtain ⟨b, codes, hb, hcodes, rfl⟩ := h.of_block hc
  have hb' : ∀ i ∈ b.instrs, i.access? slot = none := fun i hi =>
    Instr.access?_eq_none (hfresh i (mem_flatMap.2 ⟨b, mem_of_getElem? hb, hi⟩))
  rw [needs_append, h.successors_eq hf.wellFormed] at hneeds
  unfold arrival at hneeds
  split at hneeds
  · rcases hneeds with hload | ⟨hstore, -⟩
    · simp [Instr.access?] at hload
    · exact absurd (if_pos rfl) hstore
  · rename_i harrival
    refine ⟨?_, fun hl hparam => harrival ⟨hl, hparam⟩⟩
    rw [liveInAt_eq hb]
    exact needsSlot_codes (fun ⟨k, hk, hlive⟩ => mem_liveOutAt.2 ⟨k, hk, hlive.1⟩) hcodes hb' hneeds

/-- Spilling to one slot keeps the others guarded. -/
theorem guards_other (h : f.Spills r other g) (hf : f.WellFormed) (hne : other ≠ slot)
    (hguards : f.Guards slot) : g.Guards slot := by
  refine hguards.of_accesses (fun k l hl => h.successors_eq hf k ▸ hl) fun l c hc => ?_
  obtain ⟨b, codes, hb, hcodes, rfl⟩ := h.of_block hc
  have harrival : (f.arrival r other l).filterMap (Instr.access? slot) = [] := by
    unfold arrival
    split
    · have hstore : Instr.access? slot (.spillStore other r) = none := if_neg hne
      rw [filterMap_cons, hstore]
      rfl
    · rfl
  refine ⟨b, hb, ?_⟩
  rw [filterMap_append, harrival, nil_append, filterMap_access_codes hne hcodes]

end Function.Spills

/-! ## Any sequence of steps -/

/-- **A function derived from another** by improvements and by spilling, each time to a slot that
is not used yet, with the slots that registers were spilled to. -/
inductive Function.Derived (f : Function Reg) : List Slot → Function Reg → Prop
  | start : f.Derived [] f
  | pass {slots : List Slot} {g h : Function Reg} (hg : f.Derived slots g) (p : Pass)
    (hrun : p.run g = .ok h) : f.Derived slots h
  | spill {slots : List Slot} {g : Function Reg} (hg : f.Derived slots g) (r : Reg) (slot : Slot)
    (hfresh : ∀ i ∈ g.instructions, i.slot? ≠ some slot) (temporaries : IdSet) :
    f.Derived (slot :: slots) (g.spill r slot temporaries).1

/-- One register spilled. A register that the function does not have changes nothing. -/
theorem Function.Ready.spill (hf : f.Ready) (hfresh : ∀ i ∈ f.instructions, i.slot? ≠ some slot)
    (r : Reg) (temporaries : IdSet) :
    (f.spill r slot temporaries).1.Ready ∧ (f.spill r slot temporaries).1.Guards slot ∧
      ∀ {k}, f.Guards k → (f.spill r slot temporaries).1.Guards k := by
  by_cases hr : r < f.registers.length
  · have hspills := (spills_spill hr slot temporaries).1
    have hguards := hspills.guards hf hfresh
    refine ⟨hspills.ready hf, hguards, fun {k} hk => ?_⟩
    by_cases hne : slot = k
    · exact hne ▸ hguards
    · exact hspills.guards_other hf.wellFormed hne hk
  · have hsame : (f.spill r slot temporaries).1 = f := by
      rw [Function.spill, getElem?_eq_none (Nat.le_of_not_lt hr)]
    rw [hsame]
    exact ⟨hf, guards_of_fresh hfresh, id⟩

/-- **Every step keeps a function ready,** and keeps the slots guarded that were spilled to. -/
theorem Function.Derived.ready (hf : f.Ready) (h : f.Derived slots g) :
    g.Ready ∧ ∀ slot ∈ slots, g.Guards slot := by
  induction h with
  | start => exact ⟨hf, nofun⟩
  | pass _ p hrun ih =>
    obtain ⟨hg, hguards⟩ := ih
    obtain ⟨h, hrun', himproves⟩ := p.run_improves hg
    cases hrun.symm.trans hrun'
    exact ⟨himproves.ready hg, fun slot hslot => p.guards hg hrun (hguards slot hslot)⟩
  | spill _ r slot hfresh temporaries ih =>
    obtain ⟨hg, hguards⟩ := ih
    obtain ⟨hready, hslot, hother⟩ := hg.spill hfresh r temporaries
    exact ⟨hready, forall_mem_cons.2 ⟨hslot, fun k hk => hother (hguards k hk)⟩⟩

end Flow

/-- **Nothing is read before it is written, at any stage.** A lowered function has only parameters
live at its entry. From any function that is accepted and has that property, with loops or without,
improvements and spilling lead to functions that have it too, however many of them follow each
other: no path reads a register that is neither a parameter nor written on the way, none loads the
slot of a spilled register that was not stored on the way, and every improvement succeeds. -/
theorem written_before_read :
    (∀ {source : Source.Program} {prog : Typed.Program}, Infer.infer source = .ok prog →
      ∀ f ∈ prog.functions,
        (∀ witness span, .nonExhaustive witness span ∉ Decision.functionErrors prog.records f) →
        ∃ g, lower f (Decision.decisions f) = .ok g ∧ ∀ r ∈ g.liveInAt entry, r ∈ g.params) ∧
    ∀ {f g : Function Reg} {slots : List Slot}, verify f = .ok () →
      (∀ r ∈ f.liveInAt entry, r ∈ f.params) → f.Derived slots g →
      (∀ r ∈ g.liveInAt entry, r ∈ g.params) ∧
      (∀ passed l i is, g.Path passed l (i :: is) →
        ∀ r ∈ i.uses, r ∈ g.params ∨ ∃ j ∈ passed, j.def? = some r) ∧
      (∀ slot ∈ slots, g.StoredFirst slot) ∧
      ∀ p : Pass, ∃ h, p.run g = .ok h := by
  constructor
  · intro source prog hinfer f hf hexhaustive
    obtain ⟨hwt, htotal, g, K, hlower, hL⟩ := Flow.exists_lower_of_infer hinfer hf hexhaustive
    obtain ⟨hg, -⟩ := Flow.sound_of_lower hwt htotal hlower hL
    exact ⟨g, hlower, hg.enters⟩
  · intro f g slots hverify henters hderived
    obtain ⟨hg, hguards⟩ := hderived.ready ⟨Flow.wellFormed_of_verify hverify, henters⟩
    refine ⟨hg.enters, fun passed l i is hpath r hr => hpath.written hg.wellFormed hg.enters hr,
      fun slot hslot => (hguards slot hslot).storedFirst hg.wellFormed, fun p => ?_⟩
    obtain ⟨h, hrun, -⟩ := p.run_improves hg
    exact ⟨h, hrun⟩

/-- The loop with its parameter spilled, constants folded, and then the divisor spilled. -/
def spilledLoop : Function Reg :=
  ((dividingLoop.spill 0 1 ∅).1.fold.spill 4 2 ∅).1

/-- Both slots are loaded in the loop. And the functions of `pairSource` are lowered. -/
theorem written_before_read_spilledLoop :
    (verify dividingLoop = .ok () ∧ dividingLoop.Derived [2, 1] spilledLoop ∧
      (∃ t, .spillLoad t 1 ∈ spilledLoop.instructions) ∧
      (∃ t, .spillLoad t 2 ∈ spilledLoop.instructions) ∧
      spilledLoop.StoredFirst 1 ∧ spilledLoop.StoredFirst 2 ∧
      ∀ r ∈ spilledLoop.liveInAt entry, r ∈ spilledLoop.params) ∧
    (Infer.check Infer.pairSource).program.functions ≠ [] ∧
      ∀ f ∈ (Infer.check Infer.pairSource).program.functions, ∃ g,
        lower f (Decision.decisions f) = .ok g ∧ ∀ r ∈ g.liveInAt entry, r ∈ g.params := by
  have hverify : verify dividingLoop = .ok () := by decide +kernel
  have hentry : ∀ r ∈ (dividingLoop.liveInAt entry).toList, r ∈ dividingLoop.params := by
    decide +kernel
  have hderived : dividingLoop.Derived [2, 1] spilledLoop :=
    .spill (.pass (.spill .start 0 1 (by decide +kernel) ∅) .fold rfl) 4 2 (by decide +kernel) ∅
  obtain ⟨henters, -, hstored, -⟩ := written_before_read.2 hverify hentry hderived
  have hok : Infer.infer Infer.pairSource = .ok (Infer.check Infer.pairSource).program :=
    Infer.infer_eq_ok.2 ⟨by decide +kernel, rfl⟩
  have hmatches : ∀ f ∈ (Infer.check Infer.pairSource).program.functions,
      Decision.functionErrors (Infer.check Infer.pairSource).program.records f = [] := by
    decide +kernel
  refine ⟨⟨hverify, hderived, ⟨5, by decide +kernel⟩, ⟨11, by decide +kernel⟩,
    hstored 1 (by decide), hstored 2 (by decide), henters⟩, by decide +kernel, fun f hf => ?_⟩
  exact written_before_read.1 hok f hf (by rw [hmatches f hf]; exact fun _ _ => not_mem_nil)

end Sluice
