import Sluice.Proofs.Flow.Rename
import Sluice.Proofs.Live.Interval
import Sluice.Proofs.Machine.Recast

/-!
# What allocations list

The registers that an allocation lists are no part of what it does. Listing what is
live across every allocation leaves all but these lists as they were
(`dropLive_withLive`), so the function is accepted as before, holds values at the
same positions (`Function.Recast.listed_holds`) and runs through the same states
(`implements_withLive`). And every register that is listed holds a value there
(`holds_of_names`).
-/

namespace Sluice.Flow

open List Machine

/-- An instruction that lists nothing. -/
def Instr.dropLive : Instr Reg → Instr Reg
  | alloc dst shape _ => alloc dst shape []
  | i => i

/-- A function whose allocations list nothing. -/
def Function.dropLive (f : Function Reg) : Function Reg :=
  f.mapBlocks (·.map Instr.dropLive)

/-- Two instructions differ at most in what they list. -/
abbrev Instr.SameButListed (i j : Instr Reg) : Prop := j.dropLive = i.dropLive

variable {i j : Instr Reg}

/-- What an instruction lists has no part in anything else. -/
theorem Instr.SameButListed.attributes (h : i.SameButListed j) :
    j.isTerminator = i.isTerminator ∧ j.isRet = i.isRet ∧ j.def? = i.def? ∧ j.uses = i.uses ∧
      j.successors = i.successors := by
  have hdrop : ∀ i : Instr Reg, i.isTerminator = i.dropLive.isTerminator ∧
      i.isRet = i.dropLive.isRet ∧ i.def? = i.dropLive.def? ∧ i.uses = i.dropLive.uses ∧
      i.successors = i.dropLive.successors := by
    intro i
    cases i <;> exact ⟨rfl, rfl, rfl, rfl, rfl⟩
  obtain ⟨h1, h2, h3, h4, h5⟩ := hdrop i
  obtain ⟨h1', h2', h3', h4', h5'⟩ := hdrop j
  rw [h1, h2, h3, h4, h5, h1', h2', h3', h4', h5', h]
  exact ⟨rfl, rfl, rfl, rfl, rfl⟩

theorem Instr.SameButListed.slot_eq (h : i.SameButListed j) : j.slot? = i.slot? := by
  have hdrop : ∀ i : Instr Reg, i.slot? = i.dropLive.slot? := by
    intro i
    cases i <;> rfl
  rw [hdrop i, hdrop j, h]

theorem Instr.SameButListed.narrows (h : i.SameButListed j) : j.Narrows i := by
  obtain ⟨hterm, -, hdef, huses, hsucc⟩ := h.attributes
  exact ⟨hterm, hdef, fun r hr => huses ▸ hr, fun l hl => hsucc ▸ hl, h.slot_eq⟩

theorem Instr.SameButListed.step_eq (h : i.SameButListed j) (calls : Calls) (s : State) :
    j.sights s.get = i.sights s.get ∧ j.step calls s = i.step calls s := by
  have hdrop : ∀ i : Instr Reg,
      i.sights s.get = i.dropLive.sights s.get ∧ i.step calls s = i.dropLive.step calls s := by
    intro i
    cases i <;> exact ⟨rfl, rfl⟩
  rw [(hdrop i).1, (hdrop i).2, (hdrop j).1, (hdrop j).2, h]
  exact ⟨rfl, rfl⟩

/-! ## Functions that differ in what is listed -/

variable {f g : Function Reg}

namespace Function.Recast

variable (h : Recast Instr.SameButListed f g)

include h

theorem listed_symm : Recast Instr.SameButListed g f where
  name := h.name.symm
  params := h.params.symm
  registers := h.registers.symm
  blocks := h.blocks.flip.imp fun _ _ hbc => hbc.flip.imp fun _ _ hij => hij.symm

theorem listed_successors (hf : f.WellFormed) (l : Label) : g.successors l = f.successors l := by
  by_cases hl : l < f.blocks.length
  · obtain ⟨i, j, hij, hi, hj⟩ := h.exists_ends (fun _ _ hij => hij.narrows) hf hl
    rw [hi, hj]
    exact hij.attributes.2.2.2.2
  · have hlen := h.blocks.length_eq
    rw [Function.successors, Function.successors, getElem?_eq_none (Nat.not_lt.1 hl),
      getElem?_eq_none (Nat.not_lt.1 (hlen ▸ hl))]

theorem listed_liveInAt (hf : f.WellFormed) (l : Label) : g.liveInAt l = f.liveInAt l := by
  have hg := h.wellFormed (fun _ _ hij => hij.narrows) hf
  refine IdSet.ext fun r => ⟨h.live (fun _ _ hij => hij.narrows) hf l r, ?_⟩
  exact h.listed_symm.live (fun _ _ hij => hij.narrows) hg l r

theorem listed_liveOutAt (hf : f.WellFormed) (l : Label) : g.liveOutAt l = f.liveOutAt l := by
  refine IdSet.ext fun r => ?_
  simp only [mem_liveOutAt, h.listed_successors hf, h.listed_liveInAt hf]

end Function.Recast

/-- The points of a block do not depend on what is listed. -/
theorem zipWith_point_congr (h : Forall₂ Instr.SameButListed is js) :
    liveFrom out js = liveFrom out is ∧
      List.zipWith Instr.point js (liveThrough out js).1 =
        List.zipWith Instr.point is (liveThrough out is).1 := by
  induction h with
  | nil => exact ⟨rfl, rfl⟩
  | @cons i j is js hij _ ih =>
    obtain ⟨hlive, hpoints⟩ := ih
    obtain ⟨-, -, hdef, huses, -⟩ := hij.attributes
    have hbefore : ∀ after, j.liveBefore after = i.liveBefore after := fun after => by
      rw [Instr.liveBefore, Instr.liveBefore, hdef, huses]
    have hpoint : ∀ after, j.point after = i.point after := fun after => by
      rw [Instr.point, Instr.point, hbefore, hdef, huses]
    refine ⟨by rw [liveFrom_cons, liveFrom_cons, hlive, hbefore], ?_⟩
    simp only [liveThrough, zipWith_cons_cons]
    change j.point (liveFrom out js) :: _ = i.point (liveFrom out is) :: _
    rw [hpoint, hlive, hpoints]

theorem walk_congr {f : Function ρ} {g : Function σ} (h : ∀ l, f.successors l = g.successors l) :
    ∀ (depth : Nat) (w : Walk) (l : Label), f.walk depth w l = g.walk depth w l := by
  intro depth
  induction depth with
  | zero => exact fun _ _ => rfl
  | succ depth ih =>
    intro w l
    have hwalk : f.walk depth = g.walk depth := funext fun w => funext (ih w)
    simp only [Function.walk, h, hwalk]

theorem layout_congr {f : Function ρ} {g : Function σ} (hlen : f.blocks.length = g.blocks.length)
    (h : ∀ l, f.successors l = g.successors l) : f.layout = g.layout := by
  have hempty : f.blocks.isEmpty = g.blocks.isEmpty := by
    rw [Bool.eq_iff_iff, List.isEmpty_iff, List.isEmpty_iff, ← length_eq_zero_iff, hlen,
      length_eq_zero_iff]
  simp only [Function.layout, hempty, hlen, walk_congr h]

/-- **Values are held at the same positions**, whatever is listed. -/
theorem Function.Recast.listed_holds (h : Recast Instr.SameButListed f g) (hf : f.WellFormed) :
    g.Holds r p ↔ f.Holds r p := by
  have hlayout : g.layout = f.layout :=
    layout_congr h.blocks.length_eq.symm (h.listed_successors hf)
  have hpoints : g.points = f.points := by
    unfold Function.points
    rw [hlayout]
    refine flatMap_congr fun l hl => ?_
    obtain ⟨b, hb⟩ : ∃ b, f.blocks[l]? = some b :=
      ⟨_, getElem?_eq_getElem (hf.mem_layout.1 hl)⟩
    obtain ⟨c, hc, hinstrs⟩ := h.block hb
    simp only [zipWith_point hb, zipWith_point hc, h.listed_liveOutAt hf]
    exact (zipWith_point_congr hinstrs).2
  rw [Function.Holds, Function.Holds, h.params, hpoints]

/-! ## Listing what is live -/

theorem dropLive_withLive (i : Instr Reg) (after : IdSet) : i.SameButListed (i.withLive after) := by
  cases i <;> rfl

theorem getElem?_withLive (f : Function Reg) (l : Label) :
    f.withLive.blocks[l]? = f.blocks[l]?.map fun b =>
      { b with instrs :=
        List.zipWith Instr.withLive b.instrs (liveThrough (f.liveOutAt l) b.instrs).1 } := by
  simp only [Function.withLive, getElem?_map]
  cases hb : f.blocks[l]? with
  | none => simp [List.zip, getElem?_zipWith, hb]
  | some b => simp [zipWith_point hb]

theorem forall₂_withLive : ∀ is : List (Instr Reg),
    Forall₂ Instr.SameButListed is (List.zipWith Instr.withLive is (liveThrough out is).1)
  | [] => .nil
  | i :: is => .cons (dropLive_withLive i _) (forall₂_withLive is)

theorem recast_withLive (f : Function Reg) : Function.Recast Instr.SameButListed f f.withLive where
  name := rfl
  params := rfl
  registers := rfl
  blocks := by
    have hlen : f.blocks.length = f.withLive.blocks.length := by
      simp [Function.withLive, Function.liveAfter, Function.liveness]
    refine forall₂_iff_get.2 ⟨hlen, fun l hl hl' => ?_⟩
    have hget := getElem?_withLive f l
    rw [getElem?_eq_getElem hl, getElem?_eq_getElem hl', Option.map_some, Option.some.injEq] at hget
    rw [get_eq_getElem, get_eq_getElem, hget]
    exact forall₂_withLive _

/-- **Only the lists change.** -/
theorem Function.dropLive_withLive (f : Function Reg) : f.withLive.dropLive = f.dropLive := by
  have hblocks : f.withLive.dropLive.blocks = f.dropLive.blocks := by
    refine ext_getElem? fun l => ?_
    simp only [Function.dropLive, Function.mapBlocks, getElem?_map, getElem?_withLive,
      Option.map_map]
    refine congrArg (Option.map · _) (funext fun b => ?_)
    simp only [Function.comp_apply]
    congr 1
    refine forall₂_eq_eq_eq ▸ ?_
    exact forall₂_map_left_iff.2 (forall₂_map_right_iff.2 (forall₂_withLive b.instrs).flip)
  exact congrArg (fun blocks => ({ f with blocks } : Function Reg)) hblocks

theorem wellFormed_withLive (hf : f.WellFormed) : f.withLive.WellFormed :=
  (recast_withLive f).wellFormed (fun _ _ hij => hij.narrows) hf

/-- Nothing but instructions is seen to change in a block. -/
theorem outline_of_forall₂ {b c : Block Reg} (hb : Ended b.instrs) (hpreds : c.preds = b.preds)
    (h : Forall₂ Instr.SameButListed b.instrs c.instrs) : c.outline = b.outline := by
  obtain ⟨body, last, heq, hlast, -⟩ := hb
  rw [heq] at h
  obtain ⟨body', last', heq', -, hsame⟩ := exists_concat_of_forall₂ h
  obtain ⟨hterm, hret, -, -, hsucc⟩ := hsame.attributes
  rw [Block.outline, Block.outline, c.successors_eq heq' (hterm.trans hlast),
    b.successors_eq heq hlast, c.returns_eq heq', b.returns_eq heq, hsucc, hret, hpreds]

/-- The function is accepted as before. -/
theorem verify_withLive (hf : verify f = .ok ()) : verify f.withLive = .ok () := by
  have hwf := wellFormed_of_verify hf
  refine verify_of_outline_eq hf (wellFormed_withLive hwf) (ext_getElem? fun l => ?_)
  simp only [getElem?_map, getElem?_withLive, Option.map_map]
  cases hb : f.blocks[l]? with
  | none => rfl
  | some b =>
    have hended := hwf.ended b (mem_of_getElem? hb)
    let c : Block Reg :=
      ⟨List.zipWith Instr.withLive b.instrs (liveThrough (f.liveOutAt l) b.instrs).1, b.preds⟩
    have houtline : c.outline = b.outline :=
      outline_of_forall₂ hended rfl (forall₂_withLive b.instrs)
    exact congrArg some houtline.symm

/-- **Every register that an instruction mentions or lists holds a value** at one of its
positions. -/
theorem holds_of_names (hf : f.WellFormed) (hc : c ∈ f.withLive.blocks) (hj : j ∈ c.instrs)
    (hr : r ∈ j.names) : ∃ n, f.Holds r n := by
  obtain ⟨l, hl⟩ := getElem?_of_mem hc
  rw [getElem?_withLive] at hl
  obtain ⟨b, hb, rfl⟩ := Option.map_eq_some_iff.1 hl
  obtain ⟨before, i, rest, heq, rfl⟩ := exists_of_mem_zipWith_liveThrough hj
  have hat : f.At l (i :: rest) := ⟨b, before, hb, heq⟩
  obtain ⟨n, hbefore, hafter⟩ := hat.exists_position hf
  obtain ⟨-, -, hdef, huses, -⟩ := (dropLive_withLive i (f.liveAt l rest)).attributes
  change r ∈ (i.withLive (f.liveAt l rest)).names at hr
  simp only [Instr.names, hdef, huses, mem_append, Option.mem_toList] at hr
  rcases hr with (hr | hr) | hr
  · exact ⟨_, hafter r (.inr hr)⟩
  · exact ⟨_, hbefore r (mem_liveBefore.2 (.inl hr))⟩
  · refine ⟨_, hafter r (.inl ?_)⟩
    cases i with
    | alloc dst shape live =>
      have hlisted : r ∈ (f.liveAt l rest).erase dst := hr
      exact (IdSet.mem_erase.1 hlisted).1
    | _ => cases hr

/-- The slots that instructions use are the same. -/
theorem exists_slot_of_withLive (hj : j ∈ f.withLive.instructions)
    (hn : j.slot? = some n) : ∃ i ∈ f.instructions, i.slot? = some n :=
  (recast_withLive f).slots (fun _ _ hij => hij.narrows) j hj n hn

/-- **The function runs through the same states.** -/
theorem implements_withLive (hf : f.WellFormed) : f.withLive.Implements f := by
  refine ⟨rfl, fun calls args w m _ => ⟨m, fun e w' hyields => ?_⟩⟩
  obtain ⟨seen, hshows⟩ := Function.yields_iff.1 hyields
  refine Function.yields_iff.2 ⟨seen, ?_⟩
  exact (recast_withLive f).shows hf .trivial (fun _ _ hij => hij.step_eq calls _)
    (fun _ _ _ => ⟨⟩) hshows

end Sluice.Flow
