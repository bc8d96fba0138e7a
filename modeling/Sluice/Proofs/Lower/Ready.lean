import Sluice.Proofs.Lower.Safe
import Sluice.Proofs.Lower.Yields
import Sluice.Proofs.Optimize.Improves
import Sluice.Proofs.Place.Resolve

/-!
# Lowered functions are ready for what follows

A lowered function is in order (`plain_of_lower`), and the code of its entry is safe
(`Lowered.safe`). So every way through it ends and of its registers only parameters
are needed on entry: it passes the check and can be improved (`sound_of_lower`). And a
call of it comes to one end, whatever the memory held before (`Lowered.exists_yields`).
-/

namespace Sluice.Flow

open Machine
open Typed (Expr LocalId Program)

variable {prog : Program} {f : Typed.Function} {g h : Function Reg} {K : Layout} {A : Reg → Prop}
  {is : List (Instr Reg)}

/-! ## What safe code tells of its function -/

/-- Every way on from safe instructions ends. -/
theorem Safe.ends (hg : g.WellFormed)
    (hblocks : ∀ l : Label, g.blocks[l]?.map (·.instrs) = K.blocks[l]?) (hsafe : Safe K A is) :
    ∀ {l}, g.At l is → g.Ends l := by
  induction hsafe with
  | next _ _ _ _ ih => exact fun hat => ih hat.next
  | @last _ i _ code hi _ hcode _ ih =>
    intro l hat
    refine .intro l fun k hk => ?_
    have hk : k ∈ i.successors := (hat.last hg hi).2 ▸ hk
    obtain ⟨b, hb, hinstrs⟩ := Option.map_eq_some_iff.1 ((hblocks k).trans (hcode k hk))
    exact ih k hk (hinstrs ▸ .start hb)

/-- What is live before safe instructions holds a value there. -/
theorem Safe.live (hg : g.WellFormed)
    (hblocks : ∀ l : Label, g.blocks[l]?.map (·.instrs) = K.blocks[l]?) (hsafe : Safe K A is)
    (hl : K.blocks[l]? = some is) : ∀ r ∈ g.liveInAt l, A r := by
  -- the live sets are the least solution, and holding a value is a solution
  have hleast := liveInAt_least (f := g)
    (S := fun l r => ∀ (A : Reg → Prop) is, K.blocks[l]? = some is → Safe K A is → A r) ?_ l
  · exact fun r hr => hleast r hr A is hl hsafe
  · intro l b hb out hout r hr A is hl hsafe
    have his : b.instrs = is := by
      have heq := (hblocks l).trans hl
      rw [hb] at heq
      exact Option.some.inj heq
    rw [his] at hr
    have hat : g.At l is := his ▸ .start hb
    clear his hl
    induction hsafe with
    | next _ _ huses _ ih =>
      rcases mem_liveBefore.1 hr with hr | ⟨hr, hdef⟩
      · exact huses r hr
      · exact (ih hr hat.next).resolve_right hdef
    | last code hi huses hcode hsafe =>
      obtain ⟨rfl, hsucc⟩ := hat.last hg hi
      rcases mem_liveBefore.1 hr with hr | ⟨hr, -⟩
      · exact huses r hr
      · obtain ⟨k, hk, hS⟩ := hout r hr
        have hk : k ∈ g.successors l := by simpa [Function.successors, hb] using hk
        rw [hsucc] at hk
        exact hS _ _ (hcode k hk) (hsafe k hk)

/-! ## Lowered functions -/

/-- **The entry of a lowered function is safe** where the parameters hold values. -/
theorem Lowered.safe (hL : Lowered f g K) (hf : f.WellTyped prog)
    (htotal : Exhaustive (Decision.sites f.body)) :
    ∃ is, K.blocks[entry]? = some is ∧ Safe K (· ∈ g.params) is := by
  obtain ⟨p, o, q, hentry, hcode, hret⟩ := hL.body
  have hbound : Bound K f.params (· ∈ g.params) := by
    intro id hid r hr
    obtain ⟨n, hn, rfl⟩ := List.getElem_of_mem hid
    have hreg := hL.params.get hn (hL.params.length_eq ▸ hn)
    cases hr.symm.trans hreg
    exact List.get_mem _ _
  refine ⟨p.rest, hentry, secures_expr hf.body_typed htotal hbound p o q hcode ?_⟩
  rw [hret]
  exact .last (fun _ => []) rfl (fun r hr => .inr (Operand.names_of_mem hr)) nofun nofun

/-- **What later steps rely on.** -/
structure Function.Sound (g : Function Reg) : Prop extends g.Plain where
  current : g.Current
  ends : g.Ends entry
  enters : ∀ r ∈ g.liveInAt entry, r ∈ g.params

namespace Function.Sound

theorem ready (hg : g.Sound) : g.Ready := ⟨hg.wellFormed, hg.enters⟩

theorem verify (hg : g.Sound) : verify g = .ok () :=
  verify_eq_ok.2 ⟨hg.wellFormed, hg.current, reachesReturn_of_ends hg.wellFormed hg.ends⟩

theorem improves (hg : g.Sound) (hh : h.Improves g) : h.Sound where
  wellFormed := hh.wellFormed
  params_lt := by
    rw [hh.params, hh.registers]
    exact hg.params_lt
  slots j hj := by
    rw [Option.eq_none_iff_forall_not_mem]
    intro slot hslot
    obtain ⟨i, hi, hslot⟩ := hh.slots j hj slot hslot
    rw [hg.slots i hi] at hslot
    cases hslot
  enters_once l hl := hg.enters_once l (hh.successors l entry hl)
  current := hh.current hg.current
  ends := hg.ends.mono hh.successors
  enters := (hh.ready hg.ready).enters

end Function.Sound

/-- **A lowered function is sound**, and keeps its name. -/
theorem sound_of_lower (hf : f.WellTyped prog) (htotal : Exhaustive (Decision.sites f.body))
    (hlower : lower f (Decision.decisions f) = .ok g) (hL : Lowered f g K) :
    g.Sound ∧ g.name = f.name := by
  obtain ⟨hplain, hcurrent, hname⟩ := plain_of_lower hf (decided_decisions hf htotal) hlower
  obtain ⟨is, hentry, hsafe⟩ := hL.safe hf htotal
  obtain ⟨b, hb, hinstrs⟩ := Option.map_eq_some_iff.1 ((hL.blocks entry).trans hentry)
  exact ⟨⟨hplain, hcurrent, hsafe.ends hplain.wellFormed hL.blocks (hinstrs ▸ .start hb),
    hsafe.live hplain.wellFormed hL.blocks hentry⟩, hname⟩

/-- Arguments arrive in the parameters whatever was there before. -/
theorem get_arrive (hargs : args.length = g.params.length) (hr : r ∈ g.params)
    (m m' : Memory) : g.arrive m' args (.machine r) = g.arrive m args (.machine r) := by
  refine foldl_update_place (fun _ _ hne heq => hne (Location.machine.inj heq)) (.inr ?_)
  exact exists_given hargs hr

/-- **A call of a lowered function comes to one end**, whatever the memory holds. -/
theorem Lowered.exists_yields (hL : Lowered f g K) (hf : f.WellTyped prog)
    (htotal : Exhaustive (Decision.sites f.body)) (calls : Calls)
    (hargs : args.length = g.params.length) (w : World) :
    ∃ e w', ∀ m, g.Yields calls m args w e w' := by
  obtain ⟨is, hentry, hsafe⟩ := hL.safe hf htotal
  obtain ⟨b, hb, hinstrs⟩ := Option.map_eq_some_iff.1 ((hL.blocks entry).trans hentry)
  let s : State := { memory := g.arrive (fun _ => .unit) args, world := w }
  obtain ⟨e, w', hruns⟩ : ∃ e w', ∀ t : State, t.world = w →
      (∀ r, r ∈ g.params → t.get r = s.get r) → ∃ t', Runs calls g is t e t' ∧ t'.world = w' :=
    hsafe.runs hL.blocks s
  refine ⟨e, w', fun m => ?_⟩
  obtain ⟨t, ht, hw⟩ := hruns { memory := g.arrive m args, world := w } rfl fun r hr =>
    get_arrive hargs hr _ m
  exact ⟨b, t, hb, hinstrs ▸ ht, hw⟩

end Sluice.Flow
