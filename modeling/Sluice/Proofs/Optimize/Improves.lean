import Sluice.Proofs.Live.Sets
import Sluice.Proofs.Machine.Observe

/-!
# Improving a function

What an improvement keeps (`Function.Improves`): the function stays in order, no
register becomes live where it was not, and whatever is seen of a call that ends is
seen of the improved function. An improvement relies on nothing else than what it
keeps, so improvements follow each other in any order.
-/

namespace Sluice.Flow

open Machine

/-- **A function is in order, and of its registers only parameters are needed on entry.** -/
structure Function.Ready (f : Function Reg) : Prop where
  wellFormed : f.WellFormed
  enters : ∀ r ∈ f.liveInAt entry, r ∈ f.params

/-- **One function has the frame of another:** its blocks, parameters and registers are the same, it
is in order, and control goes nowhere else. -/
structure Function.Reframes (g f : Function Reg) : Prop where
  name : g.name = f.name
  params : g.params = f.params
  registers : g.registers = f.registers
  length : g.blocks.length = f.blocks.length
  wellFormed : g.WellFormed
  current : f.Current → g.Current
  successors : ∀ k l, l ∈ g.successors k → l ∈ f.successors k

/-- **One function improves another.** -/
structure Function.Improves (g f : Function Reg) : Prop extends g.Reframes f where
  live : ∀ l, ∀ r ∈ g.liveInAt l, r ∈ f.liveInAt l
  slots : ∀ j ∈ g.instructions, ∀ slot ∈ j.slot?, ∃ i ∈ f.instructions, slot ∈ i.slot?
  shows : ∀ {calls : Calls} {m : Memory} {args : List Value} {w w' : World} {seen : List Sight}
    {e : Ending}, f.Shows calls m args w seen e w' → g.Shows calls m args w seen e w'

variable {f g h : Function Reg}

theorem Function.Reframes.refl (hf : f.WellFormed) : f.Reframes f :=
  ⟨rfl, rfl, rfl, rfl, hf, fun h => h, fun _ _ h => h⟩

theorem Function.Reframes.trans (hg : h.Reframes g) (hf : g.Reframes f) : h.Reframes f where
  name := hg.name.trans hf.name
  params := hg.params.trans hf.params
  registers := hg.registers.trans hf.registers
  length := hg.length.trans hf.length
  wellFormed := hg.wellFormed
  current hcurrent := hg.current (hf.current hcurrent)
  successors k l hl := hf.successors k l (hg.successors k l hl)

namespace Function.Improves

theorem refl (hf : f.WellFormed) : f.Improves f where
  toReframes := .refl hf
  live _ _ h := h
  slots i hi _ hslot := ⟨i, hi, hslot⟩
  shows h := h

theorem trans (hg : h.Improves g) (hf : g.Improves f) : h.Improves f where
  toReframes := hg.toReframes.trans hf.toReframes
  live l r hr := hf.live l r (hg.live l r hr)
  slots i hi slot hslot :=
    let ⟨j, hj, hslot⟩ := hg.slots i hi slot hslot
    hf.slots j hj slot hslot
  shows hshows := hg.shows (hf.shows hshows)

/-- An improved function can be improved again. -/
theorem ready (hg : g.Improves f) (hf : f.Ready) : g.Ready where
  wellFormed := hg.wellFormed
  enters r hr := hg.params ▸ hf.enters r (hg.live entry r hr)

theorem implements (hg : g.Improves f) : g.Implements f := by
  refine ⟨by rw [hg.params], fun calls args w m _ => ⟨m, fun e w' hyields => ?_⟩⟩
  obtain ⟨seen, hshows⟩ := Function.yields_iff.1 hyields
  exact Function.yields_iff.2 ⟨seen, hg.shows hshows⟩

end Function.Improves

end Sluice.Flow
