import Sluice.Proofs.Live.Layout
import Sluice.Proofs.Optimize.Constant
import Sluice.Proofs.Optimize.DeadCode

/-!
# Improvements in any order

Every single improvement keeps what all of them rely on, so any list of them, however
often it is repeated, improves the function (`repeatPasses_improves`). Whatever is
seen of a call that ends is then seen of the improved function
(`repeatPasses_shows`), and an accepted function without cycles stays one
(`runPasses_verify`).
-/

namespace Sluice

open Flow (Fault Function Instr Reg Block verify entry)
open Machine

variable {f : Function Reg}

theorem Pass.run_prune (hf : f.WellFormed) : prune.run f = .ok f.pruned := by
  simp only [run, hf.checkClosed_eq_ok]
  rfl

/-- **A single improvement succeeds and improves the function.** -/
theorem Pass.run_improves (p : Pass) (hf : f.Ready) : ∃ g, p.run f = .ok g ∧ g.Improves f := by
  cases p with
  | propagate => exact ⟨_, rfl, Flow.improves_propagate hf⟩
  | fold => exact ⟨_, rfl, Flow.improves_fold hf.wellFormed⟩
  | prune => exact ⟨_, run_prune hf.wellFormed, Flow.improves_pruned hf.wellFormed⟩

/-- A single improvement keeps the frame of a function, whatever is live on entry. -/
theorem Pass.run_reframes (p : Pass) (hf : f.WellFormed) : ∃ g, p.run f = .ok g ∧ g.Reframes f := by
  cases p with
  | propagate => exact ⟨_, rfl, Flow.reframes_propagate hf⟩
  | fold => exact ⟨_, rfl, (Flow.improves_fold hf).toReframes⟩
  | prune => exact ⟨_, run_prune hf, (Flow.improves_pruned hf).toReframes⟩

/-- What single improvements bring about, a list of them does. -/
theorem exists_runPasses {I : Function Reg → Prop} {R : Function Reg → Function Reg → Prop}
    (hrefl : ∀ {f}, I f → R f f) (htrans : ∀ {f g h}, R h g → R g f → R h f)
    (hkeeps : ∀ {f g}, R g f → I f → I g)
    (hrun : ∀ (p : Pass) {f}, I f → ∃ g, p.run f = .ok g ∧ R g f) (passes : List Pass) :
    ∀ (changed : Bool) {f}, I f →
      ∃ changed' g, runPasses changed passes f = .ok (changed', g) ∧ R g f := by
  induction passes with
  | nil => exact fun changed f hf => ⟨changed, f, rfl, hrefl hf⟩
  | cons p rest ih =>
    intro changed f hf
    obtain ⟨g, hg, hfg⟩ := hrun p hf
    obtain ⟨changed', h, hh, hgh⟩ := ih (changed || differ f g) (hkeeps hfg hf)
    refine ⟨changed', h, ?_, htrans hgh hfg⟩
    simp only [runPasses, hg]
    exact hh

/-- **Improvements in any order and number improve the function.** -/
theorem repeatPasses_improves (passes : List Pass) : ∀ (limit : Nat) {f}, f.Ready →
    ∃ count g, repeatPasses passes limit f = .ok (count, g) ∧ g.Improves f := by
  intro limit
  induction limit with
  | zero => exact fun hf => ⟨0, _, rfl, .refl hf.wellFormed⟩
  | succ limit ih =>
    intro f hf
    obtain ⟨changed, g, hg, hfg⟩ := exists_runPasses (R := Function.Improves)
      (fun hf => .refl hf.wellFormed) .trans (·.ready) (fun p _ => p.run_improves) passes false hf
    cases changed with
    | false =>
      refine ⟨0, g, ?_, hfg⟩
      simp only [repeatPasses, hg]
      rfl
    | true =>
      obtain ⟨count, h, hh, hgh⟩ := ih (hfg.ready hf)
      refine ⟨count + 1, h, ?_, hgh.trans hfg⟩
      simp only [repeatPasses, hg]
      simp only [bind, Except.bind, hh]
      rfl

/-- **Improvements keep what a call does.** Of any list of improvements, repeated up to any limit,
the result shows what the function shows: a call that ends, with a value or a trap, ends the same
way after the same calls, allocations, stores and spills, in this order. Loops are allowed; all that
is asked is that the function is accepted and that only parameters are live on entry. -/
theorem repeatPasses_shows (hverify : verify f = .ok ())
    (hentry : ∀ r ∈ f.liveInAt entry, r ∈ f.params) (passes : List Pass) (limit : Nat) :
    ∃ count g, repeatPasses passes limit f = .ok (count, g) ∧
      ∀ (calls : Calls) (m : Memory) (args : List Value) (w : World) (seen : List Sight)
        (e : Ending) (w' : World),
        f.Shows calls m args w seen e w' → g.Shows calls m args w seen e w' := by
  have hready : f.Ready := ⟨Flow.wellFormed_of_verify hverify, hentry⟩
  obtain ⟨count, g, hg, himproves⟩ := repeatPasses_improves passes limit hready
  exact ⟨count, g, hg, fun _ _ _ _ _ _ _ hshows => himproves.shows hshows⟩

/-- A loop that divides its parameter by what only looks like a variable: `%1` is always zero,
`%2` is dead, and the branch into the loop is decided once `%3` is known. -/
def dividingLoop : Function Reg where
  name := "dividing_loop"
  params := [0]
  registers := [.int, .int, .int, .bool, .int]
  blocks := [⟨[.move 1 (.imm (.int 0)), .unary .not 3 (.imm (.bool false)),
      .branch (.reg 3) 1 2], ∅⟩,
    ⟨[.binary .add 2 (.reg 0) (.imm (.int 1)), .call 4 (.direct "tick") [.reg 1],
      .binary .div 0 (.reg 0) (.reg 4), .spillStore 0 0, .branch (.reg 3) 1 2], .ofList [0, 1]⟩,
    ⟨[.ret (.reg 0)], .ofList [0, 1]⟩]

theorem repeatPasses_shows_dividingLoop :
    verify dividingLoop = .ok () ∧ (∀ r ∈ dividingLoop.liveInAt entry, r ∈ dividingLoop.params) ∧
    ∃ count g, repeatPasses [.prune, .propagate, .fold, .fold] 5 dividingLoop = .ok (count, g) ∧
      ∀ (calls : Calls) (m : Memory) (args : List Value) (w : World) (seen : List Sight)
        (e : Ending) (w' : World), dividingLoop.Shows calls m args w seen e w' →
        g.Shows calls m args w seen e w' := by
  have hverify : verify dividingLoop = .ok () := by decide +kernel
  have hentry : ∀ r ∈ dividingLoop.liveInAt entry, r ∈ dividingLoop.params := by
    have hall : ∀ r ∈ (dividingLoop.liveInAt entry).toList, r ∈ dividingLoop.params := by
      decide +kernel
    exact hall
  exact ⟨hverify, hentry, repeatPasses_shows hverify hentry _ _⟩

/-! ## Accepted functions -/

/-- **Improvements keep functions verifiable.** Any list of improvements of an accepted function
without cycles leads to one: it is accepted, its blocks, parameters and registers are the same, and
no edge is new. -/
theorem runPasses_verify (hverify : verify f = .ok ())
    (hacyclic : ∀ l, ¬ Relation.TransGen f.Leads l l) (changed : Bool) (passes : List Pass) :
    ∃ changed' g, runPasses changed passes f = .ok (changed', g) ∧ verify g = .ok () ∧
      (∀ l, ¬ Relation.TransGen g.Leads l l) ∧ g.blocks.length = f.blocks.length ∧
      g.params = f.params ∧ g.registers = f.registers ∧ ∀ k l, g.Leads k l → f.Leads k l := by
  obtain ⟨hf, hcurrent, -⟩ := Flow.verify_eq_ok.1 hverify
  obtain ⟨changed', g, hg, hfg⟩ := exists_runPasses (R := Function.Reframes) .refl .trans
    (fun hg _ => hg.wellFormed) (fun p _ => p.run_reframes) passes changed hf
  have hends := (hf.ends_of_acyclic hacyclic hf.nonempty).mono hfg.successors
  refine ⟨changed', g, hg, Flow.verify_eq_ok.2 ⟨hfg.wellFormed, hfg.current hcurrent,
    Flow.reachesReturn_of_ends hfg.wellFormed hends⟩, fun l hl => ?_, hfg.length, hfg.params,
    hfg.registers, hfg.successors⟩
  exact hacyclic l (Relation.TransGen.mono hfg.successors _ _ hl)

/-- A function whose only way around a division is decided, and with a dead load. -/
def decidedBranch : Function Reg where
  name := "decided_branch"
  params := [0]
  registers := [.int, .bool, .int]
  blocks := [⟨[.move 1 (.imm (.bool true)), .load 2 0 0, .branch (.reg 1) 2 1], ∅⟩,
    ⟨[.binary .div 0 (.imm (.int 1)) (.reg 0), .jump 2], .ofList [0]⟩,
    ⟨[.ret (.reg 0)], .ofList [0, 1]⟩]

theorem runPasses_verify_decidedBranch :
    verify decidedBranch = .ok () ∧ (∀ l, ¬ Relation.TransGen decidedBranch.Leads l l) ∧
    ∃ changed g, runPasses false Pass.all decidedBranch = .ok (changed, g) ∧ verify g = .ok () ∧
      g.blocks.length = 3 := by
  have hverify : verify decidedBranch = .ok () := by decide +kernel
  have hforward : ∀ k l, decidedBranch.Leads k l → k < l := fun k l hl =>
    have hall : ∀ k < 3, ∀ l ∈ decidedBranch.successors k, k < l := by decide
    hall k (Flow.lt_of_mem_successors hl) l hl
  have hacyclic : ∀ l, ¬ Relation.TransGen decidedBranch.Leads l l := by
    intro l hl
    have hlt := Relation.TransGen.mono hforward _ _ hl
    rw [Relation.transGen_eq_self] at hlt
    exact Nat.lt_irrefl l hlt
  obtain ⟨changed, g, hg, hok, -, hlen, -⟩ := runPasses_verify hverify hacyclic false Pass.all
  exact ⟨hverify, hacyclic, changed, g, hg, hok, hlen⟩

end Sluice
