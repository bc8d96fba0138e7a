import Sluice.Proofs.Lower.Meaning
import Sluice.Proofs.Lower.Ready

/-!
# Lowered functions have one way in and one way out

Control comes to every block of a lowered function, since a builder leaves no block
without an edge to it (`Builder.Tied`), and no way on from a block comes back to it,
since every way from the entry ends. A body returns once, in the block it ends in. All
other blocks go on, so every way that ends does so there (`lower_graph`).
-/

namespace Sluice

open List

namespace Flow

variable {f : Typed.Function} {g : Function Reg} {b : Builder} {k l : Label}

/-! ## Ways -/

/-- A way that goes on from where ways end does not come back. -/
theorem Function.Ends.not_transGen (h : g.Ends l) : ¬ Relation.TransGen g.Leads l l := by
  induction h with
  | intro l _ ih =>
    intro hcycle
    obtain ⟨k, hk, hback⟩ := Relation.TransGen.head'_iff.1 hcycle
    exact ih k hk (Relation.TransGen.tail' hback hk)

/-- No way goes on forever. -/
theorem Function.Ends.exists_not_leads (h : g.Ends l) :
    ∀ path : Nat → Label, path 0 = l → ∃ n, ¬ g.Leads (path n) (path (n + 1)) := by
  induction h with
  | intro l _ ih =>
    rintro path rfl
    by_cases hstep : g.Leads (path 0) (path 1)
    · obtain ⟨n, hn⟩ := ih (path 1) hstep (fun n => path (n + 1)) rfl
      exact ⟨n + 1, hn⟩
    · exact ⟨0, hstep⟩

theorem Function.Ends.of_leads (h : g.Ends k) (hl : Relation.ReflTransGen g.Leads k l) :
    g.Ends l := by
  induction hl with
  | refl => exact h
  | tail _ hstep ih => exact ih.inv hstep

/-! ## From builders to functions -/

/-- An edge of a builder is one of the function. -/
theorem Builder.Leads.function (hg : g.WellFormed)
    (hblocks : g.blocks.map (·.instrs) = b.blocks) (h : b.Leads k l) : g.Leads k l := by
  obtain ⟨is, his, i, hi, hl⟩ := h
  rw [← hblocks, getElem?_map] at his
  obtain ⟨block, hblock, rfl⟩ := Option.map_eq_some_iff.1 his
  obtain ⟨before, after, heq⟩ := append_of_mem hi
  have hterm : i.isTerminator = true := by
    cases i with
    | jump target => rfl
    | branch condition positive negative => rfl
    | ret value => rfl
    | _ => exact nomatch hl
  have hended := hg.ended block (mem_of_getElem? hblock)
  cases (heq ▸ hended).eq_nil_of_append hterm
  have hsucc := block.successors_eq heq hterm
  simpa [Function.Leads, Function.successors, hblock, hsucc] using hl

/-- An instruction that is added is counted. -/
theorem countP_adds (P : Instr Reg → Bool) (hlt : b.current < b.blocks.length) (i : Instr Reg) :
    (b.adds [i]).blocks.flatten.countP P = b.blocks.flatten.countP P + [i].countP P := by
  have hsplit := take_append_drop b.current b.blocks
  rw [drop_eq_getElem_cons hlt] at hsplit
  rw [Builder.adds, modify_eq_take_cons_drop hlt]
  conv_rhs => rw [← hsplit]
  simp only [flatten_append, flatten_cons, countP_append]
  omega

/-- A builder that returned is at the only block that returns. -/
theorem eq_current_of_returns (hb : b.Tied W R)
    {block : Block Reg} (hl : (b.adds [.ret o]).blocks[l]? = some block.instrs)
    (hret : block.returns = true) : l = b.current := by
  have hlt : l < b.blocks.length := by simpa using (List.getElem?_eq_some_iff.1 hl).1
  have hold := getElem?_eq_getElem hlt
  rw [Builder.getElem?_blocks_adds hold] at hl
  split at hl
  · assumption
  · obtain ⟨i, hlast, hi⟩ := (Option.any_eq_true _ _).1 hret
    have hmem := Option.some.inj hl ▸ mem_of_getLast? hlast
    rw [hb.goes_on _ (getElem_mem hlt) i hmem] at hi
    cases hi

/-- **What is lowered has one return**, and control comes to all of its blocks. -/
theorem tied_of_lower (hf : f.WellTyped p) (hd : Decided decisions (Decision.sites f.body))
    (h : lower f decisions = .ok g) :
    (∀ l < g.blocks.length, Relation.ReflTransGen g.Leads entry l) ∧
    g.instructions.countP Instr.isRet = 1 ∧
    ∃ exit, ∀ (l : Label) block, g.blocks[l]? = some block → block.returns = true → l = exit := by
  obtain ⟨b, hrun, hblocks, -⟩ := exists_buildBody_of_lower h
  obtain ⟨b0, o, hb0, rfl, -⟩ := amid_of_buildBody hf hd hrun
  have hg := (plain_of_lower hf hd h).1.wellFormed
  refine ⟨fun l hl => ?_, ?_, b0.current, fun l block hblock hret => ?_⟩
  · have hlt : l < b0.blocks.length := by
      rwa [← length_map (·.instrs), hblocks, Builder.length_blocks_adds] at hl
    have hreach := ((hb0.tied.covers l hlt).resolve_left not_mem_nil).adds [.ret o]
    exact Relation.ReflTransGen.mono (fun _ _ hkl => hkl.function hg hblocks) _ _ hreach
  · have hnone : b0.blocks.flatten.countP Instr.isRet = 0 := by
      refine countP_eq_zero.2 fun i hi => ?_
      obtain ⟨is, his, hi⟩ := mem_flatten.1 hi
      simp [hb0.tied.goes_on is his i hi]
    rw [Function.instructions, flatMap_def, hblocks, countP_adds _ hb0.current_lt, hnone]
    rfl
  · have hl : (b0.adds [.ret o]).blocks[l]? = some block.instrs := by
      rw [← hblocks, getElem?_map, hblock]
      rfl
    exact eq_current_of_returns hb0.tied hl hret

end Flow

open Flow

/-- **Lowered functions are acyclic graphs with one way in and one way out.** Every function of a
program that passes type inference is lowered if its matches handle every value, to a function
that passes the check. Control comes to all blocks from the entry, no way comes back to a block,
and none leads to the entry. There is one return: a way on from the entry does not go on forever,
and where it cannot go on, it is at the block that returns. -/
theorem lower_graph {source : Source.Program} {prog : Typed.Program}
    (h : Infer.infer source = .ok prog) {f : Typed.Function} (hf : f ∈ prog.functions)
    (hexhaustive : ∀ witness span,
      .nonExhaustive witness span ∉ Decision.functionErrors prog.records f) :
    ∃ g, lower f (Decision.decisions f) = .ok g ∧ verify g = .ok () ∧
      (∀ l < g.blocks.length, Relation.ReflTransGen g.Leads entry l) ∧
      (∀ l, ¬ Relation.TransGen g.Leads l l) ∧ (∀ l, ¬ g.Leads l entry) ∧
      g.instructions.countP Instr.isRet = 1 ∧
      (∀ path : Nat → Label, path 0 = entry → ∃ n, ¬ g.Leads (path n) (path (n + 1))) ∧
      ∃ exit block, g.blocks[exit]? = some block ∧ block.returns = true ∧
        ∀ l, Relation.ReflTransGen g.Leads entry l → (∀ l', ¬ g.Leads l l') → l = exit := by
  obtain ⟨hwt, htotal, g, K, hlower, hL⟩ := exists_lower_of_infer h hf hexhaustive
  obtain ⟨hg, -⟩ := sound_of_lower hwt htotal hlower hL
  obtain ⟨hreach, hcount, exit, hexit⟩ := tied_of_lower hwt (decided_decisions hwt htotal) hlower
  refine ⟨g, hlower, hg.verify, hreach, fun l hcycle => ?_, hg.enters_once, hcount,
    hg.ends.exists_not_leads, exit, ?_⟩
  · obtain ⟨k, hk, -⟩ := Relation.TransGen.head'_iff.1 hcycle
    exact (hg.ends.of_leads (hreach l (lt_of_mem_successors hk))).not_transGen hcycle
  · obtain ⟨last, -, hlast⟩ := any_eq_true.1 (reachesReturn_of_ends hg.wellFormed hg.ends)
    obtain ⟨block, hblock, hret⟩ := (Option.any_eq_true _ _).1 hlast
    cases hexit last block hblock hret
    refine ⟨block, hblock, hret, fun l hl hstop => ?_⟩
    have hlt : l < g.blocks.length := hg.wellFormed.lt_of_leads hg.wellFormed.nonempty hl
    have hend := hg.wellFormed.ended _ (getElem_mem hlt)
    rcases hend.returns_or_successors with hret | ⟨k, hk⟩
    · exact hexit l _ (getElem?_eq_getElem hlt) hret
    · refine absurd ?_ (hstop k)
      simpa [Function.Leads, Function.successors, hlt] using hk

/-- A function whose match has an arm too many, and branches inside an arm. -/
def surplusSource : Source.Program :=
  let at0 : Span := ⟨0, 0⟩
  let b : Source.Expr := .ident at0 ⟨"b", at0⟩
  let int (n : Int64) : Source.Expr := .literal at0 (.int n)
  [.function at0 ⟨at0, ⟨"surplus", at0⟩, [⟨at0, ⟨"b", at0⟩, .named at0 ⟨"bool", at0⟩⟩], none,
    .cases at0 b
      [⟨at0, .literal at0 (.bool true), none,
        .ifElse at0 (.binary at0 .and b (.unary at0 .not b)) (int 1) (int 2)⟩,
       ⟨at0, .literal at0 (.bool false), some b, int 3⟩,
       ⟨at0, .binding at0 ⟨"c", at0⟩, none, int 4⟩,
       ⟨at0, .wildcard at0, none, int 5⟩]⟩]

/-- The last arm is never selected, which is an error but no missing case. -/
theorem lower_graph_surplusSource :
    Infer.infer surplusSource = .ok (Infer.check surplusSource).program ∧
    (Infer.check surplusSource).program.functions ≠ [] ∧
    ∀ f ∈ (Infer.check surplusSource).program.functions,
      (Decision.functionErrors (Infer.check surplusSource).program.records f).length = 1 ∧
      ∃ g, lower f (Decision.decisions f) = .ok g ∧ verify g = .ok () ∧
        (∀ l < g.blocks.length, Relation.ReflTransGen g.Leads entry l) ∧
        (∀ l, ¬ Relation.TransGen g.Leads l l) ∧ g.instructions.countP Instr.isRet = 1 := by
  have hok : Infer.infer surplusSource = .ok (Infer.check surplusSource).program :=
    Infer.infer_eq_ok.2 ⟨by decide +kernel, rfl⟩
  have herrors : ∀ f ∈ (Infer.check surplusSource).program.functions,
      (Decision.functionErrors (Infer.check surplusSource).program.records f).length = 1 := by
    decide +kernel
  have hhandled : ∀ f ∈ (Infer.check surplusSource).program.functions,
      (Decision.functionErrors (Infer.check surplusSource).program.records f).all (fun e =>
        PatternError.casesOn (motive := fun _ => Bool) e (fun _ _ => true) fun _ _ => false) := by
    decide +kernel
  refine ⟨hok, by decide +kernel, fun f hf => ⟨herrors f hf, ?_⟩⟩
  obtain ⟨g, hlower, hverify, hreach, hacyclic, -, hcount, -⟩ :=
    lower_graph hok hf fun witness span hmem => by
      cases all_eq_true.1 (hhandled f hf) _ hmem
  exact ⟨g, hlower, hverify, hreach, hacyclic, hcount⟩

end Sluice
