import Sluice.Compile
import Sluice.Proofs.Lower.Meaning
import Sluice.Proofs.Lower.Ready
import Sluice.Proofs.Optimize.Passes
import Sluice.Proofs.Place.Allocate

/-!
# Compiling never goes wrong

A program is either told its problems or compiled: what the checks accept passes every
check that is made later, with any options (`compile_ok_or_diagnostics`). All that the
options choose are ways to implement the lowered function, and a call of that comes to
one end, so the options never change what a function does (`compile_yields_alike`).
-/

namespace Sluice

open Flow (Function Reg lower verify)
open List Machine

/-! ## Single functions -/

section

variable {f : Typed.Function} {g : Function Reg} {o : Options}

/-- **Improving succeeds**, wanted or not. -/
theorem exists_improve (wanted : Bool) (hg : g.Sound) :
    ∃ h, improve wanted g = .ok h ∧ h.Sound ∧ h.name = g.name ∧ h.Implements g := by
  cases wanted with
  | false => exact ⟨g, rfl, hg, rfl, .refl⟩
  | true =>
    obtain ⟨count, h, hrun, himproves⟩ := repeatPasses_improves Pass.all passLimit hg.ready
    have hh := hg.improves himproves
    refine ⟨h, ?_, hh, himproves.name, himproves.implements⟩
    simp only [improve, optimize, hrun, if_true]
    simp only [bind, Except.bind, hh.verify]
    rfl

/-- **A function is compiled if it is sound once it is lowered**, and implements that in its
places. -/
theorem exists_compileFunction (ho : 1 ≤ o.registers)
    (hlower : lower f (Decision.decisions f) = .ok g) (hg : g.Sound) :
    ∃ p h, compileFunction o f = .ok p ∧ p.function.name = g.name ∧ p.resolve = .ok h ∧
      h.Implements g := by
  obtain ⟨g', himprove, hg', hname, himplements⟩ := exists_improve o.optimize hg
  obtain ⟨p, h, hallocate, hname', hresolve, himplements'⟩ :=
    implements_resolve o.strategy ho hg'.verify hg'.params_lt hg'.slots hg'.enters_once
  refine ⟨p, h, ?_, hname'.trans hname, hresolve, himplements'.trans himplements⟩
  have hflow : flowOf o.optimize f = .ok g' := by
    simp only [flowOf, hlower, bind, Except.bind, hg.verify, himprove]
  simp only [compileFunction, hflow, Except.mapError, bind, Except.bind, hallocate]

end

/-! ## Programs -/

/-- Steps that all succeed succeed in turn. -/
theorem except_mapM_of_forall {f : α → Except ε β} :
    ∀ {xs}, (∀ x ∈ xs, ∃ y, f x = .ok y ∧ R x y) → ∃ ys, xs.mapM f = .ok ys ∧ Forall₂ R xs ys
  | [], _ => ⟨[], rfl, .nil⟩
  | x :: xs, h => by
    obtain ⟨⟨y, hy, hxy⟩, h⟩ := forall_mem_cons.1 h
    obtain ⟨ys, hys, hall⟩ := except_mapM_of_forall h
    refine ⟨y :: ys, ?_, .cons hxy hall⟩
    simp only [mapM_cons, hy, hys, bind, Except.bind]
    rfl

/-- A program has no problems if checking finds no errors in its types and in its matches. -/
theorem Infer.Checked.diagnostics_eq_nil {c : Infer.Checked} :
    c.diagnostics = [] ↔ c.errors = [] ∧
      ∀ f ∈ c.program.functions, Decision.functionErrors c.program.records f = [] := by
  simp [diagnostics]

variable {source : Source.Program} {o : Options}

theorem compile_of_diagnostics (h : (Infer.check source).diagnostics ≠ []) :
    compile o source = .error (.diagnostics (Infer.check source).diagnostics) := by
  unfold compile
  dsimp only
  split
  · rename_i hnil
    exact absurd hnil h
  · rfl

/-- **The functions of a program without problems are lowered**, to sound functions a call of which
comes to one end. -/
theorem exists_lower (h : (Infer.check source).diagnostics = []) {f : Typed.Function}
    (hf : f ∈ (Infer.check source).program.functions) :
    ∃ g, lower f (Decision.decisions f) = .ok g ∧ g.Sound ∧ g.name = f.name ∧
      g.params.length = f.params.length ∧
      ∀ (calls : Calls) (args : List Value) (w : World), args.length = f.params.length →
        ∃ e w', ∀ m, g.Yields calls m args w e w' := by
  obtain ⟨herrors, hmatches⟩ := Infer.Checked.diagnostics_eq_nil.1 h
  have hwt := Infer.wellTyped_of_check herrors f hf
  have htotal : Flow.Exhaustive (Decision.sites f.body) :=
    Flow.firstFailure?_eq_none (by rw [hmatches f hf]; exact fun _ _ => not_mem_nil)
  obtain ⟨g, K, hlower, hL⟩ := Flow.lower_eq_ok hwt htotal
  have hlen := hL.params.length_eq.symm
  obtain ⟨hsound, hname⟩ := Flow.sound_of_lower hwt htotal hlower hL
  exact ⟨g, hlower, hsound, hname, hlen, fun calls args w hargs =>
    hL.exists_yields hwt htotal calls (hargs.trans hlen.symm) w⟩

/-- **A program without problems is compiled**, function by function. -/
theorem exists_compile (h : (Infer.check source).diagnostics = []) (ho : 1 ≤ o.registers) :
    ∃ ps, compile o source = .ok ps ∧
      Forall₂ (fun f p => compileFunction o f = .ok p ∧ p.function.name = f.name)
        (Infer.check source).program.functions ps := by
  have hcompile : compile o source =
      (Infer.check source).program.functions.mapM (compileFunction o) := by
    unfold compile
    dsimp only
    rw [h]
  rw [hcompile]
  refine except_mapM_of_forall fun f hf => ?_
  obtain ⟨g, hlower, hg, hname, -⟩ := exists_lower h hf
  obtain ⟨p, -, hp, hname', -⟩ := exists_compileFunction ho hlower hg
  exact ⟨p, hp, hp, hname'.trans hname⟩

/-- **Compiling never fails for reasons of its own.** With any options that leave a register, a
program whose types or matches have errors is told all its problems, and any other program is
compiled: every definition becomes one typed function and every typed function one placed function
of its name, in the order of the source. -/
theorem compile_ok_or_diagnostics (o : Options) (ho : 1 ≤ o.registers) (source : Source.Program) :
    let c := Infer.check source
    ((c.errors ≠ [] ∨ ∃ f ∈ c.program.functions, Decision.functionErrors c.program.records f ≠ []) →
      c.diagnostics ≠ [] ∧ compile o source = .error (.diagnostics c.diagnostics)) ∧
    (c.errors = [] ∧ (∀ f ∈ c.program.functions, Decision.functionErrors c.program.records f = []) →
      Forall₂ (fun kd f => Source.Definition.TypedAs c.program.records kd.1 kd.2 f)
        source.definitions c.program.functions ∧
      ∃ ps, compile o source = .ok ps ∧
        Forall₂ (fun f p => compileFunction o f = .ok p ∧ p.function.name = f.name)
          c.program.functions ps) ∧
    ∀ e, compile o source = .error e → ∃ problems, e = .diagnostics problems := by
  intro c
  have hproblems : c.diagnostics ≠ [] → compile o source = .error (.diagnostics c.diagnostics) :=
    compile_of_diagnostics
  refine ⟨fun herrors => ?_, fun hnone => ?_, fun e he => ?_⟩
  · have hne : c.diagnostics ≠ [] := fun hnil => by
      obtain ⟨hnil, hmatches⟩ := Infer.Checked.diagnostics_eq_nil.1 hnil
      rcases herrors with hne | ⟨f, hf, hne⟩
      · exact hne hnil
      · exact hne (hmatches f hf)
    exact ⟨hne, hproblems hne⟩
  · obtain ⟨t, functions, hall⟩ := Infer.checkedAll_of_check hnone.1
    exact ⟨hall.typedAs, exists_compile (Infer.Checked.diagnostics_eq_nil.2 hnone) ho⟩
  · by_cases hnil : c.diagnostics = []
    · obtain ⟨ps, hps, -⟩ := exists_compile hnil ho
      rw [hps] at he
      cases he
    · rw [hproblems hnil] at he
      cases he
      exact ⟨_, rfl⟩

/-- With a single register, for which both functions of `Infer.pairSource` need spill code. -/
theorem compile_ok_or_diagnostics_pairSource :
    (Infer.check Infer.pairSource).errors = [] ∧
    ∃ ps, compile { registers := 1, strategy := .graphColouring } Infer.pairSource = .ok ps ∧
      ps.map (·.function.name) = ["Pair::pick", "main"] := by
  have herrors : (Infer.check Infer.pairSource).errors = [] := by decide +kernel
  have hmatches : ∀ f ∈ (Infer.check Infer.pairSource).program.functions,
      Decision.functionErrors (Infer.check Infer.pairSource).program.records f = [] := by
    decide +kernel
  have hnames : (Infer.check Infer.pairSource).program.functions.map (·.name) =
      ["Pair::pick", "main"] := by decide +kernel
  obtain ⟨-, hok, -⟩ := compile_ok_or_diagnostics
    { registers := 1, strategy := .graphColouring } (Nat.le_refl 1) Infer.pairSource
  obtain ⟨-, ps, hps, hall⟩ := hok ⟨herrors, hmatches⟩
  refine ⟨herrors, ps, hps, ?_⟩
  rw [← hnames, ← forall₂_eq_eq_eq, forall₂_map_left_iff, forall₂_map_right_iff]
  exact hall.flip.imp fun _ _ h => h.2

/-! ## Options -/

/-- The compiled form of a function, put into its places. -/
theorem exists_implements
    (hall : Forall₂ (fun f p => compileFunction o f = .ok p ∧ p.function.name = f.name)
      functions ps) (ho : 1 ≤ o.registers) (hlower : lower f (Decision.decisions f) = .ok g)
    (hg : g.Sound) {i : Nat} (hf : functions[i]? = some f) :
    ∃ p h, ps[i]? = some p ∧ p.resolve = .ok h ∧ h.Implements g := by
  obtain ⟨hi, rfl⟩ := List.getElem?_eq_some_iff.1 hf
  have hi' : i < ps.length := hall.length_eq ▸ hi
  obtain ⟨p, h, hp, -, hresolve, himplements⟩ := exists_compileFunction ho hlower hg
  have heq := (hall.get hi hi').1
  rw [get_eq_getElem, hp] at heq
  cases heq
  exact ⟨_, h, getElem?_eq_getElem hi', hresolve, himplements⟩

/-- What implements a function a call of which comes to one end comes to that end too. -/
theorem Flow.Function.Implements.yields_iff [Cell σ] {g : Function Reg} {h : Function σ}
    (himplements : h.Implements g) (hargs : args.length = g.params.length)
    (hyields : ∀ m, g.Yields calls m args w e w') (m : Memory) (e' : Ending) (w'' : World) :
    h.Yields calls m args w e' w'' ↔ e' = e ∧ w'' = w' := by
  obtain ⟨m', hm'⟩ := himplements.2 calls args w m hargs
  have hends := hm' e w' (hyields m')
  constructor
  · exact fun hother => hother.unique hends
  · rintro ⟨rfl, rfl⟩
    exact hends

/-- **Options never change what a function does.** Take any program whose types and matches are
without errors, and any two choices of options that leave a register. Under both the program is
compiled, and every function of it can be put into its places. A call of the results, with the
arguments in the places of the parameters and whatever the rest of the memory holds, comes to one
and the same end: the same calls, allocations and stores in the same order, and the same value or
trap. -/
theorem compile_yields_alike (source : Source.Program) (herrors : (Infer.check source).errors = [])
    (hmatches : ∀ f ∈ (Infer.check source).program.functions,
      Decision.functionErrors (Infer.check source).program.records f = [])
    (o o' : Options) (ho : 1 ≤ o.registers) (ho' : 1 ≤ o'.registers) :
    ∃ ps ps', compile o source = .ok ps ∧ compile o' source = .ok ps' ∧
      ∀ (i : Nat) f, (Infer.check source).program.functions[i]? = some f →
        ∃ p p' g g', ps[i]? = some p ∧ ps'[i]? = some p' ∧
          p.resolve = .ok g ∧ p'.resolve = .ok g' ∧
          g.params.length = f.params.length ∧ g'.params.length = f.params.length ∧
          ∀ (calls : Calls) (args : List Value) (w : World), args.length = f.params.length →
            ∃ e w', ∀ m e' w'',
              (g.Yields calls m args w e' w'' ↔ e' = e ∧ w'' = w') ∧
              (g'.Yields calls m args w e' w'' ↔ e' = e ∧ w'' = w') := by
  have hnone := Infer.Checked.diagnostics_eq_nil.2 ⟨herrors, hmatches⟩
  obtain ⟨ps, hps, hall⟩ := exists_compile hnone ho
  obtain ⟨ps', hps', hall'⟩ := exists_compile hnone ho'
  refine ⟨ps, ps', hps, hps', fun i f hf => ?_⟩
  -- both results are compared with what lowering gives, which does not depend on options
  obtain ⟨g, hlower, hg, -, hlen, hends⟩ := exists_lower hnone (mem_of_getElem? hf)
  obtain ⟨p, h, hp, hresolve, himplements⟩ := exists_implements hall ho hlower hg hf
  obtain ⟨p', h', hp', hresolve', himplements'⟩ := exists_implements hall' ho' hlower hg hf
  refine ⟨p, p', h, h', hp, hp', hresolve, hresolve', himplements.1.trans hlen,
    himplements'.1.trans hlen, fun calls args w hargs => ?_⟩
  obtain ⟨e, w', hyields⟩ := hends calls args w hargs
  have hargs := hargs.trans hlen.symm
  exact ⟨e, w', fun m e' w'' => ⟨himplements.yields_iff hargs hyields m e' w'',
    himplements'.yields_iff hargs hyields m e' w''⟩⟩

open Flow (pickWorld) in
/-- A pair is picked from alike with one register and without improvements as it is with eight and
with improvements. -/
theorem compile_yields_alike_pick :
    ∃ ps ps' p p' g g',
      compile { registers := 1, strategy := .graphColouring, optimize := false } Infer.pairSource =
        .ok ps ∧ compile {} Infer.pairSource = .ok ps' ∧ ps[0]? = some p ∧ ps'[0]? = some p' ∧
      p.resolve = .ok g ∧ p'.resolve = .ok g' ∧
      ∀ m m' e w, g.Yields (fun _ _ _ => none) m [.object 0, .object 1] pickWorld e w ↔
        g'.Yields (fun _ _ _ => none) m' [.object 0, .object 1] pickWorld e w := by
  have hparams : (Infer.check Infer.pairSource).program.functions[0]?.map (·.params.length) =
      some 2 := by decide +kernel
  obtain ⟨f, hf, hlen⟩ := Option.map_eq_some_iff.1 hparams
  obtain ⟨ps, ps', hps, hps', hall⟩ := compile_yields_alike Infer.pairSource (by decide +kernel)
    (by decide +kernel) { registers := 1, strategy := .graphColouring, optimize := false } {}
    (Nat.le_refl 1) (by decide)
  obtain ⟨p, p', g, g', hp, hp', hg, hg', -, -, hends⟩ := hall 0 f hf
  obtain ⟨e, w, hyields⟩ := hends (fun _ _ _ => none) [.object 0, .object 1] pickWorld hlen.symm
  refine ⟨ps, ps', p, p', g, g', hps, hps', hp, hp', hg, hg', fun m m' e' w' => ?_⟩
  rw [(hyields m e' w').1, (hyields m' e' w').2]

end Sluice
