import Sluice.Proofs.Infer.Scopes
import Sluice.Proofs.Infer.Turns

/-!
# What becomes of each definition

Each definition of a program has one fate: its body is not checked, is
rejected, or passes and has its types read in the end. What `check` returns is
made of the fates of the definitions (`check_eq`), so that statements about
one definition among the others can be made about its fate.

A body that is rejected leaves the table as it was, but for the error type in
the place of its result. So it does not matter how a body fails: everything
else is the same (`check_of_rejected`).
-/

namespace Sluice.Infer

open List
open Source (Program)
open Unify (Table)

variable {g : Globals} {t : Table} {source source' : Program} {e : TypeError}

/-! ## Verdicts on bodies -/

/-- What was found when a body was checked. -/
inductive Verdict where
  | unchecked
  | rejected (e : TypeError)
  | passed (f : Typed.Function)

/-- The error of a body. -/
def Verdict.error? : Verdict → Option TypeError
  | rejected e => some e
  | _ => none

/-- The function of a body. -/
def Verdict.function? : Verdict → Option Typed.Function
  | passed f => some f
  | _ => none

/-- Gives one definition its turn. -/
def verdict (g : Globals) (t : Table) : Option Pending → Verdict × Table
  | none => (.unchecked, t)
  | some p =>
    match checkBody g p { table := t.snapshot.2 } with
    | .ok f s => (.passed f, s.table.commit)
    | .error e s => (.rejected e, (s.table.rollback t.snapshot.1).poison p.signature.ret)

/-- Gives definitions their turns, one after the other. -/
def verdicts (g : Globals) (t : Table) : List (Option Pending) → List Verdict × Table
  | [] => ([], t)
  | turn :: rest =>
    let (v, t) := verdict g t turn
    let (vs, t) := verdicts g t rest
    (v :: vs, t)

theorem verdicts_append (g : Globals) : ∀ (before after : List (Option Pending)) (t : Table),
    verdicts g t (before ++ after) =
      ((verdicts g t before).1 ++ (verdicts g (verdicts g t before).2 after).1,
        (verdicts g (verdicts g t before).2 after).2)
  | [], _, _ => rfl
  | turn :: before, after, t => by
    rw [cons_append, verdicts]
    simp only
    rw [verdicts_append g before after]
    rfl

theorem length_verdicts (g : Globals) : ∀ (turns : List (Option Pending)) (t : Table),
    (verdicts g t turns).1.length = turns.length
  | [], _ => rfl
  | turn :: rest, t => congrArg (· + 1) (length_verdicts g rest (verdict g t turn).2)

theorem step_eq_verdict (g : Globals) (progress : Progress) (p : Pending) :
    progress.step g p = {
      table := (verdict g progress.table (some p)).2
      functions := progress.functions ++
        (verdict g progress.table (some p)).1.function?.toList
      errors := progress.errors ++ (verdict g progress.table (some p)).1.error?.toList } := by
  rw [Progress.step]
  cases hrun : checkBody g p { table := progress.table.snapshot.2 } with
  | ok f s => simp [verdict, hrun, Verdict.function?, Verdict.error?]
  | error e s => simp [verdict, hrun, Verdict.function?, Verdict.error?]

/-- Checking the queue is giving everyone their turn. -/
theorem foldl_step_eq_verdicts (g : Globals) : ∀ (turns : List (Option Pending))
    (progress : Progress), turns.reduceOption.foldl (Progress.step g) progress = {
      table := (verdicts g progress.table turns).2
      functions := progress.functions ++
        (verdicts g progress.table turns).1.filterMap Verdict.function?
      errors := progress.errors ++ (verdicts g progress.table turns).1.filterMap Verdict.error? }
  | [], progress => by
    simp only [verdicts, filterMap_nil, append_nil]
    rfl
  | none :: rest, progress => foldl_step_eq_verdicts g rest progress
  | some p :: rest, progress => by
    rw [reduceOption_cons_of_some, foldl_cons, step_eq_verdict, foldl_step_eq_verdicts g rest]
    simp only [verdicts, filterMap_cons, List.append_assoc]
    cases (verdict g progress.table (some p)).1 <;> rfl

/-- A body that is rejected leaves the table as it was, with the error type for its result. -/
theorem verdict_of_rejected (h : (verdict g t (some p)).1 = .rejected e) :
    verdict g t (some p) = (.rejected e, t.poison p.signature.ret) := by
  cases hrun : checkBody g p { table := t.snapshot.2 } with
  | ok f s =>
    simp only [verdict, hrun] at h
    cases h
  | error e' s =>
    simp only [verdict, hrun, checkBody_rollback hrun] at h ⊢
    rw [h]

/-! ## Fates -/

/-- The function whose types are all known. -/
def Outcome.function? : Outcome → Option Typed.Function
  | known f => some f
  | _ => none

/-- The error about a type that is not known. -/
def Outcome.error? : Outcome → Option TypeError
  | unknown e => some e
  | _ => none

/-- What becomes of a definition. -/
inductive Fate where
  | unchecked
  | rejected (e : TypeError)
  | finished (outcome : Outcome)

namespace Fate

/-- The error its body was rejected with. -/
def rejection? : Fate → Option TypeError
  | rejected e => some e
  | _ => none

/-- The error about a type that was not known in the end. -/
def doubt? : Fate → Option TypeError
  | finished outcome => outcome.error?
  | _ => none

/-- The function it has become. -/
def function? : Fate → Option Typed.Function
  | finished outcome => outcome.function?
  | _ => none

theorem rejection?_eq_some {fate : Fate} : fate.rejection? = some e ↔ fate = .rejected e := by
  cases fate <;> simp [rejection?]

end Fate

/-- The fate that follows from a verdict, given the table in the end. -/
def Verdict.fate (t : Table) : Verdict → Fate
  | unchecked => .unchecked
  | rejected e => .rejected e
  | passed f => .finished (finish t f)

/-- The verdicts on the definitions of a program, and the table in the end. -/
def Program.verdicts (source : Program) : List Verdict × Table :=
  Infer.verdicts (declare source).globals (declare source).table (turns source)

/-- **The fates of the definitions of a program,** in order. -/
def fates (source : Program) : List Fate :=
  (Program.verdicts source).1.map (Verdict.fate (Program.verdicts source).2)

theorem length_fates (source : Program) : (fates source).length = source.definitions.length := by
  rw [fates, length_map, Program.verdicts, length_verdicts]
  exact (turnsOf_definitions source).length_eq.symm

/-- **The result of a check is made of the fates of the definitions.** -/
theorem check_eq (source : Program) : check source = {
    program := {
      records := (declare source).globals.records.mapTy (Program.verdicts source).2.resolve
      functions := (fates source).filterMap Fate.function? }
    errors := (declare source).errors ++ (fates source).filterMap Fate.rejection? ++
      (fates source).filterMap Fate.doubt? } := by
  have hrun := foldl_step_eq_verdicts (declare source).globals (turns source)
    { table := (declare source).table }
  rw [check]
  simp only [pending_declare, hrun, nil_append, fates, Program.verdicts]
  generalize verdicts (declare source).globals (declare source).table (turns source) = result
  obtain ⟨vs, t⟩ := result
  have hrejections : (vs.map (Verdict.fate t)).filterMap Fate.rejection? =
      vs.filterMap Verdict.error? := by
    rw [filterMap_map]
    exact filterMap_congr fun v _ => by cases v <;> rfl
  have houtcomes : ∀ {α : Type} (f : Outcome → Option α) (f' : Fate → Option α),
      (∀ v, f' (Verdict.fate t v) = (v.function?.map (finish t)).bind f) →
      ((vs.filterMap Verdict.function?).map (finish t)).filterMap f =
        (vs.map (Verdict.fate t)).filterMap f' := by
    intro α f f' hf
    rw [map_filterMap, filterMap_filterMap, filterMap_map]
    exact filterMap_congr fun v _ => (hf v).symm
  have hfunctions := houtcomes Outcome.function? Fate.function? fun v => by cases v <;> rfl
  have hdoubts := houtcomes Outcome.error? Fate.doubt? fun v => by cases v <;> rfl
  rw [hrejections, ← hfunctions, ← hdoubts]
  rfl

/-! ## Bodies that are rejected -/

/-- Lists that are equal but for one place. -/
theorem exists_eq_append_of_getElem? {α} : ∀ {n xs ys} {x y : α},
    xs[n]? = some x → ys[n]? = some y → (∀ m, m ≠ n → xs[m]? = ys[m]?) →
      ∃ before after, before.length = n ∧ xs = before ++ x :: after ∧ ys = before ++ y :: after
  | 0, x' :: xs, y' :: ys, x, y, hx, hy, h => by
    cases hx
    cases hy
    have htail : xs = ys := ext_getElem? fun m => h (m + 1) (Nat.succ_ne_zero m)
    exact ⟨[], ys, rfl, by rw [htail]; rfl, rfl⟩
  | n + 1, x' :: xs, y' :: ys, x, y, hx, hy, h => by
    have hhead : x' = y' := Option.some_inj.1 (h 0 (Nat.succ_ne_zero n).symm)
    have htail : ∀ m, m ≠ n → xs[m]? = ys[m]? := fun m hm =>
      h (m + 1) fun heq => hm (Nat.succ_inj.1 heq)
    rw [getElem?_cons_succ] at hx hy
    obtain ⟨before, after, hlen, hxs, hys⟩ := exists_eq_append_of_getElem? hx hy htail
    exact ⟨x' :: before, after, congrArg (· + 1) hlen, by rw [hxs]; rfl, by rw [hys, hhead]; rfl⟩

/-- The verdict on a definition is the one given at its turn. -/
theorem verdicts_getElem? {before after turn} :
    (verdicts g t (before ++ turn :: after)).1[before.length]? =
      some (verdict g (verdicts g t before).2 turn).1 := by
  rw [verdicts_append, ← length_verdicts g before t]
  simp only
  rw [getElem?_append_right le_rfl, Nat.sub_self]
  rfl

/-- A definition whose body is rejected has had its turn, with a body to check. -/
theorem exists_of_fate_rejected {before after turn}
    (hturns : turns source = before ++ turn :: after)
    (h : (fates source)[before.length]? = some (.rejected e)) :
    ∃ p, turn = some p ∧ (verdict (declare source).globals
      (verdicts (declare source).globals (declare source).table before).2 (some p)).1 =
        .rejected e := by
  rw [fates, Program.verdicts, hturns, getElem?_map, verdicts_getElem?, Option.map_some,
    Option.some_inj] at h
  cases turn with
  | none => cases h
  | some p =>
    refine ⟨p, rfl, ?_⟩
    generalize (verdict _ _ (some p)).1 = v at h ⊢
    cases v with
    | rejected e' => exact congrArg Verdict.rejected (Fate.rejected.inj h)
    | unchecked | passed => cases h

/-- Around a rejected body the verdicts are those on the bodies before it, and those on the bodies
after it in the table as it was, but for the error type. -/
theorem verdicts_of_rejected (h : (verdict g (verdicts g t before).2 (some p)).1 = .rejected e)
    (after : List (Option Pending)) :
    verdicts g t (before ++ some p :: after) =
      ((verdicts g t before).1 ++ .rejected e ::
          (verdicts g ((verdicts g t before).2.poison p.signature.ret) after).1,
        (verdicts g ((verdicts g t before).2.poison p.signature.ret) after).2) := by
  rw [verdicts_append, verdicts, verdict_of_rejected h]

/-- What a check returns, seen from a rejected body. -/
theorem check_eq_of_verdicts
    (h : Program.verdicts source = (vs ++ .rejected e :: ws, t)) : check source = {
      program := {
        records := (declare source).globals.records.mapTy t.resolve
        functions := ((vs ++ ws).map (Verdict.fate t)).filterMap Fate.function? }
      errors :=
        ((declare source).errors ++ (vs.map (Verdict.fate t)).filterMap Fate.rejection?) ++
          e :: ((ws.map (Verdict.fate t)).filterMap Fate.rejection? ++
            ((vs ++ ws).map (Verdict.fate t)).filterMap Fate.doubt?) } := by
  have hfate : Verdict.fate t (.rejected e) = .rejected e := rfl
  rw [check_eq, fates, h]
  simp only [map_append, map_cons, filterMap_append, filterMap_cons,
    hfate, Fate.function?, Fate.rejection?, Fate.doubt?, List.append_assoc, cons_append]

/-- **Failing bodies do not interfere.** Where the body of a definition is rejected in two programs
that differ in that body only, all else is the same: the records, the functions, and the errors but
for the one of that body. -/
theorem check_of_rejected {n : Nat} {e e' : TypeError} (h : source.DifferAt n source')
    (he : (fates source)[n]? = some (.rejected e))
    (he' : (fates source')[n]? = some (.rejected e')) :
    (check source).program = (check source').program ∧ ∃ before after,
      (check source).errors = before ++ e :: after ∧
      (check source').errors = before ++ e' :: after := by
  obtain ⟨htasks, hbeside⟩ := declare_beside h.heads
  have hlen : n < source.definitions.length :=
    length_fates source ▸ (List.getElem?_eq_some_iff.1 he).1
  have hlen' : n < source'.definitions.length :=
    length_fates source' ▸ (List.getElem?_eq_some_iff.1 he').1
  rw [(turnsOf_definitions source).length_eq] at hlen
  rw [(turnsOf_definitions source').length_eq] at hlen'
  obtain ⟨before, after, rfl, hturns, hturns'⟩ := exists_eq_append_of_getElem?
    (getElem?_eq_getElem hlen) (getElem?_eq_getElem hlen')
    fun m hm => turns_getElem?_of_differAt h hm
  obtain ⟨p, hp, hv⟩ := exists_of_fate_rejected hturns he
  obtain ⟨p', hp', hv'⟩ := exists_of_fate_rejected hturns' he'
  rw [hp] at hturns
  rw [hp'] at hturns'
  -- the two bodies are queued with the same signature
  have hsignature : p'.signature = p.signature := by
    have htask := forall₂_getElem? htasks before.length
    rw [hturns, hturns', getElem?_append_right le_rfl, getElem?_append_right le_rfl,
      Nat.sub_self] at htask
    obtain ⟨⟨-, heq⟩⟩ := htask
    rw [heq]
  have hverdicts := verdicts_of_rejected hv after
  have hverdicts' := verdicts_of_rejected hv' after
  rw [← hturns, ← Program.verdicts] at hverdicts
  rw [← hturns', ← Program.verdicts, hbeside.globals_eq, hbeside.table_eq, hsignature] at hverdicts'
  rw [check_eq_of_verdicts hverdicts, check_eq_of_verdicts hverdicts', hbeside.globals_eq,
    hbeside.errors_eq]
  exact ⟨rfl, _, _, rfl, rfl⟩

/-- A program with a given first body. Its third definition leaves its result type to inference, and
the fourth leaves a type open. -/
def firstBodySource (body : Source.Expr) : Program :=
  let at0 : Span := ⟨0, 0⟩
  let id (name : String) : Source.Ident := ⟨name, at0⟩
  [.function at0 ⟨at0, id "first", [], none, body⟩,
   .function at0 ⟨at0, id "second", [], some (.named at0 (id "int")),
     .binary at0 .add (.call at0 (.ident at0 (id "helper")) []) (.literal at0 (.int 1))⟩,
   .function at0 ⟨at0, id "helper", [], none, .literal at0 (.int 1)⟩,
   .function at0 ⟨at0, id "empty", [], none, .list at0 []⟩]

/-- A body that makes a string of what `helper` returns before it fails. -/
def leakingBody : Source.Expr :=
  let at0 : Span := ⟨0, 0⟩
  let id (name : String) : Source.Ident := ⟨name, at0⟩
  .block at0 [.letIn at0 (id "x") (some (.named at0 (id "str")))
      (.call at0 (.ident at0 (id "helper")) []) (.ident at0 (id "x")),
    .binary at0 .add (.literal at0 (.bool true)) (.literal at0 (.int 1))]

/-- A body that fails at once. -/
def unknownBody : Source.Expr :=
  .ident ⟨0, 0⟩ ⟨"nowhere", ⟨0, 0⟩⟩

theorem check_of_rejected_firstBodySource :
    let clash : TypeError := ⟨⟨0, 0⟩, .binaryOperand, .clash (.mismatch (.prim .int) (.prim .bool))⟩
    let unknown : TypeError := ⟨⟨0, 0⟩, .expression, .unknownName "nowhere"⟩
    (fates (firstBodySource leakingBody))[0]? = some (.rejected clash) ∧
    (fates (firstBodySource unknownBody))[0]? = some (.rejected unknown) ∧
    (check (firstBodySource leakingBody)).program.functions.length = 2 ∧
    (check (firstBodySource leakingBody)).errors.length = 2 ∧
    (check (firstBodySource leakingBody)).program = (check (firstBodySource unknownBody)).program ∧
    ∃ before after, (check (firstBodySource leakingBody)).errors = before ++ clash :: after ∧
      (check (firstBodySource unknownBody)).errors = before ++ unknown :: after := by
  intro clash unknown
  have hdiffer : (firstBodySource leakingBody).DifferAt 0 (firstBodySource unknownBody) := by
    refine ⟨.cons (.function rfl) (.cons (.function rfl) (.cons (.function rfl)
      (.cons (.function rfl) .nil))), fun m hm => ?_⟩
    cases m with
    | zero => exact absurd rfl hm
    | succ m => rfl
  have hleaking : ((fates (firstBodySource leakingBody))[0]?.bind Fate.rejection?) =
      some clash := by decide +kernel
  have hunknown : ((fates (firstBodySource unknownBody))[0]?.bind Fate.rejection?) =
      some unknown := by decide +kernel
  obtain ⟨fate, hfate, hrejected⟩ := Option.bind_eq_some_iff.1 hleaking
  obtain ⟨fate', hfate', hrejected'⟩ := Option.bind_eq_some_iff.1 hunknown
  rw [Fate.rejection?_eq_some.1 hrejected] at hfate
  rw [Fate.rejection?_eq_some.1 hrejected'] at hfate'
  exact ⟨hfate, hfate', by decide +kernel, by decide +kernel,
    check_of_rejected hdiffer hfate hfate'⟩

end Sluice.Infer
