import Sluice.Proofs.Infer.Fates
import Sluice.Proofs.Infer.Settled

/-!
# Bodies of fully annotated programs are checked separately

Where declarations leave no type open, bodies share nothing but the table, and
a body does not look at what others have put there. So each definition has the
fate that it has alone (`aloneFate`), but for the place of its variables,
wherever in the program it has its turn (`fates_alone`). Changing one body
changes the fate of no other definition (`check_separately`).
-/

namespace Sluice

open List

/-! ## The same up to names -/

/-- Errors at the same place and under the same rule that say the same, up to the names of type
variables. -/
structure TypeError.Alike (e e' : TypeError) : Prop where
  span_eq : e'.span = e.span
  boundary_eq : e'.boundary = e.boundary
  fault_alike : ∃ ρ ρ' : TyVar → TyVar, e'.fault = e.fault.rename ρ ∧ e.fault = e'.fault.rename ρ'

theorem Infer.Fault.rename_rename (ρ ρ' : TyVar → TyVar) (fault : Infer.Fault) :
    (fault.rename ρ).rename ρ' = fault.rename fun v => ρ' (ρ v) := by
  cases fault with
  | clash c => cases c <;> simp only [rename, Unify.Clash.rename, Ty.rename_rename]
  | _ => simp only [rename, Ty.rename_rename]

/-- The same error in two places. -/
theorem TypeError.alike_of_shift (e : TypeError) (k k' : Nat) :
    (e.rename (· + k)).Alike (e.rename (· + k')) := by
  have hmove : ∀ k k', (e.rename (· + k')).fault =
      (e.rename (· + k)).fault.rename fun v => v - k + k' := by
    intro k k'
    simp only [rename, Infer.Fault.rename_rename, Nat.add_sub_cancel]
  exact ⟨rfl, rfl, _, _, hmove k k', hmove k' k⟩

namespace Infer

open Source (Program)
open Unify (Table)
open Unify.Table (Atop Copied)

/-- **The same fate** up to the names of type variables in errors. A function all of whose types
are known has no variables: it is the very same. -/
inductive Fate.Alike : Fate → Fate → Prop
  | unchecked : Fate.Alike .unchecked .unchecked
  | rejected {e e' : TypeError} (h : e.Alike e') : Fate.Alike (.rejected e) (.rejected e')
  | known (f : Typed.Function) : Fate.Alike (.finished (.known f)) (.finished (.known f))
  | unknown {e e' : TypeError} (h : e.Alike e') :
    Fate.Alike (.finished (.unknown e)) (.finished (.unknown e'))
  | silent : Fate.Alike (.finished .silent) (.finished .silent)

/-- An outcome with other names for the variables in an error. -/
def Outcome.rename (ρ : TyVar → TyVar) : Outcome → Outcome
  | unknown e => unknown (e.rename ρ)
  | outcome => outcome

/-- A fate with other names for the variables in an error. -/
def Fate.rename (ρ : TyVar → TyVar) : Fate → Fate
  | unchecked => unchecked
  | rejected e => rejected (e.rename ρ)
  | finished outcome => finished (outcome.rename ρ)

theorem Fate.alike_of_shift (fate : Fate) (k k' : Nat) :
    (fate.rename (· + k)).Alike (fate.rename (· + k')) := by
  cases fate with
  | unchecked => exact .unchecked
  | rejected e => exact .rejected (e.alike_of_shift k k')
  | finished outcome =>
    cases outcome with
    | known f => exact .known f
    | unknown e => exact .unknown (e.alike_of_shift k k')
    | silent => exact .silent

variable {g : Globals} {s t T : Table} {k : Nat} {turn : Option Pending} {source source' : Program}

/-! ## Reading types in the end -/

theorem resolve_of_closed (h : ty.vars = []) (t : Table) : t.resolve ty = ty :=
  Ty.subst_of_closed h _

/-- There is no variable to give the error type to. -/
theorem poison_of_closed (h : ty.vars = []) (t : Table) : t.poison ty = t := by
  rw [Table.poison, resolve_of_closed h, h]
  rfl

/-- **A function is read in the table that holds a copy as it is in its own,** but for the place of
variables. -/
theorem finish_moved (hs : s.Grounded) (hcopied : Copied k s T)
    (hf : Moved k s.size Typed.Function.mapTy f f') :
    finish T f' = (finish s f).rename (· + k) := by
  have hread : f'.mapTy T.resolve = f.mapTy fun ty => (s.resolve ty).shift k :=
    (hf _ _ fun ty hty => (hcopied.resolve hs hty).symm).symm
  have hsites : (f'.mapTy T.resolve).sites =
      (f.mapTy s.resolve).sites.map (·.mapTy (Ty.shift k)) := by
    rw [hread, Typed.Function.sites_mapTy, Typed.Function.sites_mapTy, map_map]
    rfl
  have hinfo : ∀ site : Typed.Info,
      (site.mapTy (Ty.shift k)).ty.isUnresolved = site.ty.isUnresolved ∧
        (site.mapTy (Ty.shift k)).ty.hasError = site.ty.hasError :=
    fun site => ⟨Ty.isUnresolved_shift k site.ty, Ty.hasError_shift k site.ty⟩
  rw [finish, finish]
  simp only [hsites, find?_map, any_map, Function.comp_def, (hinfo _).1, (hinfo _).2]
  cases hfind : (f.mapTy s.resolve).sites.find? fun site =>
      site.ty.isUnresolved && !site.ty.hasError with
  | some site => rfl
  | none =>
    simp only [Option.map_none]
    split
    · rfl
    · rename_i hnoError
      -- all types are known, so the function has no variables to move
      have hclosed : ∀ site ∈ f.sites, (s.resolve site.ty).shift k = s.resolve site.ty := by
        intro site hsite
        have hmem : site.mapTy s.resolve ∈ (f.mapTy s.resolve).sites := by
          rw [Typed.Function.sites_mapTy]
          exact mem_map_of_mem hsite
        have hopen := find?_eq_none.1 hfind _ hmem
        have herror : (s.resolve site.ty).hasError = false :=
          Bool.eq_false_iff.2 fun h => hnoError (any_eq_true.2 ⟨_, hmem, h⟩)
        have hknown : (s.resolve site.ty).isUnresolved = false := by
          simpa [Typed.Info.mapTy, herror] using hopen
        exact (Ty.isUnresolved_eq_false.1 hknown).subst_of_closed _
      rw [hread, Typed.Function.mapTy_congr f hclosed]
      rfl

/-! ## The fate of a definition alone -/

/-- **The fate that a definition has alone,** with no other body to check. -/
def aloneFate (g : Globals) : Option Pending → Fate
  | none => .unchecked
  | some p =>
    match checkBody g p { table := {} } with
    | .ok f s => .finished (finish s.table f)
    | .error e _ => .rejected e

/-- **A definition that has its turn has the fate that it has alone,** but for the place of its
variables, whatever comes after. What the table holds already stays as it is. -/
theorem verdict_alone (hg : g.Closed) (ht : t.Aligned)
    (hturn : ∀ p ∈ turn, p.signature.ty.vars = []) :
    (verdict g t turn).2.Aligned ∧ t.Extends (verdict g t turn).2 ∧
      ∀ T, (verdict g t turn).2.Extends T →
        (verdict g t turn).1.fate T = (aloneFate g turn).rename (· + t.size) := by
  cases turn with
  | none => exact ⟨ht, .refl t, fun _ _ => rfl⟩
  | some p =>
    have hp := hturn p rfl
    have hmirror : Mirror t { table := {} } { table := t.snapshot.2 } :=
      ⟨Table.grounded_empty, (Atop.start ht).congr rfl rfl rfl, .nil, rfl⟩
    rcases (checkBody_repeats hg hp _ _ hmirror (Nat.zero_le _)).ok_or_error with
      ⟨f, s, f', s', halone, hrun, -, hmoved, hs⟩ | ⟨e, s, s', halone, hrun⟩
    · have hatop : Atop t s.table s'.table.commit := hs.atop.congr rfl rfl rfl
      simp only [verdict, hrun, aloneFate, halone]
      refine ⟨hatop.aligned hs.grounded.toIsForest, hatop.base, fun T hT => ?_⟩
      exact congrArg Fate.finished (finish_moved hs.grounded (hatop.copied.of_extends hT) hmoved)
    · have hrejected : (verdict g t (some p)).1 = .rejected (e.rename (· + t.size)) := by
        rw [verdict, hrun]
      -- what the body did is taken back, and its result type has no variable to be poisoned
      rw [verdict_of_rejected hrejected, poison_of_closed (Pending.ret_closed hp), aloneFate,
        halone]
      exact ⟨ht, .refl t, fun _ _ => rfl⟩

theorem verdicts_alone (hg : g.Closed) : ∀ (turns : List (Option Pending)) {t}, t.Aligned →
    (∀ turn ∈ turns, ∀ p ∈ turn, p.signature.ty.vars = []) →
    t.Extends (verdicts g t turns).2 ∧ ∀ T, (verdicts g t turns).2.Extends T →
      Forall₂ (fun turn v => ∃ k, Verdict.fate T v = (aloneFate g turn).rename (· + k)) turns
        (verdicts g t turns).1
  | [], t, _, _ => ⟨.refl t, fun _ _ => .nil⟩
  | turn :: rest, t, ht, hturns => by
    obtain ⟨hturn, hrest⟩ := forall_mem_cons.1 hturns
    obtain ⟨haligned, hextends, hfate⟩ := verdict_alone hg ht hturn
    obtain ⟨hlater, hfates⟩ := verdicts_alone hg rest haligned hrest
    exact ⟨hextends.trans hlater, fun T hT =>
      .cons ⟨t.size, hfate T (hlater.trans hT)⟩ (hfates T hT)⟩

/-- **In a fully annotated program each definition has the fate that it has alone,** but for the
place of its variables. -/
theorem fates_alone (h : source.FullyAnnotated) :
    Forall₂ (fun turn fate =>
      ∃ k, fate = (aloneFate (declare source).globals turn).rename (· + k))
      (turns source) (fates source) := by
  obtain ⟨htable, hglobals, hpending⟩ := declare_settled h
  have hclosed : ∀ turn ∈ turns source, ∀ p ∈ turn, p.signature.ty.vars = [] := by
    intro turn hturn p hp
    refine hpending p ?_
    rw [pending_declare, reduceOption_mem_iff, ← Option.mem_def.1 hp]
    exact hturn
  rw [fates, Program.verdicts, forall₂_map_right_iff, htable]
  exact (verdicts_alone hglobals (turns source) ⟨rfl, rfl⟩ hclosed).2 _ (.refl _)

/-! ## Changing one body -/

/-- Records whose types have no variables are read as they are. -/
theorem Globals.Closed.records_eq (hg : g.Closed) (t : Table) :
    g.records.mapTy t.resolve = g.records := by
  conv_rhs => rw [← RecordTable.mapTy_id g.records]
  refine RecordTable.mapTy_congr fun r hr => ⟨fun d hd => ?_, fun m hm => ?_⟩
  · exact resolve_of_closed ((hg.record_closed r hr).1 d hd) t
  · exact resolve_of_closed ((hg.record_closed r hr).2 m hm) t

/-- **A result that is made of fates:** the functions are those of the definitions that have become
one. The errors are first those of the declarations, then those of rejected bodies, then those about
types that are not known in the end. -/
structure Checked.MadeOf (c : Checked) (declared : List TypeError) (fates : List Fate) : Prop where
  functions_eq : c.program.functions = fates.filterMap Fate.function?
  errors_eq : c.errors =
    declared ++ fates.filterMap Fate.rejection? ++ fates.filterMap Fate.doubt?

theorem check_madeOf (source : Program) :
    (check source).MadeOf (declare source).errors (fates source) := by
  rw [check_eq]
  exact ⟨rfl, rfl⟩

/-- **Fully annotated programs are checked body by body.** Where one body is changed, whether the
new one is well typed or not, every other definition has the same fate, up to the names of type
variables in its error. The records and the errors of declarations are the same. -/
theorem check_separately {n : Nat} (hfull : source.FullyAnnotated)
    (h : source.DifferAt n source') :
    (check source').program.records = (check source).program.records ∧
      (check source).MadeOf (declare source).errors (fates source) ∧
      (check source').MadeOf (declare source).errors (fates source') ∧
      ∀ m, m ≠ n → Option.Rel Fate.Alike (fates source)[m]? (fates source')[m]? := by
  have hfull' := hfull.of_sameHeads h.heads
  obtain ⟨-, hbeside⟩ := declare_beside h.heads
  have hrecords : ∀ {source : Program}, source.FullyAnnotated →
      (check source).program.records = (declare source).globals.records := by
    intro source hfull
    rw [check_eq]
    exact (declare_settled hfull).globals_closed.records_eq _
  refine ⟨?_, check_madeOf source, hbeside.errors_eq ▸ check_madeOf source', fun m hm => ?_⟩
  · rw [hrecords hfull, hrecords hfull', hbeside.globals_eq]
  · -- both fates are the fate of the same definition alone
    have hleft := forall₂_getElem? (fates_alone hfull) m
    have hright := forall₂_getElem? (fates_alone hfull') m
    rw [← turns_getElem?_of_differAt h hm, hbeside.globals_eq] at hright
    generalize (turns source)[m]? = turn at hleft hright
    generalize (fates source)[m]? = fate at hleft ⊢
    generalize (fates source')[m]? = fate' at hright ⊢
    cases hleft with
    | none =>
      cases hright
      exact .none
    | some hk =>
      obtain ⟨k, rfl⟩ := hk
      cases hright with
      | some hk' =>
        obtain ⟨k', rfl⟩ := hk'
        exact .some (Fate.alike_of_shift _ k k')

/-- A fully annotated program with a given first body. Its second definition calls the first one,
the third leaves a type open. -/
def annotatedSource (body : Source.Expr) : Program :=
  let at0 : Span := ⟨0, 0⟩
  let id (name : String) : Source.Ident := ⟨name, at0⟩
  let int : Source.TypeExpr := .named at0 (id "int")
  [.function at0 ⟨at0, id "first", [], some int, body⟩,
   .function at0 ⟨at0, id "second", [⟨at0, id "n", int⟩], some int,
     .binary at0 .add (.call at0 (.ident at0 (id "first")) []) (.ident at0 (id "n"))⟩,
   .function at0 ⟨at0, id "third", [], some int,
     .letIn at0 (id "xs") none (.list at0 []) (.literal at0 (.int 1))⟩]

/-- A body that needs a type variable and passes. -/
def countingBody : Source.Expr :=
  let at0 : Span := ⟨0, 0⟩
  let id (name : String) : Source.Ident := ⟨name, at0⟩
  .letIn at0 (id "xs") none (.list at0 [.literal at0 (.int 1)]) (.literal at0 (.int 2))

theorem check_separately_annotatedSource :
    let openList (v : TyVar) : TypeError := ⟨⟨0, 0⟩, .expression, .cannotInfer (.list (.var v))⟩
    let source := annotatedSource countingBody
    let source' := annotatedSource unknownBody
    source.FullyAnnotated ∧ source.DifferAt 0 source' ∧
    (check source).errors = [openList 1] ∧ (check source').errors.tail = [openList 0] ∧
    (check source).program.functions.length = 2 ∧ (check source').program.functions.length = 1 ∧
    (check source').program.records = (check source).program.records ∧
    (check source).MadeOf (declare source).errors (fates source) ∧
    (check source').MadeOf (declare source).errors (fates source') ∧
    ∀ m, m ≠ 0 → Option.Rel Fate.Alike (fates source)[m]? (fates source')[m]? := by
  intro openList source source'
  have hfull : source.FullyAnnotated := by
    intro item hitem
    simp only [source, annotatedSource, mem_cons, not_mem_nil, or_false] at hitem
    rcases hitem with rfl | rfl | rfl
    · exact ⟨forall_mem_nil _, _, rfl, by decide⟩
    · exact ⟨fun p hp => by rw [mem_singleton.1 hp]; decide, _, rfl, by decide⟩
    · exact ⟨forall_mem_nil _, _, rfl, by decide⟩
  have hdiffer : source.DifferAt 0 source' := by
    refine ⟨.cons (.function rfl) (.cons (.function rfl) (.cons (.function rfl) .nil)),
      fun m hm => ?_⟩
    cases m with
    | zero => exact absurd rfl hm
    | succ m => rfl
  exact ⟨hfull, hdiffer, by decide +kernel, by decide +kernel, by decide +kernel,
    by decide +kernel, check_separately hfull hdiffer⟩

end Infer

end Sluice
