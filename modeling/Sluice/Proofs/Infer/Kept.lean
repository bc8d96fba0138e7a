import Sluice.Proofs.Decision.Sites
import Sluice.Proofs.Infer.Bodies
import Sluice.Proofs.Infer.Fates

/-!
# What becomes a function

A function that `check` returns stands for the definition it was made from: it
has its place, kind and symbol, and its first locals are the receiver and the
parameters (`PresentedBy`). So the functions are the definitions of the
program, in order, less some; and none is missing unless there is an error.
The names in its body stand for what is closest in scope, and its matches are
numbered (`ScopedAs`).
-/

namespace Sluice

open List

namespace Source

/-- The names a function is called with: a method has its receiver first. -/
def Definition.parameters (d : Definition) (kind : Typed.Kind) : List Ident :=
  (receiver kind).map (fun self => ⟨self.1, d.span⟩) ++ d.params.map (·.name)

/-- A function stands for a definition. Its parameters are its first locals, and they are those of
the definition in their order. -/
structure Definition.PresentedBy (kind : Typed.Kind) (d : Definition) (f : Typed.Function) :
    Prop where
  span_eq : f.span = d.span
  kind_eq : f.kind = kind
  name_eq : f.name = d.symbol kind
  params_eq : f.params = List.range (d.parameters kind).length
  locals_eq : (d.parameters kind) <+: f.locals.map fun l => ⟨l.name, l.span⟩

/-- Reading types through a table changes nothing of this. -/
theorem Definition.PresentedBy.mapTy {d : Definition} (h : d.PresentedBy kind f)
    (read : Ty → Ty) : d.PresentedBy kind (f.mapTy read) where
  span_eq := h.span_eq
  kind_eq := h.kind_eq
  name_eq := h.name_eq
  params_eq := h.params_eq
  locals_eq := by
    have hlocals : (f.mapTy read).locals = f.locals.map fun l => { l with ty := read l.ty } := rfl
    rw [hlocals, map_map]
    exact h.locals_eq

end Source

namespace Infer

open Source (Definition Program)
open Unify (Table)

variable {g : Globals} {t : Table} {source : Program} {p : Pending} {kd : Typed.Kind × Definition}

/-! ## Parameters -/

/-- The parameters a body is checked with are those of its definition. -/
theorem Pending.IsFor.params_names (h : p.IsFor kd) :
    p.params.map (·.1) = kd.2.parameters kd.1 := by
  obtain ⟨kind, d⟩ := kd
  have hlen := h.arity_eq
  rw [Pending.params, h.definition_eq, h.kind_eq, Definition.parameters]
  cases kind with
  | free => exact map_fst_zip (by simp [hlen])
  | method owner name =>
    refine map_fst_zip (Nat.le_of_eq ?_)
    rw [hlen, length_cons, length_map]
    exact Nat.add_comm _ 1

/-! ## Bodies -/

/-- A body that passes becomes a function that stands for its definition. -/
theorem presentedBy_of_checkBody (hp : p.IsFor kd)
    (h : checkBody g p { table := t } = .ok f s) : kd.2.PresentedBy kd.1 f := by
  obtain ⟨-, hparams, hlocals⟩ := checkBody_scoped h
  have hnames := hp.params_names
  have hf : f.span = p.definition.span ∧ f.kind = p.kind ∧ f.name = p.symbol := by
    obtain ⟨-, -, -, -, -, -, -, -, rfl⟩ := checkBody_eq_ok h
    exact ⟨rfl, rfl, rfl⟩
  refine ⟨hf.1.trans (congrArg Definition.span hp.definition_eq), hf.2.1.trans hp.kind_eq,
    hf.2.2.trans hp.symbol_eq, ?_, ?_⟩
  · rw [hparams, ← hnames, length_map]
  · have hprefix := hlocals.map fun l => (⟨l.name, l.span⟩ : Source.Ident)
    rw [map_map] at hprefix
    rw [← hnames]
    exact hprefix

/-- A function whose types are all known is the one that passed, with its types read. -/
theorem eq_mapTy_of_finish (h : (finish t f).function? = some f') : f' = f.mapTy t.resolve := by
  rw [finish] at h
  split at h
  · cases h
  · split at h
    · cases h
    · exact (Option.some.inj h).symm

/-- Members that give nothing are left out, and the others stay in order. -/
theorem exists_sublist_of_filterMap {R : α → γ → Prop}
    (h : Forall₂ (fun a b => ∀ c, f b = some c → R a c) as bs) :
    ∃ kept, kept.Sublist as ∧ Forall₂ R kept (bs.filterMap f) := by
  induction h with
  | nil => exact ⟨[], .slnil, .nil⟩
  | @cons a b as bs hab _ ih =>
    obtain ⟨kept, hsub, hkept⟩ := ih
    cases hb : f b with
    | none =>
      rw [filterMap_cons_none hb]
      exact ⟨kept, hsub.cons a, hkept⟩
    | some c =>
      rw [filterMap_cons_some hb]
      exact ⟨a :: kept, hsub.cons_cons a, .cons (hab c hb) hkept⟩

section

variable {R : Typed.Kind × Definition → Typed.Function → Prop}
  (hbody : ∀ {g t kd f s} {p : Pending}, p.IsFor kd → checkBody g p { table := t } = .ok f s →
    R kd f)

include hbody

theorem related_of_verdict (hturn : TurnOf kd turn)
    (h : (verdict g t turn).1 = .passed f) : R kd f := by
  cases turn with
  | none => cases h
  | some p =>
    cases hrun : checkBody g p { table := t.snapshot.2 } with
    | ok f' s =>
      simp only [verdict, hrun] at h
      cases h
      exact hbody (hturn p rfl) hrun
    | error e s =>
      simp only [verdict, hrun] at h
      cases h

theorem related_of_verdicts {defs turns} (h : Forall₂ TurnOf defs turns) : ∀ t : Table,
    Forall₂ (fun kd v => ∀ f, v = Verdict.passed f → R kd f) defs (verdicts g t turns).1 := by
  induction h with
  | nil => exact fun _ => .nil
  | cons hturn _ ih =>
    intro t
    exact .cons (fun f hf => related_of_verdict hbody hturn hf) (ih _)

/-- **What holds of every body that passes, whatever its types are,** holds of the functions of a
check, each with the definition that it stands for. -/
theorem exists_kept (hmap : ∀ {kd f} read, R kd f → R kd (f.mapTy read)) (source : Program) :
    ∃ kept, kept.Sublist source.definitions ∧ Forall₂ R kept (check source).program.functions := by
  rw [check_eq]
  refine exists_sublist_of_filterMap (f := Fate.function?) ?_
  rw [fates, forall₂_map_right_iff]
  refine (related_of_verdicts hbody (turnsOf_definitions source) _).imp fun kd v hv f hf => ?_
  cases v with
  | passed f' =>
    rw [eq_mapTy_of_finish hf]
    exact hmap _ (hv f' rfl)
  | unchecked | rejected => cases hf

end

/-! ## Programs -/

/-- **Accepted programs lose nothing.** The functions of a check stand for definitions of the
program, each for its own and in order. A definition is missing only if there is an error; so the
functions of a program that passes stand for all its definitions, with the types that the
annotations ask for. -/
theorem check_presents (source : Program) :
    (∃ kept, kept.Sublist source.definitions ∧
      List.Forall₂ (fun kd f => kd.2.PresentedBy kd.1 f) kept (check source).program.functions ∧
      ((check source).errors = [] → kept = source.definitions)) ∧
    ∀ program, infer source = .ok program →
      List.Forall₂ (fun kd f => kd.2.PresentedBy kd.1 f) source.definitions program.functions ∧
      List.Forall₂ (fun kd f => Definition.TypedAs program.records kd.1 kd.2 f)
        source.definitions program.functions := by
  obtain ⟨kept, hsub, hkept⟩ := exists_kept (R := fun kd f => kd.2.PresentedBy kd.1 f)
    presentedBy_of_checkBody (fun read h => h.mapTy read) source
  have hall : (check source).errors = [] → kept = source.definitions := by
    intro herrors
    obtain ⟨_, _, hchecked⟩ := checkedAll_of_check herrors
    exact hsub.eq_of_length (hkept.length_eq.trans hchecked.typedAs.length_eq.symm)
  refine ⟨⟨kept, hsub, hkept, hall⟩, fun program hok => ?_⟩
  obtain ⟨hempty, rfl⟩ := infer_eq_ok.1 hok
  have herrors := List.isEmpty_iff.1 hempty
  obtain ⟨_, _, hchecked⟩ := checkedAll_of_check herrors
  rw [hall herrors] at hkept
  exact ⟨hkept, hchecked.typedAs⟩

theorem check_presents_pairSource : ∃ program, infer pairSource = .ok program ∧
    program.functions.map (·.name) = ["Pair::pick", "main"] ∧
    program.functions.map (·.params) = [[0, 1], []] ∧
    List.Forall₂ (fun kd f => kd.2.PresentedBy kd.1 f) pairSource.definitions program.functions :=
  have hok : infer pairSource = .ok (check pairSource).program :=
    infer_eq_ok.2 ⟨by decide +kernel, rfl⟩
  ⟨_, hok, by decide +kernel, by decide +kernel, ((check_presents pairSource).2 _ hok).1⟩

/-- **Names and numbers are resolved in every function of a check,** also where other functions
have errors. A function stands for a definition of the program. Its locals are its parameters and
what is bound in its body, each once and under its name; every other name in the body of the
definition stands for the closest enclosing local of that name, or for a free function where there
is none; its matches are numbered, and each number has one decision tree, made of the arms of that
match. -/
theorem check_resolves_names (source : Program) :
    ∃ kept, kept.Sublist source.definitions ∧
      List.Forall₂ (fun kd f => kd.2.PresentedBy kd.1 f ∧ kd.2.body.ScopedAs f ∧
        (Decision.decisions f).map (·.1) = List.range f.matchCount ∧
        ∀ site ∈ Decision.sites f.body,
          (Decision.decisions f).lookup site.id = some (Decision.compile site.arms))
        kept (check source).program.functions := by
  obtain ⟨kept, hsub, hkept⟩ := exists_kept
    (R := fun kd f => kd.2.PresentedBy kd.1 f ∧ kd.2.body.ScopedAs f)
    (fun hp h => ⟨presentedBy_of_checkBody hp h, hp.definition_eq ▸ (checkBody_scoped h).1⟩)
    (fun read h => ⟨h.1.mapTy read, h.2.mapTy read⟩) source
  exact ⟨kept, hsub, hkept.imp fun kd f hf => ⟨hf.1, hf.2,
    Decision.map_fst_decisions hf.2.matches_eq,
    fun _ => Decision.lookup_decisions hf.2.matches_eq⟩⟩

-- the receiver outside the arms, and in the first arm the binder of its pattern, also in the guard
example : (check pairSource).program.functions.map (fun f => f.body.uses f.params.reverse) =
    [[.var [1, 0] 0, .binder 2, .var [2, 1, 0] 2, .var [2, 1, 0] 2, .var [1, 0] 0], []] := by
  decide +kernel

end Infer

end Sluice
