import Sluice.Proofs.Infer.Entries
import Sluice.Proofs.Infer.Expr

/-!
# Type inference is sound

Bodies are checked one after the other in one table, which only ever knows
more. At the end it gives one reading of all variables, and under that reading
every body is well typed.
-/

namespace Sluice

open List
open Source (Definition Ident Names TypeExpr)
open Typed (Function Local LocalId)

namespace Source

/-- As many types as annotations. -/
theorem TypeExpr.AllowsList.length_eq :
    ∀ {as tys}, AllowsList records as tys → as.length = tys.length
  | [], _, h => by rw [AllowsList] at h; rw [h]; rfl
  | _ :: _, _, h => by
    obtain ⟨_, _, rfl, -, hrest⟩ := h
    rw [length_cons, length_cons, hrest.length_eq]

end Source

namespace Infer

open Unify (Table)
open Unify.Table (Solves)

variable {g : Globals} {s s' : State} {t t' : Table} {source : Source.Program} {p : Pending}
  {f : Function} {kind : Typed.Kind}

/-! ## Parameters -/

/-- Locals stand for parameters: they have their types and names. -/
def Holds (L : List Local) (θ : TyVar → Ty) (id : LocalId) (param : Ident × Ty) : Prop :=
  Typed.HasLocal L id (param.2.subst θ) ∧ Names L id param.1.name

/-- Parameters are declared one after the other. -/
inductive ParamsStep : Scope → State → List (Ident × Ty) → List LocalId → Scope → State →
    Prop
  | nil {scope : Scope} {s : State} : ParamsStep scope s [] [] scope s
  | cons {scope scope' : Scope} {s s' : State} {name : Ident} {ty : Ty}
    {rest : List (Ident × Ty)} {ids : List LocalId}
    (h : ParamsStep ((name.name, s.locals.length) :: scope) (s.declare name ty) rest ids scope'
      s') :
    ParamsStep scope s ((name, ty) :: rest) (s.locals.length :: ids) scope' s'

theorem ParamsStep.of_declareParams : ∀ (params : List (Ident × Ty)) {scope scope'}
    {ids s s'}, declareParams scope params s = .ok (ids, scope') s' →
      ParamsStep scope s params ids scope' s'
  | [], _, _, _, _, _, h => by
    obtain ⟨heq, rfl⟩ := pure_eq_ok.1 h
    cases heq
    exact .nil
  | (name, ty) :: rest, _, _, _, _, _, h => by
    obtain ⟨id, s1, h1, h⟩ := bind_eq_ok.1 h
    obtain ⟨⟨ids', scope1⟩, s2, h2, h⟩ := bind_eq_ok.1 h
    obtain ⟨heq, rfl⟩ := pure_eq_ok.1 h
    cases heq
    cases h1
    exact .cons (of_declareParams rest h2)

theorem ParamsStep.checks (h : ParamsStep scope s params ids scope' s') (hs : s.Sound)
    (htys : ∀ q ∈ params, q.2.Sound s.table.size) (hsc : InScope scope s) :
    Checks g s s' [] (fun _ L θ => Forall₂ (Holds L θ) ids params) ∧
      InScope scope' s' ∧ ∀ id ∈ scope'.map (·.2), id ∈ ids ∨ id ∈ scope.map (·.2) := by
  induction h with
  | nil =>
    exact ⟨(Checks.nothing hs).imp fun _ _ _ _ _ => .nil, hsc, fun _ hid => .inr hid⟩
  | cons _ ih =>
    obtain ⟨hty, htys⟩ := forall_mem_cons.1 htys
    obtain ⟨hd, hl⟩ := declareLocal_checks (g := g) hs hty rfl
    obtain ⟨hr, hsc', hsub⟩ := ih hd.grows.sound (fun q hq => hd.grows.mono (htys q hq))
      ((hsc.mono hd.grows).cons hl rfl)
    refine ⟨(hd.seq hr).imp fun _ _ _ _ hP => .cons hP.1 hP.2, hsc', fun id' hid' => ?_⟩
    rcases hsub id' hid' with hid' | hid'
    · exact .inl (mem_cons_of_mem _ hid')
    · rcases mem_cons.1 hid' with rfl | hid'
      · exact .inl mem_cons_self
      · exact .inr hid'

/-! ## Bodies -/

/-- The types of the parameters of a body are those of its signature. -/
def Pending.Fits (p : Pending) : Prop :=
  ∀ q ∈ p.params, q.2 ∈ p.signature.params

/-- What the check of a body consists of. -/
inductive BodyStep (g : Globals) (p : Pending) (t : Table) : Function → State → Prop
  | mk {params : List LocalId} {scope : Scope} {body : Typed.Expr} {s1 s2 s' : State}
    (hparams : ParamsStep [] { table := t } p.params params scope s1)
    (hgrows : Grows { table := t } s1)
    (hbody : ExprRun g scope s1 p.definition.body body s2)
    (hret : Unifies s2 p.signature.ret body.ty s') :
    BodyStep g p t ⟨p.definition.span, p.symbol, p.kind, params, s'.locals, p.signature.ret,
      s'.matchCount, body⟩ s'

theorem BodyStep.of_checkBody (ht : t.Sound) (hg : g.Sound t.size)
    (hp : p.signature.ty.Sound t.size) (hfits : p.Fits)
    (h : checkBody g p { table := t } = .ok f s') : BodyStep g p t f s' := by
  obtain ⟨params, scope, body, s1, s2, h1, h2, h3, rfl⟩ := checkBody_eq_ok h
  obtain ⟨hpsound, hrsound⟩ := Ty.Sound.fn_iff.1 hp
  have hs : State.Sound { table := t } := ⟨ht, nofun⟩
  have hparams := ParamsStep.of_declareParams _ h1
  obtain ⟨hd, hsc, -⟩ := hparams.checks (g := g) hs (fun q hq => hpsound q.2 (hfits q hq)) nofun
  have hb : ExprRun g scope s1 p.definition.body body s2 :=
    ⟨⟨hd.grows.sound, hg.mono hd.grows, hsc⟩, h2⟩
  exact .mk hparams hd.grows hb (Unifies.of_require hb.grows.sound
    ((hd.grows.trans hb.grows).mono hrsound) hb.ty_sound h3)

/-- A checked function is a typed form of a queued body: under every reading of the table that
the check led to, or of a later one, its body is well typed. -/
structure BodyChecks (g : Globals) (p : Pending) (t : Table) (f : Function) : Prop where
  kind_eq : f.kind = p.kind
  name_eq : f.name = p.symbol
  ret_eq : f.ret = p.signature.ret
  resolves : p.definition.body.ScopedAs f
  sites_sound : ∀ site ∈ f.sites, site.ty.Sound t.size
  params_hold : ∀ θ, Solves θ t →
    List.Forall₂ (Holds (readLocals θ f.locals) θ) f.params p.params
  reads : ∀ program θ, Realises program g θ → Solves θ t →
    (f.body.mapTy (Ty.subst θ)).WellTyped program (readLocals θ f.locals) f.params ∧
    f.body.ty.subst θ = f.ret.subst θ ∧
    p.definition.body.TypedAs program.records (readLocals θ f.locals) (f.body.mapTy (Ty.subst θ))

theorem BodyChecks.mono (h : BodyChecks g p t f) (ht : t.Refines t') : BodyChecks g p t' f :=
  { h with
    sites_sound := fun site hsite => (h.sites_sound site hsite).mono ht.size_le
    params_hold := fun θ hθ => h.params_hold θ (ht.solves θ hθ)
    reads := fun program θ hr hθ => h.reads program θ hr (ht.solves θ hθ) }

theorem checkBody_checks (ht : t.Sound) (hg : g.Sound t.size) (hp : p.signature.ty.Sound t.size)
    (hfits : p.Fits) (h : checkBody g p { table := t } = .ok f s') :
    t.Refines s'.table ∧ BodyChecks g p s'.table f := by
  have hscoped := (checkBody_scoped h).1
  obtain ⟨hpsound, hrsound⟩ := Ty.Sound.fn_iff.1 hp
  have hs : State.Sound { table := t } := ⟨ht, nofun⟩
  have htys : ∀ q ∈ p.params, q.2.Sound t.size := fun q hq => hpsound q.2 (hfits q hq)
  obtain ⟨hparams, -, hrun, hunify⟩ := BodyStep.of_checkBody ht hg hp hfits h
  obtain ⟨hd, -, hsub⟩ := hparams.checks (g := g) hs htys nofun
  have hb := checksWell _ hrun
  have hr := hunify.settles (g := g)
  have hall := hd.seq (hb.seq hr)
  have hret := hall.grows.mono hrsound
  refine ⟨hall.grows.refines, rfl, rfl, rfl, hscoped, ?_, fun θ hθ => ?_,
    fun program θ hreal hθ => ?_⟩
  · exact forall_mem_append.2 ⟨forall_mem_map.2 hall.grows.locals_sound, forall_mem_cons.2
      ⟨hret, fun site hsite => hr.grows.mono (hb.sites_sound site hsite)⟩⟩
  · -- the parameters are what they are whatever the globals, so none are needed here
    obtain ⟨hd', -, -⟩ := hparams.checks (g := {}) hs htys nofun
    have hback := hb.grows.trans hr.grows
    exact hd'.holds_of ⟨{}, []⟩ _ θ ⟨⟨rfl, fun _ _ h => (by cases h), fun _ _ _ h => (by cases h)⟩,
      hback.refines.solves θ hθ, hback.locals_grow.map _⟩
  · obtain ⟨-, ⟨hwt, hta⟩, heq⟩ := hall.holds_of program _ θ ⟨hreal, hθ, prefix_refl _⟩
    refine ⟨hwt _ fun id hid => ?_, heq.symm, hta⟩
    exact (hsub id hid).resolve_right not_mem_nil

theorem map_name_zip {names : List Ident} {tys : List Ty}
    (h : names.length ≤ tys.length) : (names.zip tys).map (·.1.name) = names.map (·.name) := by
  conv_rhs => rw [← map_fst_zip h, map_map]
  rfl

/-- The parameters of a queued body are the receiver and those of its definition. -/
theorem Pending.Follows.params_eq' {definition : Definition}
    (h : p.Follows records kind definition) :
    p.params.map (·.2) = p.signature.params ∧ p.params.map (·.1.name) =
      (Source.receiver kind).map (·.1) ++ definition.params.map (·.name.name) := by
  obtain ⟨tys, hsig, hallows⟩ := h.params_eq
  have hlen : definition.params.length = tys.length := by
    have := (hallows Ty.var).length_eq
    rwa [Ty.substList_var, length_map] at this
  rw [Pending.params, h.kind_eq, h.definition_eq, hsig]
  cases kind with
  | free =>
    refine ⟨map_snd_zip (by simp [Source.receiver, hlen]), ?_⟩
    rw [map_name_zip (by simp [Source.receiver, hlen]), map_map]
    rfl
  | method owner method =>
    refine ⟨map_snd_zip (by simp [Source.receiver, hlen]), ?_⟩
    rw [map_name_zip (by simp [Source.receiver, hlen]), map_cons, map_map]
    rfl

theorem Pending.Follows.mem_params {records definition}
    (h : p.Follows records kind definition) : ∀ q ∈ p.params, q.2 ∈ p.signature.params := by
  intro q hq
  rw [← h.params_eq'.1]
  exact mem_map_of_mem hq

/-! ## All bodies -/

/-- The bodies checked so far, all without error. -/
structure Progress.Fine (g : Globals) (t : Table) (done : List Pending) (progress : Progress) :
    Prop where
  no_errors : progress.errors = []
  refines : t.Refines progress.table
  functions : List.Forall₂ (fun p f => BodyChecks g p progress.table f) done progress.functions

theorem Progress.errors_step (g : Globals) (progress : Progress) (p : Pending) :
    progress.errors <+: (progress.step g p).errors := by
  rw [step]
  simp only
  split
  · exact prefix_refl _
  · exact prefix_append _ _

theorem Progress.errors_foldl (g : Globals) : ∀ (pending : List Pending) (progress : Progress),
    progress.errors <+: (pending.foldl (step g) progress).errors
  | [], _ => prefix_refl _
  | p :: rest, progress => (errors_step g progress p).trans (errors_foldl g rest _)

/-- One body more. -/
theorem Progress.Fine.step {progress : Progress} (h : progress.Fine g t done) (hg : g.Sound t.size)
    (hp : p.signature.ty.Sound t.size) (hparams : ∀ q ∈ p.params, q.2 ∈ p.signature.params)
    (herrors : (progress.step g p).errors = []) : (progress.step g p).Fine g t (done ++ [p]) := by
  rw [Progress.step] at herrors ⊢
  simp only at herrors ⊢
  have hsnap : progress.table.Refines progress.table.snapshot.2 :=
    Unify.Table.refines_of_eq h.refines.sound rfl rfl rfl
  have hbefore := h.refines.trans hsnap
  split at herrors
  · rename_i f s hf
    obtain ⟨href, hbody⟩ := checkBody_checks hsnap.sound (hg.le hbefore.size_le)
      (hp.mono hbefore.size_le) hparams hf
    have hcommit : s.table.Refines s.table.commit :=
      Unify.Table.refines_of_eq href.sound rfl rfl rfl
    have hafter := hsnap.trans (href.trans hcommit)
    exact ⟨herrors, h.refines.trans hafter, rel_append
      (h.functions.imp fun _ _ hb => hb.mono hafter) (.cons (hbody.mono hcommit) .nil)⟩
  · exact absurd herrors (by simp)

/-- All of them. -/
theorem Progress.Fine.foldl (hg : g.Sound t.size) : ∀ (pending : List Pending)
    {done} {progress : Progress}, progress.Fine g t done →
    (∀ p ∈ pending, p.signature.ty.Sound t.size ∧ ∀ q ∈ p.params, q.2 ∈ p.signature.params) →
    (pending.foldl (Progress.step g) progress).errors = [] →
      (pending.foldl (Progress.step g) progress).Fine g t (done ++ pending)
  | [], _, _, _, _, _ => by rwa [append_nil]
  | p :: rest, _, progress, h, hpending, herrors => by
    have h1 := Declared.no_errors_before (Progress.errors_foldl g rest (progress.step g p)) herrors
    obtain ⟨hp, hparams⟩ := hpending p mem_cons_self
    have := foldl hg rest (h.step hg hp hparams h1)
      (fun q hq => hpending q (mem_cons_of_mem _ hq)) herrors
    rwa [List.append_assoc] at this

/-! ## Reading the types -/

theorem finish_known (ht : t.Sound) (hf : ∀ site ∈ f.sites, site.ty.Sound t.size)
    (h : ∀ e, finish t f ≠ .unknown e) : finish t f = .known (f.mapTy t.resolve) ∧
      ∀ site ∈ (f.mapTy t.resolve).sites, site.ty.isUnresolved = false := by
  have herror : ∀ site ∈ (f.mapTy t.resolve).sites, site.ty.hasError = false := by
    intro site hsite
    rw [Typed.Function.sites_mapTy] at hsite
    obtain ⟨site0, hsite0, rfl⟩ := mem_map.1 hsite
    exact Ty.hasError_subst (hf site0 hsite0).no_error fun v _ => ht.resolveVar_no_error _ v
  cases hfind : (f.mapTy t.resolve).sites.find?
      fun site => site.ty.isUnresolved && !site.ty.hasError with
  | some site =>
    refine absurd ?_ (h ⟨site.span, .expression, .cannotInfer site.ty⟩)
    simp only [finish, hfind]
  | none =>
    refine ⟨?_, fun site hsite => ?_⟩
    · simp only [finish, hfind]
      simpa using herror
    · have hnone := find?_eq_none.1 hfind site hsite
      have hnoerror := herror site hsite
      simpa [hnoerror] using hnone

/-- A checked function with its types read has the parameter types of its signature. -/
theorem paramTypes_of_holds (hL : f.locals = L) (h : Forall₂ (Holds L θ) f.params params) :
    f.paramTypes = Ty.substList θ (params.map (·.2)) := by
  rw [Function.paramTypes, hL]
  generalize f.params = ids at h
  induction h with
  | nil => rfl
  | cons hq _ ih =>
    obtain ⟨⟨l, hl, hty⟩, -⟩ := hq
    rw [filterMap_cons, hl, map_cons, Ty.substList, ← ih, ← hty]
    rfl

/-! ## Programs -/

/-- What a program without errors was checked to. -/
structure CheckedAll (source : Source.Program) (p : Typed.Program) (t : Table)
    (functions : List Function) : Prop where
  declared : (declare source).Fine
  definitions : List.Forall₂
    (fun kd q => q.Follows (declare source).globals.records kd.1 kd.2) source.definitions
    (declare source).pending
  table_sound : t.Sound
  bodies : List.Forall₂ (fun q f => BodyChecks (declare source).globals q t f)
    (declare source).pending functions
  records_eq : p.records = (declare source).globals.records.mapTy t.resolve
  functions_eq : p.functions = functions.map (·.mapTy t.resolve)
  resolved : ∀ f ∈ functions, ∀ site ∈ (f.mapTy t.resolve).sites, site.ty.isUnresolved = false

/-- What checking all the bodies of a program leaves behind. -/
def checkBodies (source : Source.Program) : Progress :=
  (declare source).pending.foldl (Progress.step (declare source).globals)
    { table := (declare source).table }

/-- **A program without errors** is checked to the end, and its functions are the checked ones
with their types read. -/
theorem checkedAll_checkBodies (h : (check source).errors = []) :
    (checkBodies source).errors = [] ∧ CheckedAll source (check source).program
      (checkBodies source).table (checkBodies source).functions := by
  rw [check] at h ⊢
  rw [checkBodies]
  simp only [append_eq_nil_iff] at h ⊢
  obtain ⟨⟨hd, hp⟩, ho⟩ := h
  obtain ⟨hfine, hfollows⟩ := declare_adds hd
  have hparams : ∀ p ∈ (declare source).pending, ∀ q ∈ p.params, q.2 ∈ p.signature.params := by
    intro p hp
    obtain ⟨kd, -, hfollow⟩ := exists_of_forall₂_right hfollows hp
    exact hfollow.mem_params
  have hstart : Progress.Fine (declare source).globals (declare source).table []
      { table := (declare source).table } :=
    ⟨rfl, .refl hfine.table_sound, .nil⟩
  have hall := Progress.Fine.foldl hfine.globals_sound (declare source).pending hstart
    (fun p hp => ⟨hfine.pending_sound p hp, hparams p hp⟩) hp
  generalize (declare source).pending.foldl (Progress.step (declare source).globals)
    { table := (declare source).table } = progress at hp ho hall ⊢
  -- no outcome is an error, so every function is known
  have hknown : ∀ f ∈ progress.functions, finish progress.table f =
      .known (f.mapTy progress.table.resolve) ∧
      ∀ site ∈ (f.mapTy progress.table.resolve).sites, site.ty.isUnresolved = false := by
    intro f hf
    obtain ⟨p, -, hbody⟩ := exists_of_forall₂_right hall.functions hf
    refine finish_known hall.refines.sound hbody.sites_sound fun e he => ?_
    rw [filterMap_eq_nil_iff] at ho
    have := ho _ (mem_map_of_mem hf)
    rw [he] at this
    cases this
  refine ⟨hp, hfine, hfollows, hall.refines.sound, hall.functions, rfl, ?_,
    fun f hf => (hknown f hf).2⟩
  rw [filterMap_map, ← filterMap_eq_map]
  refine filterMap_congr fun f hf => ?_
  simp only [Function.comp, (hknown f hf).1]

theorem checkedAll_of_check (h : (check source).errors = []) :
    ∃ t functions, CheckedAll source (check source).program t functions :=
  ⟨_, _, (checkedAll_checkBodies h).2⟩

namespace CheckedAll

variable {source : Source.Program} {p : Typed.Program} {functions : List Typed.Function}

variable (h : CheckedAll source p t functions)
include h

/-- Whatever is queued is declared in the program. -/
theorem declares (hq : Queued (declare source).pending kind symbol params ret) :
    p.Declares kind symbol (Ty.substList (t.resolveVar t.size) params)
      (ret.subst (t.resolveVar t.size)) := by
  obtain ⟨q, hq, hkind, hsymbol, hsig⟩ := hq
  obtain ⟨f, hf, hbody⟩ := exists_of_forall₂_left h.bodies hq
  obtain ⟨kd, -, hfollow⟩ := exists_of_forall₂_right h.definitions hq
  refine ⟨f.mapTy t.resolve, ?_, hbody.kind_eq.trans hkind, hbody.name_eq.trans hsymbol, ?_, ?_⟩
  · rw [h.functions_eq]
    exact mem_map_of_mem hf
  · have hparams := hbody.params_hold _ h.table_sound.solves_resolve
    rw [paramTypes_of_holds (f := f.mapTy t.resolve) rfl hparams, hfollow.params_eq'.1, hsig]
  · have hret : (f.mapTy t.resolve).ret = f.ret.subst (t.resolveVar t.size) := rfl
    rw [hret, hbody.ret_eq, hsig]

theorem realises : Realises p (declare source).globals (t.resolveVar t.size) where
  records_eq := h.records_eq
  function name signature hsig := h.declares (h.declared.function_queued name signature hsig)
  method owner r m hr hm := by
    obtain ⟨params, ret, hty, hsymbol, hq⟩ := h.declared.method_queued owner r m hr hm
    exact ⟨params, ret, hty, hsymbol, h.declares hq⟩

/-- The functions of the program are well typed. -/
theorem wellTyped : ∀ f ∈ p.functions, f.WellTyped p := by
  intro f' hf'
  rw [h.functions_eq] at hf'
  obtain ⟨f, hf, rfl⟩ := mem_map.1 hf'
  obtain ⟨q, -, hbody⟩ := exists_of_forall₂_right h.bodies hf
  obtain ⟨hwt, hret, -⟩ := hbody.reads p _ h.realises h.table_sound.solves_resolve
  have hscoped := hbody.resolves.mapTy t.resolve
  exact ⟨h.resolved f hf, hscoped.locals_eq, hscoped.matches_eq, hwt,
    (Typed.Expr.ty_mapTy f.body).trans hret⟩

/-- The functions of the program are the typed forms of the definitions of its source. -/
theorem typedAs :
    Forall₂ (fun kd f => Definition.TypedAs p.records kd.1 kd.2 f)
      source.definitions p.functions := by
  rw [h.functions_eq, forall₂_map_right_iff]
  refine forall₂_comp (fun kd q f hfollow hbody => ?_) h.definitions h.bodies
  have hcontains : ∀ name, (declare source).globals.records.contains name =
      p.records.contains name := fun name => by
    rw [h.records_eq, RecordTable.contains_mapTy]
  obtain ⟨-, -, hbodyAs⟩ := hbody.reads p _ h.realises h.table_sound.solves_resolve
  have hparams := hbody.params_hold _ h.table_sound.solves_resolve
  obtain ⟨hsig, hnames⟩ := hfollow.params_eq'
  obtain ⟨tys, htys, hallows⟩ := hfollow.params_eq
  refine ⟨hbody.kind_eq.trans hfollow.kind_eq, hbody.name_eq.trans hfollow.symbol_eq, ?_, ?_,
    fun a ha => ?_, hfollow.definition_eq ▸ hbodyAs⟩
  · rw [← hnames, forall₂_map_right_iff]
    exact hparams.imp fun _ _ hq => hq.2
  · refine ⟨Ty.substList (t.resolveVar t.size) tys, ?_,
      (TypeExpr.allowsList_congr hcontains).1 (hallows _)⟩
    rw [paramTypes_of_holds (f := f.mapTy t.resolve) rfl hparams, hsig, htys]
    cases kd.1 <;> rfl
  · have hret : (f.mapTy t.resolve).ret = f.ret.subst (t.resolveVar t.size) := rfl
    rw [hret, hbody.ret_eq]
    exact (TypeExpr.allows_congr hcontains).1 (hfollow.ret_allowed a ha _)

end CheckedAll

/-- A program passes exactly if checking it finds no errors. -/
theorem infer_eq_ok {p} :
    infer source = .ok p ↔ (check source).errors.isEmpty = true ∧ (check source).program = p := by
  rw [infer]
  constructor
  · intro h
    split at h
    · rename_i hempty
      cases h
      exact ⟨hempty, rfl⟩
    · cases h
  · rintro ⟨hempty, rfl⟩
    exact if_pos hempty

/-- The functions of a program without type errors are well typed. -/
theorem wellTyped_of_check (h : (check source).errors = []) :
    ∀ f ∈ (check source).program.functions, f.WellTyped (check source).program := by
  obtain ⟨t, functions, hall⟩ := checkedAll_of_check h
  exact hall.wellTyped

/-- **Type inference is sound.** The functions of a program that passes are the typed forms of its
definitions. Their types hold no variable and no error, every expression and pattern satisfies
the rule of its form, and the types are those that the annotations ask for. -/
theorem infer_sound {source : Source.Program} {p : Typed.Program} (h : infer source = .ok p) :
    (∀ f ∈ p.functions, f.WellTyped p) ∧
      List.Forall₂ (fun kd f => Source.Definition.TypedAs p.records kd.1 kd.2 f)
        source.definitions p.functions := by
  obtain ⟨herrors, rfl⟩ := infer_eq_ok.1 h
  obtain ⟨t, functions, hall⟩ := checkedAll_of_check (List.isEmpty_iff.1 herrors)
  exact ⟨hall.wellTyped, hall.typedAs⟩

/-- A program with a record, a method that takes the record apart and a function that leaves its
result type and the elements of a list to inference. -/
def pairSource : Source.Program :=
  let at0 : Span := ⟨0, 0⟩
  let id (name : String) : Ident := ⟨name, at0⟩
  let int : TypeExpr := .named at0 (id "int")
  [.record at0 (id "Pair") [⟨at0, id "fst", int⟩, ⟨at0, id "snd", int⟩],
   .methods at0 (id "Pair") [⟨at0, id "pick", [⟨at0, id "xs", .bareList at0⟩], some int,
     .cases at0 (.ident at0 (id "self"))
       [⟨at0, .record at0 (id "Pair") [⟨at0, id "snd", .binding at0 (id "y")⟩,
           ⟨at0, id "fst", .literal at0 (.int 0)⟩],
         some (.binary at0 .gt (.ident at0 (id "y")) (.literal at0 (.int 1))),
         .ident at0 (id "y")⟩,
        ⟨at0, .wildcard at0, none, .field at0 (.ident at0 (id "self")) (id "fst")⟩]⟩],
   .function at0 ⟨at0, id "main", [], none,
     .methodCall at0 (.record at0 (id "Pair") [⟨at0, id "snd", .literal at0 (.int 2)⟩,
       ⟨at0, id "fst", .literal at0 (.int 0)⟩]) (id "pick")
       [.list at0 [.literal at0 (.bool true)]]⟩]

theorem infer_sound_pairSource : infer pairSource = .ok (check pairSource).program ∧
    (check pairSource).program.functions.length = 2 ∧
    (∀ f ∈ (check pairSource).program.functions, f.WellTyped (check pairSource).program) ∧
      List.Forall₂ (fun kd f => Source.Definition.TypedAs (check pairSource).program.records kd.1
        kd.2 f) pairSource.definitions (check pairSource).program.functions :=
  have hok := infer_eq_ok.2 ⟨by decide +kernel, rfl⟩
  ⟨hok, by decide +kernel, infer_sound hok⟩

end Infer

end Sluice
