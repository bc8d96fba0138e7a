import Sluice.Proofs.Infer.Again
import Sluice.Proofs.Infer.Equality
import Sluice.Proofs.Infer.Names
import Sluice.Proofs.Infer.Redeclare
import Sluice.Proofs.Infer.Resolved

/-!
# Programs written back

A program that passed can be written back as source, with all types spelled out.
It passes again, and what comes out is the same program: the same records, the
same functions in the same order, and the same types in all places. Two things
are needed for that. The types of the fields must be known, since an open one
cannot be written. And equality must be applied to primitive types, since
operands whose type is known from the start are looked at more closely.
-/

namespace Sluice

open List

/-! ## What types are in the end -/

namespace Unify.Table

variable {t : Table}

/-- What a variable stands for in the end. What is still open then is taken for unit. -/
def final (t : Table) (v : TyVar) : Ty :=
  (t.resolveVar t.size v).subst fun _ => .unit

theorem Sound.final_closed (ht : t.Sound) (v : TyVar) : (t.final v).Sound 0 where
  lt_of_mem w hw := by
    obtain ⟨_, -, hw⟩ := Ty.mem_vars_subst.1 hw
    exact nomatch hw
  no_error := Ty.hasError_subst (ht.resolveVar_no_error _ v) fun _ _ => rfl

theorem Solves.subst (h : Solves θ t) (f : TyVar → Ty) : Solves (fun v => (θ v).subst f) t := by
  intro v
  simp only
  rw [h v]
  cases t.binding? v with
  | none => rfl
  | some ty => exact Ty.subst_subst _ _ ty

theorem Sound.solves_final (ht : t.Sound) : Solves t.final t :=
  ht.solves_resolve.subst _

/-- A type that is known in the end is the same under every solution. -/
theorem Solves.subst_of_closed (h : Solves θ t) (ht : t.Sound)
    (hty : (t.resolve ty).Sound 0) : ty.subst θ = t.resolve ty := by
  rw [← h.subst_resolve ht.toIsForest, hty.subst_of_closed]

end Unify.Table

namespace Infer

open Source (RecordFollows)
open Typed (Function Local recordSource)
open Unify (Table)
open Unify.Table (Solves)

variable {source : Source.Program} {p : Typed.Program} {t : Table} {fs : List Function}
  {g : Globals} {θ : TyVar → Ty} {q : Pending} {f : Function} {pending : List Pending}
  {records : RecordTable}

/-! ## Functions and their entries in the queue -/

/-- A function is what became of a body in the queue. -/
structure Embodies (θ : TyVar → Ty) (q : Pending) (f : Function) : Prop where
  span_eq : f.span = q.definition.span
  name_eq : f.name = q.symbol
  kind_eq : f.kind = q.kind
  ret_eq : f.ret = q.signature.ret
  params_eq : f.params.map ((readLocals θ f.locals).getD · default) =
    q.params.map fun x => ⟨x.1.span, x.1.name, x.2.subst θ⟩

theorem BodiesRun.embodies (h : BodiesRun g t pending fs t') (θ : TyVar → Ty) :
    Forall₂ (Embodies θ) pending fs := by
  induction h with
  | nil => exact .nil
  | cons h _ ih =>
    refine .cons ?_ ih
    cases h with
    | mk hparams _ hbody hret =>
      exact ⟨rfl, rfl, rfl, rfl, hparams.map_getD
        (List.IsPrefix.map _ (hbody.grows.locals_grow.trans hret.grows.locals_grow))⟩

theorem Pending.function?_again (θ : TyVar → Ty) (q : Pending) (f : Function) :
    (q.again θ f).function? = q.function?.map fun x => (x.1, x.2.read θ) := by
  rw [function?, function?, again]
  cases q.kind <;> rfl

namespace Embodies

theorem methodOf?_again (h : Embodies θ q f) (owner : String) :
    (q.again θ f).methodOf? owner =
      (q.methodOf? owner).map fun m => { m with ty := m.ty.subst θ } := by
  have hspan : (f.mapTy (Ty.subst θ)).source.span = q.definition.span := h.span_eq
  rw [Pending.methodOf?, Pending.methodOf?, Pending.again]
  cases q.kind with
  | free => rfl
  | method record name =>
    simp only [hspan]
    split <;> rfl

/-- The parameters that are written have the types that callers are told. -/
theorem params_again (h : Embodies θ q f) (hq : q.Follows records kind definition) :
    (q.again θ f).signature.params = (Source.receiver f.kind).map (·.2) ++
      (writtenParams (f.mapTy (Ty.subst θ))).map (·.ty) := by
  have hkind : f.kind = kind := h.kind_eq.trans hq.kind_eq
  have htys := congrArg (List.map Local.ty) h.params_eq
  have hsig : (q.params.map fun x => (⟨x.1.span, x.1.name, x.2.subst θ⟩ : Local)).map Local.ty =
      q.signature.params.map (Ty.subst θ) := by
    rw [← hq.params_eq'.1, map_map, map_map]
    rfl
  rw [hsig] at htys
  have hread : (q.again θ f).signature.params = q.signature.params.map (Ty.subst θ) :=
    Ty.substList_eq_map θ _
  obtain ⟨tys, hparams, -⟩ := hq.params_eq
  rw [hread, writtenParams]
  have hkind' : (f.mapTy (Ty.subst θ)).kind = kind := hkind
  cases kind with
  | free =>
    rw [hkind, hkind', ← htys]
    rfl
  | method owner name =>
    -- the receiver is not written
    have htail := congrArg List.tail htys
    rw [← map_tail, ← map_tail, hparams] at htail
    rw [hkind, hkind', hparams]
    exact congrArg (Ty.record owner :: ·) htail.symm

/-- What a function is written back as is entered in the queue again. -/
theorem writes (h : Embodies θ q f) (hq : q.Follows records kind definition)
    (hspell : (q.signature.ty.subst θ).Spellable records') :
    Writes records' (f.mapTy (Ty.subst θ)) (q.again θ f) := by
  have hparams := h.params_again hq
  obtain ⟨hclosed, hret_closed⟩ := Ty.Sound.fn_iff.1 hspell.closed
  obtain ⟨hnamed, hret_named⟩ := Ty.named_fn_iff.1 hspell.named
  have hret : (f.mapTy (Ty.subst θ)).ret = q.signature.ret.subst θ := congrArg _ h.ret_eq
  refine ⟨rfl, h.kind_eq.symm, ?_, hparams, hret.symm, fun l hl => ?_,
    ⟨hret ▸ hret_closed, hret ▸ hret_named⟩⟩
  · have hsymbol := hq.symbol_eq
    have hkind : f.kind = kind := h.kind_eq.trans hq.kind_eq
    show q.symbol = Source.Definition.symbol _ f.kind
    cases kind with
    | free =>
      rw [hkind, Source.Definition.symbol, Function.source]
      simp only [Function.mapTy, hkind, h.name_eq]
    | method owner name =>
      rw [hkind, hsymbol]
      rfl
  · have hmem : l.ty ∈ (q.again θ f).signature.params := by
      rw [hparams]
      exact mem_append_right _ (mem_map_of_mem hl)
    exact ⟨hclosed _ hmem, hnamed _ hmem⟩

end Embodies

theorem filterMap_again {find : Pending → Option α} {read : α → α}
    (hentry : ∀ {q f}, Embodies θ q f → find (q.again θ f) = (find q).map read)
    (h : Forall₂ (Embodies θ) pending fs) :
    (List.zipWith (Pending.again θ) pending fs).filterMap find =
      (pending.filterMap find).map read := by
  induction h with
  | nil => rfl
  | @cons q f _ _ hq _ ih =>
    rw [zipWith_cons_cons, filterMap_cons, filterMap_cons, hentry hq, ih]
    cases find q <;> rfl

theorem forall₂_again (h : Forall₂ (Embodies θ) pending fs)
    (hR : ∀ q ∈ pending, ∀ f, Embodies θ q f → R (f.mapTy (Ty.subst θ)) (q.again θ f)) :
    Forall₂ R (fs.map (·.mapTy (Ty.subst θ))) (List.zipWith (Pending.again θ) pending fs) := by
  induction h with
  | nil => exact .nil
  | cons hq _ ih =>
    obtain ⟨hfirst, hrest⟩ := forall_mem_cons.1 hR
    exact .cons (hfirst _ hq) (ih hrest)

/-! ## Programs -/

theorem Apart.mapTy (h : Apart ⟨rs⟩) (f : Ty → Ty) : Apart ⟨rs.map (RecordDecl.mapTy f)⟩ where
  distinct := by
    rw [RecordTable.Distinct, map_map]
    exact h.distinct
  not_builtin r hr := by
    obtain ⟨r0, hr0, rfl⟩ := mem_map.1 hr
    exact h.not_builtin r0 hr0

/-- A program passed, and no type of a field is left open. -/
structure Writable (source : Source.Program) (p : Typed.Program) (t : Table) (fs : List Function) :
    Prop extends CheckedAll source p t fs where
  run : BodiesRun (declare source).globals (declare source).table (declare source).pending fs t
  field_closed : ∀ r ∈ p.records.records, ∀ d ∈ r.fields, d.ty.Sound 0

namespace Writable

variable (h : Writable source p t fs)
include h

/-- The functions of the program are the checked ones under every solution. -/
theorem functions_read (hθ : Solves θ t) : fs.map (·.mapTy (Ty.subst θ)) = p.functions := by
  rw [h.functions_eq]
  refine map_congr_left fun f hf => f.mapTy_congr fun site hsite => ?_
  refine hθ.subst_of_closed h.table_sound (Ty.isUnresolved_eq_false.1 ?_)
  refine h.resolved f hf (site.mapTy t.resolve) ?_
  rw [Function.sites_mapTy]
  exact mem_map_of_mem hsite

/-- The records of the program are the declared ones under every solution. -/
theorem records_read (hθ : Solves θ t) :
    (declare source).globals.records.mapTy (Ty.subst θ) = p.records := by
  have hmem : ∀ r ∈ (declare source).globals.records.records,
      r.mapTy t.resolve ∈ p.records.records := fun r hr => by
    rw [h.records_eq]
    exact mem_map_of_mem hr
  rw [h.records_eq]
  refine RecordTable.mapTy_congr fun r hr => ⟨fun d hd => ?_, fun m hm => ?_⟩
  · exact hθ.subst_of_closed h.table_sound
      (h.field_closed _ (hmem r hr) _ (mem_map_of_mem hd))
  · exact hθ.subst_of_closed h.table_sound (h.method_closed (hmem r hr) (mem_map_of_mem hm))

theorem named :
    t.Binds (Ty.Named (declare source).globals.records) ∧
      ∀ f ∈ fs, ∀ l ∈ f.locals, l.ty.Named (declare source).globals.records := by
  obtain ⟨rs, hentries, -, hfollows⟩ := declare_entries h.declared.no_errors
  exact h.run.named (hentries.named hfollows)
    (fun q hq => ⟨hentries.signature_named q hq, h.fits hq⟩)
    fun v ty hv => (hentries.unbound v ty hv).elim

/-- Types that mention declared records only can be spelled out in the end. -/
theorem spellable {ty : Ty} (hty : ty.Sound n)
    (hnamed : ty.Named (declare source).globals.records) :
    (ty.subst t.final).Spellable (declare source).globals.records := by
  refine ⟨hty.subst_closed h.table_sound.final_closed, hnamed.subst fun v => ?_⟩
  have hvar : (t.resolve (.var v)).Named (declare source).globals.records :=
    resolve_named h.named.1 trivial
  exact Ty.Named.subst (fun _ => show Ty.Named _ .unit from trivial) hvar

theorem local_spellable (hf : f ∈ fs) :
    ∀ l ∈ readLocals t.final f.locals, l.ty.Spellable (declare source).globals.records := by
  obtain ⟨q, -, hbody⟩ := exists_of_forall₂_right h.bodies hf
  intro l' hl'
  obtain ⟨l, hl, rfl⟩ := mem_map.1 hl'
  refine h.spellable (hbody.sites_sound ⟨l.span, l.ty⟩ (mem_append_left _ ?_))
    (h.named.2 f hf l hl)
  exact mem_map_of_mem (f := fun l : Local => (⟨l.span, l.ty⟩ : Typed.Info)) hl

/-- The body of a function can be checked again. -/
theorem replayable (hf : f ∈ fs) :
    Replayable (declare source).globals (readLocals t.final f.locals) t.final
      (declare source).table.size where
  ground := h.table_sound.final_closed
  globals_sound := h.declared.globals_sound
  no_builtin := by
    obtain ⟨rs, hentries, hapart, -⟩ := declare_entries h.declared.no_errors
    exact hapart.noBuiltin.congr fun name => (hentries.contains_eq name).symm
  local_spellable := h.local_spellable hf

/-- Operands that are primitive in the program are so in the end. -/
theorem comparesPrim (hf : f ∈ fs)
    (hequated : ∀ f ∈ p.functions, ∀ ab ∈ f.body.equated, ∃ q, ab.1.ty = .prim q) :
    ComparesPrims t.final f.body.parts := by
  intro x hx
  cases x with
  | binary info op lhs rhs =>
    intro hop
    have hpart : Typed.Expr.binary (info.mapTy t.resolve) op (lhs.mapTy t.resolve)
        (rhs.mapTy t.resolve) ∈ (f.body.mapTy t.resolve).parts := by
      rw [Typed.Expr.parts_mapTy]
      exact mem_map.2 ⟨_, hx, rfl⟩
    have hmem : f.mapTy t.resolve ∈ p.functions := by
      rw [h.functions_eq]
      exact mem_map_of_mem hf
    obtain ⟨q, hq⟩ := hequated _ hmem _ (Typed.Expr.mem_equated.2 ⟨_, op, hop, hpart⟩)
    rw [Typed.Expr.ty_mapTy] at hq
    refine ⟨q, ?_⟩
    rw [h.table_sound.solves_final.subst_of_closed h.table_sound, hq]
    rw [hq]
    exact .of_prim q
  | _ => exact trivial

/-- The fields of a declared record can be spelled out in the end. -/
theorem field_spellable (hr : (declare source).globals.records.get? name = some r) :
    ∀ x ∈ (r.mapTy (Ty.subst t.final)).fields, x.ty.Spellable (declare source).globals.records := by
  obtain ⟨rs, hentries, -, hfollows⟩ := declare_entries h.declared.no_errors
  intro x hx
  obtain ⟨x0, hx0, rfl⟩ := mem_map.1 hx
  exact h.spellable (h.declared.globals_sound.field_sound _ _ hr x0 hx0)
    ((hentries.named hfollows).field_named _ _ hr x0 hx0)

/-- The functions of the program are written back under the entries that are queued again. -/
theorem writes
    (hrecords : ∀ name, (declare source).globals.records.contains name = records.contains name) :
    Forall₂ (Writes records) p.functions
      (List.zipWith (Pending.again t.final) (declare source).pending fs) := by
  obtain ⟨rs, hentries, -, -⟩ := declare_entries h.declared.no_errors
  rw [← h.functions_read h.table_sound.solves_final]
  refine forall₂_again (h.run.embodies t.final) fun q hq f hqf => ?_
  obtain ⟨kd, -, hfollow⟩ := exists_of_forall₂_right h.definitions hq
  have hspell := h.spellable (h.declared.pending_sound q hq) (hentries.signature_named q hq)
  exact hqf.writes hfollow (hspell.congr hrecords)

/-- **What is declared again** is what was declared, as it is in the end. -/
theorem declare_again : declare p.source =
    { globals := (declare source).globals.read t.final
      pending := List.zipWith (Pending.again t.final) (declare source).pending fs } := by
  obtain ⟨rs, hentries, hapart, hfollows⟩ := declare_entries h.declared.no_errors
  let rs' := rs.map (RecordDecl.mapTy (Ty.subst t.final))
  have hcontains : ∀ name, (declare source).globals.records.contains name =
      RecordTable.contains ⟨rs'⟩ name := fun name => by
    rw [hentries.contains_eq]
    exact Declared.contains_congr (by rw [map_map]; rfl) name
  have hembodies := h.run.embodies t.final
  have hwrites := h.writes hcontains
  have hfunctions := filterMap_again (fun {q f} _ => Pending.function?_again t.final q f) hembodies
  have hmethods := fun owner =>
    filterMap_again (fun {_ _} hq => Embodies.methodOf?_again hq owner) hembodies
  generalize List.zipWith (Pending.again t.final) (declare source).pending fs = qs
    at hwrites hfunctions hmethods ⊢
  -- what is entered for the queue is what was entered for the first one
  have hrecords : ((declare source).globals.records.mapTy (Ty.subst t.final)).records =
      rs'.map fun r => { r with methods := qs.filterMap (Pending.methodOf? r.name) } := by
    rw [RecordTable.mapTy, hentries.records_eq, map_map, map_map]
    refine map_congr_left fun r _ => ?_
    simp only [Function.comp, RecordDecl.mapTy, hmethods]
  have hspelled : Declared.spelled rs' qs =
      { globals := (declare source).globals.read t.final, pending := qs } := by
    rw [Declared.spelled, hfunctions, ← hentries.functions_eq, ← hrecords]
    rfl
  rw [← hspelled]
  refine declare_source ?_ (hapart.mapTy _) (fun r hr => ?_) hwrites ?_ (fun owner => ?_)
    fun f hf owner name hkind => ?_
  · rw [← h.records_read h.table_sound.solves_final, hrecords, map_map]
    rfl
  · obtain ⟨r0, hr0, rfl⟩ := mem_map.1 hr
    have hget := hentries.get?_of_mem hapart.distinct hr0
    have hnodup := h.declared.globals_sound.fields_nodup _ _ hget
    refine ⟨fun x hx => (h.field_spellable hget x hx).congr hcontains, ?_⟩
    rw [RecordDecl.mapTy, map_map]
    exact hnodup
  · rw [hfunctions, map_map]
    exact hentries.functions_eq ▸ hentries.functions_nodup
  · rw [hmethods, map_map]
    exact hentries.nodup_methods owner
  · rw [← h.functions_read h.table_sound.solves_final] at hf
    obtain ⟨f0, hf0, rfl⟩ := mem_map.1 hf
    obtain ⟨q, hq, hqf⟩ := exists_of_forall₂_right hembodies hf0
    obtain ⟨r, hr, hname⟩ := hentries.owner_declared q hq owner name (hqf.kind_eq.symm.trans hkind)
    exact RecordTable.contains_eq_true.2 ⟨_, mem_map_of_mem hr, hname⟩

/-- **All bodies pass again,** and the functions are those of the program. -/
theorem bodies_again (hequated : ∀ f ∈ p.functions, ∀ ab ∈ f.body.equated, ∃ q, ab.1.ty = .prim q) :
    ∃ fs' t', BodiesRun (declare p.source).globals (declare p.source).table
      (declare p.source).pending fs' t' ∧ fs'.map (·.mapTy t'.resolve) = p.functions := by
  have hθ := h.table_sound.solves_final
  have hlinked := Unify.Linked.start h.declared.table_sound Table.sound_empty
    ((h.run.refines h.declared.table_sound).solves _ hθ)
  obtain ⟨fs', t', R, hrun, hlinked', -, hsame⟩ := h.run.replay hlinked hθ
    (fun f hf => ⟨h.replayable hf, h.comparesPrim hf hequated⟩)
    fun q hq => ⟨h.declared.pending_sound q hq, h.fits hq⟩
  refine ⟨fs', t', by rw [h.declare_again]; exact hrun, ?_⟩
  -- what the second table reads types as is one way to read the first
  obtain ⟨ψ, hR⟩ := hlinked'.total _ hlinked'.right_sound.solves_resolve
  rw [← h.functions_read (hlinked'.left_solves hR), ← forall₂_eq_eq_eq,
    forall₂_map_left_iff, forall₂_map_right_iff]
  exact hsame.flip.imp fun _ _ hf => (hf hR).symm

end Writable

theorem finish_of_resolved (h : ∀ site ∈ (f.mapTy t.resolve).sites, site.ty.isUnresolved = false) :
    finish t f = .known (f.mapTy t.resolve) := by
  have hfind : (f.mapTy t.resolve).sites.find?
      (fun site => site.ty.isUnresolved && !site.ty.hasError) = none := by
    refine find?_eq_none.2 fun site hsite => ?_
    rw [h site hsite]
    exact Bool.false_ne_true
  have herror : (f.mapTy t.resolve).sites.any (·.ty.hasError) = false := by
    refine any_eq_false.2 fun site hsite => ?_
    rw [(Ty.isUnresolved_eq_false.1 (h site hsite)).no_error]
    exact Bool.false_ne_true
  simp only [finish, hfind, herror]
  rfl

/-- A program whose bodies all pass, with all types known in the end, passes. -/
theorem BodiesRun.infer (h : BodiesRun (declare source).globals (declare source).table
      (declare source).pending fs t') (herrors : (declare source).errors = [])
    (hresolved : ∀ f ∈ fs, ∀ site ∈ (f.mapTy t'.resolve).sites, site.ty.isUnresolved = false) :
    infer source = .ok ⟨(declare source).globals.records.mapTy t'.resolve,
      fs.map (·.mapTy t'.resolve)⟩ := by
  have hend := h.foldl_step [] []
  have hfinish : fs.map (finish t') = fs.map fun f => .known (f.mapTy t'.resolve) :=
    map_congr_left fun f hf => finish_of_resolved (hresolved f hf)
  refine infer_eq_ok.2 ?_
  rw [check]
  simp only [hend, nil_append, hfinish, herrors, filterMap_map, Function.comp_def, filterMap_none]
  rw [filterMap_eq_map']
  exact ⟨rfl, rfl⟩

/-- **Programs that are written back pass again,** and what comes out is the same program, if the
types of all fields are known and equality is applied to primitive types only. -/
theorem infer_source (h : infer source = .ok p)
    (hfields : ∀ r ∈ p.records.records, ∀ d ∈ r.fields, d.ty.isUnresolved = false)
    (hequated : ∀ f ∈ p.functions, ∀ ab ∈ f.body.equated, ∃ q, ab.1.ty = .prim q) :
    infer p.source = .ok p := by
  obtain ⟨herrors, rfl⟩ := infer_eq_ok.1 h
  have hnone := List.isEmpty_iff.1 herrors
  obtain ⟨-, hall⟩ := checkedAll_checkBodies hnone
  have hw : Writable source _ _ _ := ⟨hall, bodiesRun_of_check hnone,
    fun r hr d hd => Ty.isUnresolved_eq_false.1 (hfields r hr d hd)⟩
  obtain ⟨fs', t', hrun, hfunctions⟩ := hw.bodies_again hequated
  have hinfer := hrun.infer (by rw [hw.declare_again]) fun f hf => by
    have hmem : f.mapTy t'.resolve ∈ (check source).program.functions := by
      rw [← hfunctions]
      exact mem_map_of_mem hf
    exact (hall.wellTyped _ hmem).resolved
  -- the types of the records are known, so reading them again changes nothing
  have hrecords : (declare (check source).program.source).globals.records =
      (check source).program.records := by
    rw [hw.declare_again]
    exact hw.records_read hall.table_sound.solves_final
  have hsame : (check source).program.records.mapTy t'.resolve = (check source).program.records := by
    conv_rhs => rw [← RecordTable.mapTy_id (check source).program.records]
    refine RecordTable.mapTy_congr fun r hr => ⟨fun d hd => ?_, fun m hm => ?_⟩
    · exact (hw.field_closed r hr d hd).subst_of_closed _
    · exact (hall.method_closed hr hm).subst_of_closed _
  rw [hinfer, hrecords, hsame, hfunctions]

/-- A function that makes a record, a method in front of the record it belongs to, a list whose
elements are known from one use, and a field that is called like a method. -/
def shelfSource : Source.Program :=
  let at0 : Span := ⟨0, 0⟩
  let id (name : String) : Source.Ident := ⟨name, at0⟩
  let var (name : String) : Source.Expr := .ident at0 (id name)
  let int : Source.TypeExpr := .named at0 (id "int")
  [.function at0 ⟨at0, id "same", [⟨at0, id "n", int⟩], none, var "n"⟩,
   .methods at0 (id "Shelf") [⟨at0, id "count", [], none, .literal at0 (.int 1)⟩],
   .function at0 ⟨at0, id "make", [], none, .record at0 (id "Shelf")
     [⟨at0, id "pick", var "same"⟩, ⟨at0, id "items", .list at0 []⟩]⟩,
   .record at0 (id "Shelf")
     [⟨at0, id "items", .bareList at0⟩, ⟨at0, id "pick", .fn at0 [int] int⟩],
   .function at0 ⟨at0, id "use", [], none,
     .letIn at0 (id "shelf") none (.call at0 (var "make") [])
       (.cases at0 (.field at0 (var "shelf") (id "items"))
         [⟨at0, .binding at0 (id "items"),
           some (.binary at0 .eq (.methodCall at0 (var "shelf") (id "count") [])
             (.methodCall at0 (var "shelf") (id "pick") [.literal at0 (.int 1)])),
           var "items"⟩,
          ⟨at0, .wildcard at0, none, .list at0 [.literal at0 (.bool true)]⟩])⟩]

theorem infer_source_shelfSource : infer shelfSource = .ok (check shelfSource).program ∧
    (∀ r ∈ (check shelfSource).program.records.records, ∀ d ∈ r.fields, d.ty.isUnresolved = false) ∧
    (∀ f ∈ (check shelfSource).program.functions, ∀ ab ∈ f.body.equated, ab.1.ty = .int) ∧
    (∃ f ∈ (check shelfSource).program.functions, f.body.equated.length = 1) ∧
    infer (check shelfSource).program.source = .ok (check shelfSource).program := by
  have hok : infer shelfSource = .ok (check shelfSource).program :=
    infer_eq_ok.2 ⟨by decide +kernel, rfl⟩
  have hfields : ∀ r ∈ (check shelfSource).program.records.records, ∀ d ∈ r.fields,
      d.ty.isUnresolved = false := by decide +kernel
  have hequated : ∀ f ∈ (check shelfSource).program.functions, ∀ ab ∈ f.body.equated,
      ab.1.ty = .int := by decide +kernel
  exact ⟨hok, hfields, hequated, by decide +kernel,
    infer_source hok hfields fun f hf ab hab => ⟨.int, hequated f hf ab hab⟩⟩

end Infer

end Sluice
