import Sluice.Proofs.Infer.Replay

/-!
# Bodies checked again

The bodies of a program are written back with their types spelled out and
checked again, one after the other. The tables of the two runs stay linked from
body to body, and every function is found the same.
-/

namespace Sluice

open List

/-! ## Writing back -/

namespace Typed

variable {f : Ty → Ty} (L : List Local)

mutual

/-- What is written of a pattern does not depend on its types. -/
@[simp] theorem Pattern.source_mapTy : ∀ q : Pattern, (q.mapTy f).source L = q.source L
  | .wildcard _ | .binding _ _ | .literal _ _ => rfl
  | .record _ _ fields => by
    rw [mapTy, source, source, sourceFields_mapTy fields]
    rfl

theorem Pattern.sourceFields_mapTy : ∀ fields : List (Field Pattern),
    sourceFields L (mapFieldsTy f fields) = sourceFields L fields
  | [] => rfl
  | ⟨_, _, _, q⟩ :: rest => by
    rw [mapFieldsTy, sourceFields, sourceFields, source_mapTy q, sourceFields_mapTy rest]

end

mutual

/-- What is written of an expression does not depend on its types. -/
@[simp] theorem Expr.source_mapTy : ∀ e : Expr, (e.mapTy f).source L = e.source L
  | .literal _ _ | .var _ _ | .function _ _ => rfl
  | .letIn _ _ a b => by
    simp only [mapTy, source, source_mapTy a, source_mapTy b, Info.mapTy]
  | .ifThen _ a b | .binary _ _ a b => by
    simp only [mapTy, source, source_mapTy a, source_mapTy b, Info.mapTy]
  | .ifElse _ c a b => by
    simp only [mapTy, source, source_mapTy c, source_mapTy a, source_mapTy b, Info.mapTy]
  | .field _ a _ _ | .unary _ _ a => by
    simp only [mapTy, source, source_mapTy a, Info.mapTy]
  | .block _ es | .list _ es | .callFunction _ _ es => by
    simp only [mapTy, source, sourceList_mapTy es, Info.mapTy]
  | .callMethod _ _ _ _ [] => rfl
  | .callMethod _ _ _ _ (e :: es) => by
    simp only [mapTy, mapListTy, source, source_mapTy e, sourceList_mapTy es, Info.mapTy]
  | .record _ _ fields => by
    simp only [mapTy, source, sourceFields_mapTy fields, Info.mapTy]
  | .callValue _ a es => by
    simp only [mapTy, source, source_mapTy a, sourceList_mapTy es, Info.mapTy]
  | .cases _ _ a arms => by
    simp only [mapTy, source, source_mapTy a, sourceArms_mapTy arms, Info.mapTy]

theorem Expr.sourceList_mapTy : ∀ es : List Expr,
    sourceList L (mapListTy f es) = sourceList L es
  | [] => rfl
  | e :: rest => by
    simp only [mapListTy, sourceList, source_mapTy e, sourceList_mapTy rest]

theorem Expr.sourceFields_mapTy : ∀ fields : List (Field Expr),
    sourceFields L (mapFieldsTy f fields) = sourceFields L fields
  | [] => rfl
  | ⟨_, _, _, e⟩ :: rest => by
    simp only [mapFieldsTy, sourceFields, source_mapTy e, sourceFields_mapTy rest]

theorem Expr.sourceArms_mapTy : ∀ arms : List (Arm Expr),
    sourceArms L (mapArmsTy f arms) = sourceArms L arms
  | [] => rfl
  | ⟨_, q, none, body⟩ :: rest => by
    simp only [mapArmsTy, sourceArms, Pattern.source_mapTy L q, source_mapTy body,
      sourceArms_mapTy rest]
  | ⟨_, q, some guard, body⟩ :: rest => by
    simp only [mapArmsTy, sourceArms, Pattern.source_mapTy L q, source_mapTy guard,
      source_mapTy body, sourceArms_mapTy rest]

end

end Typed

namespace Infer

open Typed (Function Local LocalId localIdent)
open Unify (Link Linked Table)
open Unify.Table (Solves)

variable {g : Globals} {L : List Local} {θ : TyVar → Ty} {n : Nat} {R : Link} {s s' s1 : State}
  {t t' t1 : Table} {p : Pending} {f : Function} {params : List (Source.Ident × Ty)}
  {ids : List LocalId}

/-! ## Parameters -/

theorem ParamsStep.locals_grow
    (h : ParamsStep scope s params ids scope' s') : s.locals <+: s'.locals := by
  induction h with
  | nil => exact prefix_refl _
  | cons _ ih => exact (prefix_append _ _).trans ih

/-- The locals of the parameters are in the end what they were declared as. -/
theorem ParamsStep.map_getD (h : ParamsStep scope s params ids scope' s')
    (hL : readLocals θ s'.locals <+: L) :
    ids.map (L.getD · default) = params.map fun q => ⟨q.1.span, q.1.name, q.2.subst θ⟩ := by
  induction h with
  | nil => rfl
  | @cons _ _ s _ name ty _ _ hrest ih =>
    have hfirst := (List.IsPrefix.map _ hrest.locals_grow).trans hL
    rw [map_cons, map_cons, ih hL, getD_of_readLocals hfirst (s.getElem?_declare name ty)]

/-- Parameters are declared again with their types read. -/
theorem ParamsStep.replay (hθ : ∀ v, (θ v).Sound 0)
    (h : ParamsStep scope s params ids scope' s1) : ∀ {s'}, Sim θ n R s s' →
    (∀ q ∈ params, q.2.Sound n) → ∃ s1',
      ParamsStep scope s' (params.map fun q => (q.1, q.2.subst θ)) ids scope' s1' ∧
      Follows θ n R R s s' s1 s1' := by
  induction h with
  | nil => exact fun hsim _ => ⟨_, .nil, .refl hsim⟩
  | @cons _ _ s _ name ty _ ids _ ih =>
    intro s' hsim hparams
    obtain ⟨hty, hrest⟩ := forall_mem_cons.1 hparams
    have hf := hsim.declare name (hsim.tied_fixed hθ hty)
    obtain ⟨s1', hstep, hf'⟩ := ih hf.sim hrest
    rw [← hsim.length_eq] at hstep ⊢
    exact ⟨s1', .cons hstep, hf.trans hf'⟩

/-! ## Bodies -/

/-- A body as it is queued when its function is written back. -/
def Pending.again (θ : TyVar → Ty) (p : Pending) (f : Function) : Pending :=
  ⟨(f.mapTy (Ty.subst θ)).source, p.kind, p.symbol, p.signature.read θ⟩

theorem zip_map_fst (h : β → γ) : ∀ (as : List α) (bs : List β),
    ((as.zip bs).map (·.1)).zip (bs.map h) = (as.zip bs).map fun q => (q.1, h q.2)
  | [], _ => rfl
  | _ :: _, [] => rfl
  | _ :: as, _ :: bs => congrArg _ (zip_map_fst h as bs)

/-- The parameters of a body that is queued again are those of before with their types read. -/
theorem Pending.params_again (hkind : f.kind = p.kind) (hspan : f.span = p.definition.span)
    (hparams : f.params.map (localIdent (readLocals θ f.locals)) = p.params.map (·.1)) :
    (p.again θ f).params = p.params.map fun q => (q.1, q.2.subst θ) := by
  have hnames : ∀ ids : List LocalId, (ids.map (Typed.paramSource (readLocals θ f.locals))).map
      (·.name) = ids.map (localIdent (readLocals θ f.locals)) := fun ids => by
    rw [map_map]
    rfl
  have hsig : (p.again θ f).signature.params = p.signature.params.map (·.subst θ) :=
    Ty.substList_eq_map θ _
  cases hk : p.kind with
  | free =>
    have heq : (p.again θ f).params = ((f.params.map
        (Typed.paramSource (readLocals θ f.locals))).map (·.name)).zip
          (p.again θ f).signature.params := by
      simp only [params, again, Function.source, Function.mapTy, hk, hkind.trans hk]
      rfl
    rw [heq, hnames, hparams, hsig]
    simp only [params, hk]
    exact zip_map_fst _ _ _
  | method owner name =>
    have heq : (p.again θ f).params = ((⟨"self", f.span⟩ : Source.Ident) :: (f.params.tail.map
        (Typed.paramSource (readLocals θ f.locals))).map (·.name)).zip
          (p.again θ f).signature.params := by
      simp only [params, again, Function.source, Function.mapTy, hk, hkind.trans hk]
      rfl
    rw [heq, hnames, map_tail, hparams, hsig, hspan]
    simp only [params, hk]
    cases p.signature.params with
    | nil => rfl
    | cons ty rest => exact congrArg _ (zip_map_fst _ _ _)

/-- **A body that passed passes again,** and its function is found the same. -/
theorem BodyStep.replay (c : Replayable g (readLocals θ f.locals) θ n) (h : BodyStep g p t f s1)
    (hlinked : Linked θ n R t t') (hθ : Solves θ s1.table) (hp : p.signature.ty.Sound n)
    (hfits : p.Fits) (hprim : ComparesPrims θ f.body.parts) : ∃ f' s1' R1,
      BodyStep (g.read θ) (p.again θ f) t' f' s1' ∧ Linked θ n R1 s1.table s1'.table ∧
      R1.Narrows R ∧ R1.Same Function.mapTy f f' := by
  obtain ⟨hparams_sound, hret_sound⟩ := Ty.Sound.fn_iff.1 hp
  -- a body starts without locals
  have hstart : Sim θ n R { table := t } { table := t' } :=
    ⟨⟨hlinked.left_sound, nofun⟩, ⟨hlinked.right_sound, nofun⟩, hlinked, .nil, rfl⟩
  cases h with
  | @mk params scope body s2 s3 _ hparams hgrows hbody hunify =>
    have hfore : Foreseen θ (readLocals θ s1.locals) s1 := ⟨hθ, prefix_refl _⟩
    have hfore3 := hfore.back hunify.grows
    obtain ⟨s2', hparams', hf2⟩ := hparams.replay c.ground hstart
      fun q hq => hparams_sound q.2 (hfits q hq)
    obtain ⟨body', s3', R3, hbody', hf3, hsame⟩ := c.replayed _ hbody hf2.sim hfore3 hprim
    obtain ⟨s1', R1, hunify', hf1⟩ := hf3.sim.unifies hunify hθ
      (hf3.sim.tied_fixed c.ground hret_sound) (hbody.tied hbody' hsame)
    -- the parameters are written by the names of the locals that they declared
    have hidents := congrArg (List.map fun l : Local => (⟨l.name, l.span⟩ : Source.Ident))
      (hparams.map_getD (hfore3.back hbody.grows).locals_read)
    rw [map_map, map_map] at hidents
    rw [← Pending.params_again (p := p) (θ := θ) (f := ⟨p.definition.span, p.symbol, p.kind, params,
      s1.locals, p.signature.ret, s1.matchCount, body⟩) rfl rfl hidents] at hparams'
    rw [← body.source_mapTy (f := Ty.subst θ)] at hbody'
    refine ⟨_, s1', R1, .mk hparams' hf2.right_grows hbody' hunify', hf1.sim.linked,
      hf1.narrows.trans hf3.narrows, fun ψ φ hR => ?_⟩
    have hlocals : s1.locals.map (fun l => { l with ty := l.ty.subst ψ }) =
        s1'.locals.map fun l => { l with ty := l.ty.subst φ } := by
      rw [← forall₂_eq_eq_eq, forall₂_map_left_iff, forall₂_map_right_iff]
      refine hf1.sim.locals_alike.imp fun l l' hl => ?_
      rw [hl.span_eq, hl.name_eq, hl.ty_alike hR]
    have hret := (hf1.sim.tied_fixed c.ground hret_sound).alike hR
    simp only [Function.mapTy, hlocals, hret, hsame (hf1.narrows hR), hf1.sim.matchCount_eq]
    rfl

/-- **All bodies pass again,** and the functions are found the same. -/
theorem BodiesRun.replay (h : BodiesRun g t pending fs t1) : ∀ {R t'}, Linked θ n R t t' →
    Solves θ t1 → (∀ f ∈ fs, Replayable g (readLocals θ f.locals) θ n ∧
      ComparesPrims θ f.body.parts) →
    (∀ p ∈ pending, p.signature.ty.Sound n ∧ p.Fits) → ∃ fs' t1' R1,
      BodiesRun (g.read θ) t' (List.zipWith (Pending.again θ) pending fs) fs' t1' ∧
      Linked θ n R1 t1 t1' ∧ R1.Narrows R ∧ Forall₂ (R1.Same Function.mapTy) fs fs' := by
  induction h with
  | nil =>
    intro R t' hlinked _ _ _
    exact ⟨[], t', R, .nil, hlinked, .refl R, .nil⟩
  | @cons t _ p _ f _ s h hrest ih =>
    intro R t' hlinked hθ hfs hpending
    obtain ⟨⟨c, hprim⟩, hfs⟩ := forall_mem_cons.1 hfs
    obtain ⟨⟨hp, hfits⟩, hpending⟩ := forall_mem_cons.1 hpending
    -- the marks around a body change nothing that the tables say
    have hcommit := Refines.commit h.refines.sound
    have hθ1 := hcommit.solves θ ((hrest.refines hcommit.sound).solves θ hθ)
    have hmarked : Linked θ n R t.snapshot.2 t'.snapshot.2 :=
      hlinked.congr rfl rfl rfl rfl rfl rfl
    obtain ⟨f', s', R1, hbody, hlinked1, hR1, hsame⟩ := h.replay c hmarked hθ1 hp hfits hprim
    have hkept : Linked θ n R1 s.table.commit s'.table.commit :=
      hlinked1.congr rfl rfl rfl rfl rfl rfl
    obtain ⟨fs', t1', R2, hbodies, hlinked2, hR2, hsames⟩ := ih hkept hθ hfs hpending
    exact ⟨f' :: fs', t1', R2, .cons hbody hbodies, hlinked2, hR2.trans hR1,
      .cons (hsame.narrow hR2) hsames⟩

end Infer

end Sluice
