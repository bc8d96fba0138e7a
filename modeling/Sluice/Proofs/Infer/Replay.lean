import Sluice.Proofs.Infer.Parallel
import Sluice.Proofs.Typing.Parts

/-!
# Checking what was checked

An expression that passed its check is written back as source with the types of
its locals spelled out, and checked again against the same declarations with
their types read. The second check runs side by side with the first one and
ends with the same tree: where the first one leaves a type open, the second one
has what becomes of it or leaves it open too.
-/

namespace Sluice

open List

namespace Infer

open Typed (Expr Info Local LocalId Pattern localIdent)
open Unify (Link Table)
open Unify.Table (Solves)

/-- A signature with its types read. -/
def Signature.read (θ : TyVar → Ty) (signature : Signature) : Signature :=
  ⟨Ty.substList θ signature.params, signature.ret.subst θ⟩

/-- What bodies can refer to, with the types read. -/
def Globals.read (θ : TyVar → Ty) (g : Globals) : Globals where
  records := g.records.mapTy (Ty.subst θ)
  functions := g.functions.map fun f => (f.1, f.2.read θ)

variable {g : Globals} {L : List Local} {θ ψ φ : TyVar → Ty} {n : Nat} {R R1 : Link} {scope : Scope}
  {s s' s1 s1' : State} {ty : Ty} {r : RecordDecl} {span : Span} {target : Source.Expr}

theorem Globals.function?_read (g : Globals) (name : String) :
    (g.read θ).function? name = (g.function? name).map (Signature.read θ) := by
  rw [function?, read, function?]
  induction g.functions with
  | nil => rfl
  | cons f rest ih =>
    rw [map_cons, lookup_cons, lookup_cons, ih]
    cases name == f.1 <;> rfl

theorem Globals.get?_read (g : Globals) (name : String) :
    (g.read θ).records.get? name = (g.records.get? name).map (RecordDecl.mapTy (Ty.subst θ)) :=
  g.records.get?_mapTy _ name

theorem Globals.read_sound (hθ : ∀ v, (θ v).Sound 0) (hg : g.Sound n) (m : Nat) :
    (g.read θ).Sound m := by
  have hrecord : ∀ name r, (g.read θ).records.get? name = some r →
      ∃ r0, g.records.get? name = some r0 ∧ r = r0.mapTy (Ty.subst θ) := by
    intro name r hr
    rw [get?_read] at hr
    obtain ⟨r0, hr0, rfl⟩ := Option.map_eq_some_iff.1 hr
    exact ⟨r0, hr0, rfl⟩
  refine ⟨fun name r hr d hd => ?_, fun name r hr => ?_, fun name r hr d hd => ?_,
    fun name sig hsig => ?_⟩
  · obtain ⟨r0, hr0, rfl⟩ := hrecord name r hr
    obtain ⟨d0, hd0, rfl⟩ := mem_map.1 hd
    exact ((hg.field_sound name r0 hr0 d0 hd0).subst_closed hθ).mono (Nat.zero_le m)
  · obtain ⟨r0, hr0, rfl⟩ := hrecord name r hr
    rw [RecordDecl.mapTy, map_map]
    exact hg.fields_nodup name r0 hr0
  · obtain ⟨r0, hr0, rfl⟩ := hrecord name r hr
    obtain ⟨d0, hd0, rfl⟩ := mem_map.1 hd
    exact ((hg.method_sound name r0 hr0 d0 hd0).subst_closed hθ).mono (Nat.zero_le m)
  · rw [function?_read] at hsig
    obtain ⟨sig0, hsig0, rfl⟩ := Option.map_eq_some_iff.1 hsig
    exact ((hg.function_sound name sig0 hsig0).subst_closed hθ).mono (Nat.zero_le m)

/-! ## What is spelled out -/

/-- The locals of a body can be spelled out: their types have no variables left, and mention
declared records that are not mistaken for something else. -/
structure Replayable (g : Globals) (L : List Local) (θ : TyVar → Ty) (n : Nat) : Prop where
  ground : ∀ v, (θ v).Sound 0
  globals_sound : g.Sound n
  no_builtin : NoBuiltin g.records
  local_spellable : ∀ l ∈ L, l.ty.Spellable g.records

/-- What is known to become of a state: how its types will be read, and its locals in the end. -/
structure Foreseen (θ : TyVar → Ty) (L : List Local) (s : State) : Prop where
  solves : Solves θ s.table
  locals_read : readLocals θ s.locals <+: L

theorem Foreseen.back (h : Foreseen θ L s1) (hgrows : Grows s s1) : Foreseen θ L s :=
  ⟨hgrows.refines.solves θ h.solves,
    List.IsPrefix.trans (List.IsPrefix.map _ hgrows.locals_grow) h.locals_read⟩

/-- A local is in the end what it was declared as. -/
theorem getD_of_readLocals {locals} (h : readLocals θ locals <+: L) {id l}
    (hl : locals[id]? = some l) : L.getD id default = { l with ty := l.ty.subst θ } := by
  rw [getD_eq_getElem?_getD, getElem?_of_readLocals h hl]
  rfl

/-- The name that a declared local is written with. -/
theorem Foreseen.localIdent_declare {name} (h : Foreseen θ L (s.declare name ty)) :
    localIdent L s.locals.length = name := by
  rw [localIdent, getD_of_readLocals h.locals_read (s.getElem?_declare name ty)]

namespace Replayable

variable (c : Replayable g L θ n)
include c

theorem read_sound (m : Nat) : (g.read θ).Sound m :=
  Globals.read_sound c.ground c.globals_sound m

theorem ready (h : Sim θ n R s s') (hready : Ready g scope s) : Ready (g.read θ) scope s' :=
  ⟨h.right_sound, c.read_sound _, h.inScope hready.in_scope⟩

/-- The type of a declared local is what its spelling names. -/
theorem annotated_local (h : Foreseen θ L (s.declare name ty)) (t : Table) :
    (ty.subst θ).Sound 0 ∧ annotated (g.read θ).records ((ty.subst θ).spelled name.span) t =
      .ok (ty.subst θ) t := by
  have hcontains : ∀ x, g.records.contains x = (g.read θ).records.contains x := fun x =>
    (g.records.contains_mapTy _ x).symm
  have hmem := mem_of_getElem?
    (getElem?_of_readLocals h.locals_read (s.getElem?_declare name ty))
  have hty := (c.local_spellable _ hmem).congr hcontains
  exact ⟨hty.closed, annotated_spelled (c.no_builtin.congr hcontains) _ t hty.closed hty.named⟩

omit c in
/-- A record that is found is found with its types read. -/
theorem get?_read {owner} (hr : g.records.get? owner = some r) :
    (g.read θ).records.get? owner = some (r.mapTy (Ty.subst θ)) := by
  rw [Globals.get?_read, hr]
  rfl

/-- A field that is found is found with its type read. -/
theorem field_read (h : Sim θ n R s s') (hr : g.records.get? owner = some r)
    (hd : r.field? name = some (i, d)) :
    (g.read θ).records.get? owner = some (r.mapTy (Ty.subst θ)) ∧
      (r.mapTy (Ty.subst θ)).field? name = some (i, { d with ty := d.ty.subst θ }) ∧
      Tied R s s' d.ty (d.ty.subst θ) := by
  refine ⟨get?_read hr, by rw [RecordDecl.field?_mapTy, hd]; rfl, ?_⟩
  exact h.tied_fixed c.ground (c.globals_sound.field_sound owner r hr d (mem_of_field? hd))

/-- A method that is found is found with its type read. -/
theorem method_read (h : Sim θ n R s s') (hr : g.records.get? owner = some r)
    (hd : r.field? name = none) (hm : r.method? name = some m) :
    (g.read θ).records.get? owner = some (r.mapTy (Ty.subst θ)) ∧
      (r.mapTy (Ty.subst θ)).field? name = none ∧
      (r.mapTy (Ty.subst θ)).method? name = some { m with ty := m.ty.subst θ } ∧
      Tied R s s' m.ty (m.ty.subst θ) := by
  refine ⟨get?_read hr, by rw [RecordDecl.field?_mapTy, hd]; rfl,
    by rw [RecordDecl.method?_mapTy, hm]; rfl, ?_⟩
  exact h.tied_fixed c.ground
    (c.globals_sound.method_sound owner r hr m (mem_of_find?_eq_some hm))

end Replayable

/-! ## Patterns -/

theorem forall_fields_mapTy (hθ : ∀ v, (θ v).Sound 0) (hr : ∀ d ∈ r.fields, d.ty.Sound n)
    (m : Nat) : ∀ d ∈ (r.mapTy (Ty.subst θ)).fields, d.ty.Sound m := by
  intro d hd
  obtain ⟨d0, hd0, rfl⟩ := mem_map.1 hd
  exact ((hr d0 hd0).subst_closed hθ).mono (Nat.zero_le m)

section

variable (c : Replayable g L θ n)
include c

mutual

theorem PatternRun.replay : ∀ (q : Source.Pattern)
    {expected expected' bound bound1 s s1 s' q1}
    {R}, PatternRun g expected bound s q q1 bound1 s1 → Sim θ n R s s' →
    Foreseen θ L s1 → Tied R s s' expected expected' → ∃ q' s1' R1,
      PatternRun (g.read θ) expected' bound s' (q1.source L) q' bound1 s1' ∧
      Follows θ n R R1 s s' s1 s1' ∧ R1.Same Pattern.mapTy q1 q'
  | .wildcard span, _, _, _, _, _, _, s', _, R, h, hsim, _, hty => by
    cases h.step with
    | wildcard =>
      refine ⟨_, s', R, .of_step hsim.right_sound (c.read_sound _) hty.right_sound .wildcard,
        .refl hsim, fun ψ φ hR => ?_⟩
      simp only [Pattern.mapTy, Info.mapTy, hty.alike hR]
  | .binding span name, _, expected', bound, _, _, _, s', _, R, h, hsim, hfore, hty => by
    cases h.step with
    | binding hunbound =>
      have hstep : PatternStep (g.read θ) expected' bound s' (.binding span name) _ _ _ :=
        .binding hunbound
      rw [hsim.length_eq] at hstep
      rw [Pattern.source, hfore.localIdent_declare]
      refine ⟨_, _, R, .of_step hsim.right_sound (c.read_sound _) hty.right_sound hstep,
        hsim.declare name hty, fun ψ φ hR => ?_⟩
      simp only [Pattern.mapTy, Info.mapTy, hty.alike hR]
  | .literal span value, _, _, _, _, s, _, s', _, R, h, hsim, hfore, hty => by
    cases h.step with
    | literal hu =>
      obtain ⟨s1', R1, hu', hf⟩ := hsim.unifies hu hfore.solves hty (tied_prim R s s' value.prim)
      refine ⟨_, s1', R1, .of_step hsim.right_sound (c.read_sound _) hty.right_sound (.literal hu'),
        hf, fun ψ φ hR => ?_⟩
      simp only [Pattern.mapTy, Info.mapTy, (hty.follow hf).alike hR]
  | .record span name fields, _, _, _, _, s, _, s', _, R, h, hsim, hfore,
      hty => by
    cases h.step with
    | @record _ _ r _ _ _ s2 _ hr hu hfields =>
      have hrecord : Tied R s s' (.record name.name) (.record name.name) :=
        ⟨fun _ _ _ => rfl, .of_record _, .of_record _⟩
      obtain ⟨s2', R2, hu', hf⟩ := hsim.unifies hu (hfore.back hfields.grows).solves hty hrecord
      obtain ⟨fields', s1', R1, hfields', hf', hsame⟩ := FieldPatternsRun.replay fields hfields
        hf.sim hfore (c.globals_sound.field_sound _ r hr)
      refine ⟨_, s1', R1, .of_step hsim.right_sound (c.read_sound _) hty.right_sound
        (.record (Replayable.get?_read hr) hu' hfields'), hf.trans hf', fun ψ φ hR => ?_⟩
      have hinfo := (hty.follow (hf.trans hf')).alike hR
      simp only [Pattern.mapTy, Info.mapTy, hinfo, hsame hR]

theorem FieldPatternsRun.replay :
    ∀ (fields : List (Source.Named Source.Pattern)) {r bound bound1}
    {seen s s1 s' fields1}
    {R}, FieldPatternsRun g r bound seen s fields fields1 bound1 s1 → Sim θ n R s s' →
    Foreseen θ L s1 → (∀ d ∈ r.fields, d.ty.Sound n) → ∃ fields' s1' R1,
      FieldPatternsRun (g.read θ) (r.mapTy (Ty.subst θ)) bound seen s'
        (Pattern.sourceFields L fields1) fields' bound1 s1' ∧
      Follows θ n R R1 s s' s1 s1' ∧ R1.Same Pattern.mapFieldsTy fields1 fields'
  | [], _, _, _, _, _, _, s', _, R, h, hsim, _, hr => by
    cases h.step with
    | nil =>
      exact ⟨[], s', R, .of_step hsim.right_sound (c.read_sound _)
        (forall_fields_mapTy c.ground hr _) .nil, .refl hsim, fun _ _ _ => rfl⟩
  | ⟨span, name, q⟩ :: rest, r, _, _, _, _, _, _, _, _, h, hsim, hfore, hr => by
    cases h.step with
    | @cons _ _ _ _ i d _ _ _ _ _ _ hd hseen hq hrest =>
      have hd' : (r.mapTy (Ty.subst θ)).field? name.name =
          some (i, { d with ty := d.ty.subst θ }) := by
        rw [RecordDecl.field?_mapTy, hd]
        rfl
      obtain ⟨q', s2', R2, hq', hf, hsame⟩ := PatternRun.replay q hq hsim
        (hfore.back hrest.grows) (hsim.tied_fixed c.ground (hr d (mem_of_field? hd)))
      obtain ⟨rest', s1', R1, hrest', hf', hsame'⟩ := FieldPatternsRun.replay rest hrest hf.sim
        hfore hr
      refine ⟨_, s1', R1, .of_step hsim.right_sound (c.read_sound _)
        (forall_fields_mapTy c.ground hr _) (.cons hd' hseen hq' hrest'), hf.trans hf',
        fun ψ φ hR => ?_⟩
      simp only [Pattern.mapFieldsTy, hsame (hf'.narrows hR), hsame' hR]

end

end

/-! ## Expressions -/

/-- An equality of which the operands are primitive. -/
def ComparesPrim (θ : TyVar → Ty) : Expr → Prop
  | .binary _ op lhs _ => op.opClass = .equality → ∃ q, lhs.ty.subst θ = .prim q
  | _ => True

/-- All equalities among some expressions have primitive operands. -/
def ComparesPrims (θ : TyVar → Ty) (es : List Expr) : Prop := ∀ e ∈ es, ComparesPrim θ e

theorem ComparesPrims.tail (h : ComparesPrims θ (e :: es)) : ComparesPrims θ es :=
  (forall_mem_cons.1 h).2

theorem ComparesPrims.left (h : ComparesPrims θ (es ++ es')) : ComparesPrims θ es :=
  (forall_mem_append.1 h).1

theorem ComparesPrims.right (h : ComparesPrims θ (es ++ es')) : ComparesPrims θ es' :=
  (forall_mem_append.1 h).2

/-- What two checks found the same has the same type. -/
theorem ExprRun.tied {g' scope' src src' e e'}
    (h : ExprRun g scope s src e s1) (h' : ExprRun g' scope' s' src' e' s1')
    (hsame : R.Same Expr.mapTy e e') : Tied R s1 s1' e.ty e'.ty := by
  refine ⟨fun ψ φ hR => ?_, h.ty_sound, h'.ty_sound⟩
  have hty := congrArg Expr.ty (hsame hR)
  rwa [Expr.ty_mapTy, Expr.ty_mapTy] at hty

theorem ListRun.tied {g' scope' src src' es es'} (h : ListRun g scope s src es s1)
    (h' : ListRun g' scope' s' src' es' s1') (hsim : Sim θ n R s1 s1')
    (hsame : R.Same Expr.mapListTy es es') :
    Forall₂ (Tied R s1 s1') (es.map (·.ty)) (es'.map (·.ty)) := by
  obtain ⟨φ, hφ⟩ := hsim.linked.lifts
  refine forall₂_tied (Unify.Link.forall₂_alike ⟨θ, φ, hφ⟩ fun ψ φ hR => ?_)
    (forall_mem_map.2 h.tys_sound) (forall_mem_map.2 h'.tys_sound)
  have htys := congrArg (List.map Expr.ty) (hsame hR)
  simpa only [Expr.mapListTy_eq_map, map_map, Function.comp_def, Expr.ty_mapTy]
    using htys

theorem forall₂_map_const {elem elem'} (h : Tied R s s' elem elem') :
    ∀ {es es' : List Expr},
    Forall₂ (Tied R s s') (es.map (·.ty)) (es'.map (·.ty)) →
    Forall₂ (Tied R s s') (es.map fun _ => elem) (es'.map fun _ => elem')
  | [], [], _ => .nil
  | [], _ :: _, hes | _ :: _, [], hes => by cases hes
  | _ :: _, _ :: _, .cons _ hrest => .cons h (forall₂_map_const h hrest)

/-- Blocks with the same items have the same type. -/
theorem blockType_alike (hsame : R.Same Expr.mapListTy es es') :
    R.Alike (blockType es) (blockType es') := by
  intro ψ φ hR
  have hread : ∀ (χ : TyVar → Ty) (es : List Expr), (blockType es).subst χ =
      blockType (Expr.mapListTy (Ty.subst χ) es) := by
    intro χ es
    rw [blockType, blockType, Expr.mapListTy_eq_map, getLast?_map]
    cases es.getLast? with
    | none => rfl
    | some e => exact (e.ty_mapTy).symm
  rw [hread, hread, hsame hR]

/-- The same fields are named. -/
theorem fieldNames_eq (hsame : R.Same Expr.mapFieldsTy fields fields')
    (hR : R ψ φ) : fields'.map (·.name) = fields.map (·.name) := by
  have hread : ∀ (χ : TyVar → Ty) (fields : List (Typed.Field Expr)),
      (Expr.mapFieldsTy (Ty.subst χ) fields).map (·.name) = fields.map (·.name) := by
    intro χ fields
    induction fields with
    | nil => rfl
    | cons f rest ih => rw [Expr.mapFieldsTy, map_cons, map_cons, ih]
  rw [← hread φ fields', ← hsame hR, hread]

/-- A callee that is no function by its name is none when it is written back. -/
theorem ExprRun.directCallee?_source (h : ExprRun g scope s target target1 s1)
    (hfore : Foreseen θ L s1) (hdirect : directCallee? g scope target = none) :
    directCallee? (g.read θ) scope (target1.source L) = none := by
  cases h.step with
  | var hid hl =>
    have hname := h.name_of_lookup hid hl
    rw [Expr.source, directCallee?, localIdent, getD_of_readLocals hfore.locals_read hl]
    simp only [hname, hid]
    rfl
  | function hid hsig =>
    rw [directCallee?_ident hid hsig] at hdirect
    cases hdirect
  | _ => rfl

/-! ### Forms of expressions

Each form passes again if the expressions it is made of do. -/

/-- **An expression passes again** when it is written back, wherever the checks before it have left
the two states, and it is found the same. -/
def Replays (g : Globals) (L : List Local) (θ : TyVar → Ty) (n : Nat) (scope : Scope) (s : State)
    (e : Expr) (s1 : State) : Prop :=
  ∀ ⦃R : Link⦄ ⦃s' : State⦄, Sim θ n R s s' → Foreseen θ L s1 → ComparesPrims θ e.parts →
    ∃ e' s1' R1, ExprRun (g.read θ) scope s' (e.source L) e' s1' ∧
      Follows θ n R R1 s s' s1 s1' ∧ R1.Same Expr.mapTy e e'

/-- Whatever passes as an expression passes again. -/
def Replayed (g : Globals) (L : List Local) (θ : TyVar → Ty) (n : Nat) (e : Source.Expr) : Prop :=
  ∀ ⦃scope : Scope⦄ ⦃s : State⦄ ⦃e1 : Expr⦄ ⦃s1 : State⦄, ExprRun g scope s e e1 s1 →
    Replays g L θ n scope s e1 s1

namespace Replayable

variable (c : Replayable g L θ n)
include c

/-- Several expressions pass again, one after the other. -/
theorem list (ih : ∀ e ∈ es, Replayed g L θ n e) (h : ListRun g scope s es es1 s1)
    (hsim : Sim θ n R s s') (hfore : Foreseen θ L s1) (hprim : ComparesPrims θ (Expr.listInner es1)) :
    ∃ es' s1' R1, ListRun (g.read θ) scope s' (Expr.sourceList L es1) es' s1' ∧
      Follows θ n R R1 s s' s1 s1' ∧ R1.Same Expr.mapListTy es1 es' := by
  induction es generalizing s s' R es1 with
  | nil =>
    cases h.step with
    | nil =>
      exact ⟨[], s', R, .of_step (c.ready hsim h.toReady) .nil, .refl hsim, fun _ _ _ => rfl⟩
  | cons e rest ihr =>
    cases h.step with
    | cons he hrest =>
      obtain ⟨ihe, ihs⟩ := forall_mem_cons.1 ih
      obtain ⟨e', s2', R2, he', hf2, hsame2⟩ := ihe he hsim (hfore.back hrest.grows) hprim.left
      obtain ⟨rest', s1', R1, hrest', hf1, hsame1⟩ := ihr ihs hrest hf2.sim hprim.right
      refine ⟨_, s1', R1, .of_step (c.ready hsim h.toReady) (.cons he' hrest'), hf2.trans hf1,
        fun ψ φ hR => ?_⟩
      simp only [Expr.mapListTy, hsame1 hR, hsame2 (hf1.narrows hR)]

/-- The initializers of a record pass again. -/
theorem fields (hr : ∀ d ∈ r.fields, d.ty.Sound n) {fields}
    (ih : ∀ e ∈ fields.map (·.value), Replayed g L θ n e) {seen fields1}
    (h : FieldsRun g scope r seen s fields fields1 s1) (hsim : Sim θ n R s s')
    (hfore : Foreseen θ L s1) (hprim : ComparesPrims θ (Expr.fieldInner fields1)) :
    ∃ fields' s1' R1, FieldsRun (g.read θ) scope (r.mapTy (Ty.subst θ)) seen s'
        (Expr.sourceFields L fields1) fields' s1' ∧
      Follows θ n R R1 s s' s1 s1' ∧ R1.Same Expr.mapFieldsTy fields1 fields' := by
  have hsound := forall_fields_mapTy c.ground hr
  induction fields generalizing s s' R seen fields1 with
  | nil =>
    cases h.step with
    | nil =>
      exact ⟨[], s', R, .of_step (c.ready hsim h.toReady) (hsound _) .nil, .refl hsim,
        fun _ _ _ => rfl⟩
  | cons field rest ihr =>
    cases h.step with
    | @cons _ name _ _ i d _ _ _ _ _ hd hseen hvalue hunify hrest =>
      obtain ⟨ihv, ihs⟩ := forall_mem_cons.1 ih
      have hfore3 := hfore.back hrest.grows
      have hd' : (r.mapTy (Ty.subst θ)).field? name.name =
          some (i, { d with ty := d.ty.subst θ }) := by
        rw [RecordDecl.field?_mapTy, hd]
        rfl
      obtain ⟨value', s2', R2, hvalue', hf2, hsame2⟩ := ihv hvalue hsim
        (hfore3.back hunify.grows) hprim.left
      obtain ⟨s3', R3, hunify', hf3⟩ := hf2.sim.unifies hunify hfore3.solves
        (hf2.sim.tied_fixed c.ground (hr d (mem_of_field? hd))) (hvalue.tied hvalue' hsame2)
      obtain ⟨rest', s1', R1, hrest', hf1, hsame1⟩ := ihr ihs hrest hf3.sim hprim.right
      refine ⟨_, s1', R1, .of_step (c.ready hsim h.toReady) (hsound _)
        (.cons hd' hseen hvalue' hunify' hrest'), hf2.trans (hf3.trans hf1), fun ψ φ hR => ?_⟩
      simp only [Expr.mapFieldsTy, hsame1 hR, hsame2 (hf3.narrows (hf1.narrows hR))]

/-- The arms of a match pass again. -/
theorem arms {arms} (ih : ∀ e ∈ Source.Expr.armChildren arms, Replayed g L θ n e)
    {scrutinee scrutinee' result result' arms1}
    (h : ArmsRun g scope scrutinee result s arms arms1 s1) (hsim : Sim θ n R s s')
    (hfore : Foreseen θ L s1) (hscrutinee : Tied R s s' scrutinee scrutinee')
    (hresult : Tied R s s' result result')
    (hprim : ComparesPrims θ (Expr.armInner arms1)) :
    ∃ arms' s1' R1, ArmsRun (g.read θ) scope scrutinee' result' s'
        (Expr.sourceArms L arms1) arms' s1' ∧
      Follows θ n R R1 s s' s1 s1' ∧ R1.Same Expr.mapArmsTy arms1 arms' := by
  induction arms generalizing s s' R arms1 with
  | nil =>
    cases h.step with
    | nil =>
      exact ⟨[], s', R, .of_step (c.ready hsim h.toReady) hscrutinee.right_sound
        hresult.right_sound .nil, .refl hsim, fun _ _ _ => rfl⟩
  | cons arm rest ihr =>
    cases h.step with
    | arm hq hbody hunify hrest =>
      obtain ⟨ihb, ihs⟩ := forall_mem_cons.1 ih
      have hfore4 := hfore.back hrest.grows
      have hfore3 := hfore4.back hunify.grows
      obtain ⟨q', s2', R2, hq', hf2, hsame2⟩ := PatternRun.replay c _ hq hsim
        (hfore3.back hbody.grows) hscrutinee
      obtain ⟨body', s3', R3, hbody', hf3, hsame3⟩ := ihb hbody hf2.sim hfore3 hprim.left
      have hf23 := hf2.trans hf3
      obtain ⟨s4', R4, hunify', hf4⟩ := hf3.sim.unifies hunify hfore4.solves
        (hresult.follow hf23) (hbody.tied hbody' hsame3)
      have hf24 := hf23.trans hf4
      obtain ⟨rest', s1', R1, hrest', hf1, hsame1⟩ := ihr ihs hrest hf4.sim
        (hscrutinee.follow hf24) (hresult.follow hf24) hprim.right
      refine ⟨_, s1', R1, .of_step (c.ready hsim h.toReady) hscrutinee.right_sound
        hresult.right_sound (.arm hq' hbody' hunify' hrest'), hf24.trans hf1, fun ψ φ hR => ?_⟩
      have hR3 := hf4.narrows (hf1.narrows hR)
      simp only [Expr.mapArmsTy, hsame1 hR, hsame3 hR3, hsame2 (hf3.narrows hR3)]
    | guarded hq hguard hbool hbody hunify hrest =>
      obtain ⟨ihg, ih⟩ := forall_mem_cons.1 ih
      obtain ⟨ihb, ihs⟩ := forall_mem_cons.1 ih
      have hfore6 := hfore.back hrest.grows
      have hfore5 := hfore6.back hunify.grows
      have hfore4 := hfore5.back hbody.grows
      have hfore3 := hfore4.back hbool.grows
      obtain ⟨q', s2', R2, hq', hf2, hsame2⟩ := PatternRun.replay c _ hq hsim
        (hfore3.back hguard.grows) hscrutinee
      obtain ⟨guard', s3', R3, hguard', hf3, hsame3⟩ := ihg hguard hf2.sim hfore3 hprim.left.left
      obtain ⟨s4', R4, hbool', hf4⟩ := hf3.sim.unifies hbool hfore4.solves
        (tied_prim _ _ _ .bool) (hguard.tied hguard' hsame3)
      obtain ⟨body', s5', R5, hbody', hf5, hsame5⟩ := ihb hbody hf4.sim hfore5 hprim.left.right
      have hf25 := hf2.trans (hf3.trans (hf4.trans hf5))
      obtain ⟨s6', R6, hunify', hf6⟩ := hf5.sim.unifies hunify hfore6.solves
        (hresult.follow hf25) (hbody.tied hbody' hsame5)
      have hf26 := hf25.trans hf6
      obtain ⟨rest', s1', R1, hrest', hf1, hsame1⟩ := ihr ihs hrest hf6.sim
        (hscrutinee.follow hf26) (hresult.follow hf26) hprim.right
      refine ⟨_, s1', R1, .of_step (c.ready hsim h.toReady) hscrutinee.right_sound
        hresult.right_sound (.guarded hq' hguard' hbool' hbody' hunify' hrest'),
        hf26.trans hf1, fun ψ φ hR => ?_⟩
      have hR5 := hf6.narrows (hf1.narrows hR)
      have hR3 := hf4.narrows (hf5.narrows hR5)
      simp only [Expr.mapArmsTy, hsame1 hR, hsame5 hR5, hsame3 hR3, hsame2 (hf3.narrows hR3)]

/-- A function that is found is found with its types read. -/
theorem function_read (h : Sim θ n R s s') {name : Source.Ident}
    (hsig : g.function? name.name = some signature) :
    (g.read θ).function? name.name = some (signature.read θ) ∧
      Tied R s s' signature.ty (signature.read θ).ty := by
  refine ⟨by rw [Globals.function?_read, hsig]; rfl, ?_⟩
  exact h.tied_fixed c.ground (c.globals_sound.function_sound _ _ hsig)

theorem field (ih : Replayed g L θ n target) : Replayed g L θ n (.field span target name) := by
  intro scope s _ s1 h R s' hsim hfore hprim
  cases h.step with
  | field htarget howner hr hd =>
    obtain ⟨target', s1', R1, htarget', hf, hsame⟩ := ih htarget hsim hfore
      hprim.tail
    have hty := htarget.tied htarget' hsame
    obtain ⟨hr', hd', hfield⟩ := c.field_read hf.sim hr hd
    refine ⟨_, s1', R1, .of_step (c.ready hsim h.toReady) (.field htarget'
      (hf.sim.linked.shallow_eq_record hty.left_sound hty.right_sound hty.alike howner) hr' hd'),
      hf, fun ψ φ hR => ?_⟩
    simp only [Expr.mapTy, Info.mapTy, hfield.alike hR, hsame hR]

theorem callValue (htarget : ExprRun g scope s target target1 s2) (iht : Replayed g L θ n target)
    (hdirect : directCallee? g scope target = none) (hargs : ListRun g scope s2 args args1 s3)
    (iha : ∀ e ∈ args, Replayed g L θ n e)
    (hcall : CallStep s3 target1.ty (args1.map (·.ty)) ty s1) :
    Replays g L θ n scope s (.callValue ⟨span, ty⟩ target1 args1) s1 := by
  intro R s' hsim hfore hprim
  have hfore3 := hfore.back (hcall.grows hargs.grows.sound)
  have hfore2 := hfore3.back hargs.grows
  obtain ⟨target', s2', R2, htarget', hf2, hsame2⟩ := iht htarget hsim hfore2 hprim.tail.left
  obtain ⟨args', s3', R3, hargs', hf3, hsame3⟩ := c.list iha hargs hf2.sim hfore3 hprim.tail.right
  obtain ⟨ty', s1', R1, hcall', hf1, hty⟩ := hf3.sim.call hcall hfore.solves
    ((htarget.tied htarget' hsame2).follow hf3) (hargs.tied hargs' hf3.sim hsame3)
  refine ⟨_, s1', R1, .of_step (c.ready hsim htarget.toReady) (.callValue
    (htarget.directCallee?_source hfore2 hdirect) htarget' hargs' hcall'),
    hf2.trans (hf3.trans hf1), fun ψ φ hR => ?_⟩
  have hR3 := hf1.narrows hR
  simp only [Expr.mapTy, Info.mapTy, hty hR, hsame3 hR3, hsame2 (hf3.narrows hR3)]

theorem letIn (iha : Replayed g L θ n a)
    (ihb : Replayed g L θ n b) : Replayed g L θ n (.letIn span name none a b) := by
  intro scope s e1 s1 h R s' hsim hfore hprim
  have hready := c.ready hsim h.toReady
  cases h.step with
  | @letIn _ _ _ _ value1 _ s2 _ hvalue hbody =>
    have hfore2 := hfore.back hbody.grows
    have hdeclared := hvalue.grows.sound.declare name hvalue.ty_sound
    obtain ⟨value', s2', R2, hvalue', hf2, hsame2⟩ := iha hvalue hsim (hfore2.back hdeclared)
      hprim.tail.left
    -- the second check has the type of the local spelled out, and makes the value agree with it
    obtain ⟨hclosed, hannotated⟩ := c.annotated_local hfore2 s2'.table
    obtain ⟨s3', R3, hunify, hf3, htied⟩ := hf2.sim.unifies_right (hclosed.mono (Nat.zero_le _))
      (hvalue.tied hvalue' hsame2) hclosed.subst_of_closed
    have hf4 := hf3.sim.declare name htied
    obtain ⟨body', s1', R1, hbody', hf1, hsame1⟩ := ihb hbody hf4.sim hfore hprim.tail.right
    have hty := (hbody.tied hbody' hsame1).alike
    rw [← hf3.sim.length_eq] at hbody'
    rw [Expr.source, hfore2.localIdent_declare,
      getD_of_readLocals hfore2.locals_read (s2.getElem?_declare name value1.ty)]
    refine ⟨_, s1', R1, .of_step hready (.letTyped hvalue' hannotated hunify hbody'),
      hf2.trans (hf3.trans (hf4.trans hf1)), fun ψ φ hR => ?_⟩
    simp only [Expr.mapTy, Info.mapTy, hf3.sim.length_eq, hty hR,
      hsame1 hR, hsame2 (hf3.narrows (hf1.narrows hR))]

theorem letTyped (iha : Replayed g L θ n a) (ihb : Replayed g L θ n b) :
    Replayed g L θ n (.letIn span name (some x) a b) := by
  intro scope s e1 s1 h R s' hsim hfore hprim
  have hready := c.ready hsim h.toReady
  cases h.step with
  | @letTyped _ _ _ _ _ _ _ ty _ s2 s3 _ hvalue hannotated1 hunify1 hbody =>
    have hfore3 := hfore.back hbody.grows
    have hdeclared := hunify1.grows.sound.declare name (hunify1.grows.mono hunify1.left_sound)
    have hopened := Grows.of_refines hvalue.grows.sound
      (annotated_annotates x hvalue.grows.sound.table_sound hannotated1).refines
    obtain ⟨value', s2', R2, hvalue', hf2, hsame2⟩ := iha hvalue hsim
      ((hfore3.back (hunify1.grows.trans hdeclared)).back hopened) hprim.tail.left
    -- what the annotation left open has become what the second check has spelled out
    obtain ⟨-, hannotated⟩ := c.annotated_local hfore3 s2'.table
    obtain ⟨R3, hf3, htied⟩ := hf2.sim.annotated_left c.ground hannotated1
    obtain ⟨s3', R4, hunify, hf4⟩ := hf3.sim.unifies hunify1 (hfore3.back hdeclared).solves htied
      ((hvalue.tied hvalue' hsame2).follow hf3)
    have hf5 := hf4.sim.declare name (htied.follow hf4)
    obtain ⟨body', s1', R1, hbody', hf1, hsame1⟩ := ihb hbody hf5.sim hfore hprim.tail.right
    have hty := (hbody.tied hbody' hsame1).alike
    rw [← hf4.sim.length_eq] at hbody'
    rw [Expr.source, hfore3.localIdent_declare,
      getD_of_readLocals hfore3.locals_read (s3.getElem?_declare name ty)]
    refine ⟨_, s1', R1, .of_step hready (.letTyped hvalue' hannotated hunify hbody'),
      hf2.trans (hf3.trans (hf4.trans (hf5.trans hf1))), fun ψ φ hR => ?_⟩
    have hR2 := hf3.narrows (hf4.narrows (hf1.narrows hR))
    simp only [Expr.mapTy, Info.mapTy, hf4.sim.length_eq, hty hR, hsame1 hR, hsame2 hR2]

theorem ifElse {cond a b} (ihc : Replayed g L θ n cond) (iha : Replayed g L θ n a)
    (ihb : Replayed g L θ n b) : Replayed g L θ n (.ifElse span cond a b) := by
  intro scope s e1 s1 h R s' hsim hfore hprim
  have hready := c.ready hsim h.toReady
  cases h.step with
  | ifElse hc hbool ha hb hequal =>
    have hfore4 := hfore.back hequal.grows
    have hfore3 := hfore4.back hb.grows
    have hfore2 := hfore3.back ha.grows
    obtain ⟨c', s1', R1, hc', hf1, hsame1⟩ := ihc hc hsim (hfore2.back hbool.grows)
      hprim.tail.left.left
    obtain ⟨s2', R2, hbool', hf2⟩ := hf1.sim.unifies hbool hfore2.solves (tied_prim _ _ _ .bool)
      (hc.tied hc' hsame1)
    obtain ⟨a', s3', R3, ha', hf3, hsame3⟩ := iha ha hf2.sim hfore3 hprim.tail.left.right
    obtain ⟨b', s4', R4, hb', hf4, hsame4⟩ := ihb hb hf3.sim hfore4 hprim.tail.right
    have haty := (ha.tied ha' hsame3).follow hf4
    obtain ⟨s5', R5, hequal', hf5⟩ := hf4.sim.unifies hequal hfore.solves haty (hb.tied hb' hsame4)
    refine ⟨_, s5', R5, .of_step hready (.ifElse hc' hbool' ha' hb' hequal'),
      hf1.trans (hf2.trans (hf3.trans (hf4.trans hf5))), fun ψ φ hR => ?_⟩
    have hR4 := hf5.narrows hR
    have hR3 := hf4.narrows hR4
    have hR1 := hf2.narrows (hf3.narrows hR3)
    simp only [Expr.mapTy, Info.mapTy, haty.alike hR4, hsame1 hR1, hsame3 hR3, hsame4 hR4]

/-! ### All expressions -/

/-- **An expression that passed passes again when it is written back,** and is found the same. The
induction is on the expression as it was first. -/
theorem replayed (e : Source.Expr) : Replayed g L θ n e := by
  induction e using Source.Expr.child_induction with | step e ih => ?_
  intro scope s e1 s1 h R s' hsim hfore hprim
  have hready := c.ready hsim h.toReady
  cases h.step with
  | literal => exact ⟨_, s', R, .of_step hready .literal, .refl hsim, fun _ _ _ => rfl⟩
  | @var _ name id _ hid hl =>
    obtain ⟨l', hl', halike⟩ := hsim.getElem? hl
    have hname : (localIdent L id).name = name.name := by
      rw [localIdent, getD_of_readLocals hfore.locals_read hl]
      exact h.name_of_lookup hid hl
    refine ⟨_, s', R, .of_step hready (.var (hname ▸ hid) hl'), .refl hsim, fun ψ φ hR => ?_⟩
    simp only [Expr.mapTy, Info.mapTy, halike.ty_alike hR]
  | function hid hsig =>
    obtain ⟨hsig', hty⟩ := c.function_read hsim hsig
    refine ⟨_, s', R, .of_step hready (.function hid hsig'), .refl hsim, fun ψ φ hR => ?_⟩
    simp only [Expr.mapTy, Info.mapTy, hty.alike hR]
  | letIn => exact c.letIn (ih _ (.head _)) (ih _ (.tail _ (.head _))) h hsim hfore hprim
  | letTyped => exact c.letTyped (ih _ (.head _)) (ih _ (.tail _ (.head _))) h hsim hfore hprim
  | block hitems =>
    obtain ⟨items', s1', R1, hitems', hf, hsame⟩ := c.list ih hitems hsim hfore hprim.tail
    refine ⟨_, s1', R1, .of_step hready (.block hitems'), hf, fun ψ φ hR => ?_⟩
    simp only [Expr.mapTy, Info.mapTy, blockType_alike hsame hR, hsame hR]
  | ifThen hc hbool ha hunit =>
    have hfore3 := hfore.back hunit.grows
    have hfore2 := hfore3.back ha.grows
    obtain ⟨c', s1', R1, hc', hf1, hsame1⟩ := ih _ (.head _) hc hsim (hfore2.back hbool.grows)
      hprim.tail.left
    obtain ⟨s2', R2, hbool', hf2⟩ := hf1.sim.unifies hbool hfore2.solves (tied_prim _ _ _ .bool)
      (hc.tied hc' hsame1)
    obtain ⟨a', s3', R3, ha', hf3, hsame3⟩ := ih _ (.tail _ (.head _)) ha hf2.sim hfore3
      hprim.tail.right
    obtain ⟨s4', R4, hunit', hf4⟩ := hf3.sim.unifies hunit hfore.solves (tied_prim _ _ _ .unit)
      (ha.tied ha' hsame3)
    refine ⟨_, s4', R4, .of_step hready (.ifThen hc' hbool' ha' hunit'),
      hf1.trans (hf2.trans (hf3.trans hf4)), fun ψ φ hR => ?_⟩
    have hR3 := hf4.narrows hR
    have hR1 := hf2.narrows (hf3.narrows hR3)
    simp only [Expr.mapTy, Info.mapTy, hsame1 hR1, hsame3 hR3]
    rfl
  | ifElse =>
    exact c.ifElse (ih _ (.head _)) (ih _ (.tail _ (.head _)))
      (ih _ (.tail _ (.tail _ (.head _)))) h hsim hfore hprim
  | @record _ _ r _ fields1 _ hr hfields hall =>
    obtain ⟨fields', s1', R1, hfields', hf, hsame⟩ := c.fields (c.globals_sound.field_sound _ r hr)
      ih hfields hsim hfore hprim.tail
    have hall' : ((r.mapTy (Ty.subst θ)).fields.find?
        fun d => !fields'.any (·.name == d.name)) = none := by
      obtain ⟨φ, hφ⟩ := hf.sim.linked.lifts
      have hany : ∀ x, fields'.any (·.name == x) = fields1.any (·.name == x) := fun x => by
        have hnames := congrArg (List.any · (· == x)) (fieldNames_eq hsame hφ)
        simpa only [any_map, Function.comp_def] using hnames
      rw [RecordDecl.mapTy, find?_map, Option.map_eq_none_iff]
      simp only [Function.comp_def, hany]
      exact hall
    refine ⟨_, s1', R1, .of_step hready (.record (get?_read hr) hfields' hall'), hf, fun ψ φ hR => ?_⟩
    simp only [Expr.mapTy, Info.mapTy, hsame hR]
    rfl
  | field => exact c.field (ih _ (.head _)) h hsim hfore hprim
  | callFunction hid hsig hargs hcall =>
    obtain ⟨args', s2', R2, hargs', hf, hsame⟩ := c.list (fun e he => ih e (.tail _ he)) hargs hsim
      (hfore.back (hcall.grows hargs.grows.sound)) hprim.tail
    obtain ⟨hsig', hcallee⟩ := c.function_read hf.sim hsig
    obtain ⟨ty', s1', R1, hcall', hf', hty⟩ := hf.sim.call hcall hfore.solves hcallee
      (hargs.tied hargs' hf.sim hsame)
    refine ⟨_, s1', R1, .of_step hready (.callFunction hid hsig' hargs' hcall'),
      hf.trans hf', fun ψ φ hR => ?_⟩
    simp only [Expr.mapTy, Info.mapTy, hty hR, hsame (hf'.narrows hR)]
  | callValue hdirect htarget hargs hcall =>
    exact c.callValue htarget (ih _ (.head _)) hdirect hargs (fun e he => ih e (.tail _ he)) hcall
      hsim hfore hprim
  | callField hreceiver howner hr hd hargs hcall =>
    -- the first check goes as if the field had been written as the callee
    exact c.callValue (.of_step h.toReady (.field hreceiver howner hr hd))
      (c.field (ih _ (.head _))) rfl hargs (fun e he => ih e (.tail _ he)) hcall hsim hfore hprim
  | callMethod hreceiver howner hr hd hm hargs hcall =>
    have hfore3 := hfore.back (hcall.grows hargs.grows.sound)
    obtain ⟨receiver', s2', R2, hreceiver', hf2, hsame2⟩ := ih _ (.head _) hreceiver hsim
      (hfore3.back hargs.grows) hprim.tail.left
    have hrty := hreceiver.tied hreceiver' hsame2
    obtain ⟨args', s3', R3, hargs', hf3, hsame3⟩ := c.list (fun e he => ih e (.tail _ he)) hargs
      hf2.sim hfore3 hprim.tail.right
    obtain ⟨hr', hd', hm', hmethod⟩ := c.method_read hf3.sim hr hd hm
    obtain ⟨ty', s1', R1, hcall', hf1, hty⟩ := hf3.sim.call hcall hfore.solves hmethod
      (.cons (hrty.follow hf3) (hargs.tied hargs' hf3.sim hsame3))
    refine ⟨_, s1', R1, .of_step hready (.callMethod hreceiver'
      (hf2.sim.linked.shallow_eq_record hrty.left_sound hrty.right_sound hrty.alike howner) hr'
      hd' hm' hargs' hcall'), hf2.trans (hf3.trans hf1), fun ψ φ hR => ?_⟩
    have hR3 := hf1.narrows hR
    simp only [Expr.mapTy, Expr.mapListTy, Info.mapTy, hty hR, hsame3 hR3, hsame2 (hf3.narrows hR3)]
  | cases hscrutinee harms =>
    have hfore3 : Foreseen θ L _ := hfore.back harms.grows.sound.nextMatch
    obtain ⟨scrutinee', s2', R2, hscrutinee', hf2, hsame2⟩ := ih _ (.head _) hscrutinee hsim
      ((hfore3.back harms.grows).back hscrutinee.grows.sound.fresh) hprim.tail.left
    obtain ⟨R3, hf3, hresult⟩ := hf2.sim.fresh
    obtain ⟨arms', s1', R1, harms', hf1, hsame1⟩ := c.arms (fun e he => ih e (.tail _ he)) harms
      hf3.sim hfore3 ((hscrutinee.tied hscrutinee' hsame2).follow hf3) hresult hprim.tail.right
    refine ⟨_, _, R1, .of_step hready (.cases hscrutinee' harms'),
      hf2.trans (hf3.trans (hf1.trans hf1.sim.nextMatch)), fun ψ φ hR => ?_⟩
    have hR3 := hf1.narrows hR
    simp only [Expr.mapTy, Info.mapTy, hf1.sim.matchCount_eq, hsame1 hR,
      hresult.alike hR3, hsame2 (hf3.narrows hR3)]
  | list helems hequal =>
    obtain ⟨R2, hf2, helem⟩ := hsim.fresh
    obtain ⟨elems', s3', R3, helems', hf3, hsame⟩ := c.list ih helems hf2.sim
      (hfore.back hequal.grows) hprim.tail
    have htys := helems.tied helems' hf3.sim hsame
    have helem3 := helem.follow hf3
    obtain ⟨s1', R1, hequal', hf1⟩ := Sim.unifiesEach hequal hf3.sim hfore.solves
      (forall₂_map_const helem3 htys) htys
    refine ⟨_, s1', R1, .of_step hready (.list helems' hequal'), hf2.trans (hf3.trans hf1),
      fun ψ φ hR => ?_⟩
    have hR3 := hf1.narrows hR
    simp only [Expr.mapTy, Info.mapTy, hsame hR3, Ty.subst]
    rw [show ψ s.table.size = φ s'.table.size from helem3.alike hR3]
  | binary ha hb hop =>
    have hfore2 := hfore.back hop.grows
    obtain ⟨a', s2', R2, ha', hf2, hsame2⟩ := ih _ (.head _) ha hsim (hfore2.back hb.grows)
      hprim.tail.left
    obtain ⟨b', s3', R3, hb', hf3, hsame3⟩ := ih _ (.tail _ (.head _)) hb hf2.sim hfore2
      hprim.tail.right
    obtain ⟨s1', R1, hop', hf1, hty⟩ := hf3.sim.binary hop hfore.solves
      (hprim _ mem_cons_self) ((ha.tied ha' hsame2).follow hf3) (hb.tied hb' hsame3)
    refine ⟨_, s1', R1, .of_step hready (.binary ha' hb' hop'), hf2.trans (hf3.trans hf1),
      fun ψ φ hR => ?_⟩
    have hR3 := hf1.narrows hR
    simp only [Expr.mapTy, Info.mapTy, hty hR, hsame3 hR3, hsame2 (hf3.narrows hR3)]
  | @unary _ op _ _ _ _ ha hop =>
    obtain ⟨a', s2', R2, ha', hf2, hsame2⟩ := ih _ (.head _) ha hsim (hfore.back hop.grows)
      hprim.tail
    have hop_tied : ∀ (R : Link) (s s' : State), Tied R s s' (unaryType op) (unaryType op) :=
      fun R s s' => by cases op <;> exact tied_prim R s s' _
    obtain ⟨s1', R1, hop', hf1⟩ := hf2.sim.unifies hop hfore.solves (hop_tied _ _ _)
      (ha.tied ha' hsame2)
    refine ⟨_, s1', R1, .of_step hready (.unary ha' hop'), hf2.trans hf1, fun ψ φ hR => ?_⟩
    simp only [Expr.mapTy, Info.mapTy, (hop_tied R1 s1' s1').alike hR, hsame2 (hf1.narrows hR)]

end Replayable

end Infer

end Sluice
