import Sluice.Proofs.Infer.Bodies
import Sluice.Proofs.Typing.Parts

/-!
# What checks carry along

A condition on tables, one on types and one on checked expressions, such that the
steps of a check keep them up (`Carrying`). Then whole checks do, of expressions
(`Carrying.settles`) and of bodies (`Carrying.body`).
-/

namespace Sluice.Infer

open Unify (Table)
open Typed (Expr)

/-- **Conditions that the steps of a check keep up.** Only sources that `draws` allows are looked at.
Types that others are made to agree with need not be as known as those of expressions. -/
structure Carrying (g : Globals) where
  draws : Source.Expr → Prop
  table : Table → Prop
  type : Table → Ty → Prop
  meets : Ty → Prop
  expr : Table → Expr → Prop
  draws_child : draws e → ∀ x ∈ e.children, draws x
  draws_cases : draws (.cases span e arms) → arms = [] → type t (.var v)
  type_mono : type t ty → t.Refines t' → type t' ty
  type_prim : type t (.prim p)
  type_list : type t (.list (.var v))
  type_record : g.records.get? name = some r → type t (.record name)
  type_field : table t → g.records.get? name = some r → d ∈ r.fields → type t d.ty
  type_function : table t → draws (.ident span name) → g.function? name.name = some sig →
    type t sig.ty
  type_method : table t → draws (.methodCall span e name args) → g.records.get? owner = some r →
    r.method? name.name = some m → type t m.ty
  meets_var : meets (.var v)
  meets_type : type t ty → meets ty
  fresh : t.Sound → table t → table t.newVariable.2
  annotated : t.Sound → table t → Infer.annotated g.records x t = .ok ty t' →
    table t' ∧ type t' ty
  unify : Unifies s a b s' → table s.table → meets a → type s.table b →
    table s'.table ∧ type s'.table a
  call : CallStep s a args ty s' → s.Sound → a.Sound s.table.size → table s.table →
    type s.table a → (∀ b ∈ args, type s.table b) → table s'.table ∧ type s'.table ty
  expr_mono : expr t e → t.Refines t' → expr t' e
  expr_field : expr t (.field info target name i)
  expr_binary : BinaryStep s op lhs.ty rhs.ty ty s' → type s.table lhs.ty →
    expr s'.table (.binary info op lhs rhs)
  expr_other : ExprRun g scope s src e s' → (∀ info op a b, e ≠ .binary info op a b) →
    expr s'.table e

namespace Carrying

open List

variable {g : Globals} {s s' : State} {t t' : Table} {a b ty : Ty} {scope : Scope} (c : Carrying g)

/-- The conditions hold of a table and of the types of the locals. -/
structure Holds (s : State) : Prop where
  table : c.table s.table
  local_type : ∀ l ∈ s.locals, c.type s.table l.ty

/-- The condition on expressions holds of all parts. -/
def All (t : Table) (es : List Expr) : Prop :=
  ∀ e ∈ es, c.expr t e

/-- What holds once an expression has been checked. -/
structure Settled (e : Expr) (s : State) : Prop where
  holds : c.Holds s
  type : c.type s.table e.ty
  parts : c.All s.table e.parts

/-- What holds once several expressions have been checked. -/
structure SettledList (es : List Expr) (s : State) : Prop where
  holds : c.Holds s
  types : ∀ e ∈ es, c.type s.table e.ty
  parts : c.All s.table (Expr.listInner es)

variable {c}

theorem meets_prim (p : Prim) : c.meets (.prim p) :=
  c.meets_type (t := {}) c.type_prim

theorem All.nil : c.All t [] := forall_mem_nil _

theorem All.cons (he : c.expr t e) (hes : c.All t es) : c.All t (e :: es) :=
  forall_mem_cons.2 ⟨he, hes⟩

theorem All.append (h : c.All t es) (h' : c.All t es') : c.All t (es ++ es') :=
  forall_mem_append.2 ⟨h, h'⟩

theorem All.mono (h : c.All t es) (ht : t.Refines t') : c.All t' es :=
  fun e he => c.expr_mono (h e he) ht

/-! ## Steps -/

namespace Holds

variable (hs : c.Holds s)
include hs

theorem withTable (ht : s.table.Refines t) (htable : c.table t) : c.Holds (s.withTable t) :=
  ⟨htable, fun l hl => c.type_mono (hs.local_type l hl) ht⟩

theorem declare (hty : c.type s.table ty) : c.Holds (s.declare name ty) :=
  ⟨hs.table, forall_mem_append.2 ⟨hs.local_type, forall_mem_singleton.2 hty⟩⟩

theorem fresh (h : s.Sound) : c.Holds s.fresh :=
  hs.withTable h.fresh.refines (c.fresh h.table_sound hs.table)

theorem unify (h : Unifies s a b s') (ha : c.meets a) (hb : c.type s.table b) :
    c.Holds s' ∧ c.type s'.table a := by
  obtain ⟨htable, hty⟩ := c.unify h hs.table ha hb
  refine ⟨?_, hty⟩
  rw [h.state_eq]
  exact hs.withTable h.grows.refines htable

theorem call (h : CallStep s a args ty s') (hsound : s.Sound) (ha : a.Sound s.table.size)
    (hty : c.type s.table a) (hargs : ∀ b ∈ args, c.type s.table b) :
    c.Holds s' ∧ c.type s'.table ty := by
  obtain ⟨htable, hret⟩ := c.call h hsound ha hs.table hty hargs
  have hgrows := h.grows hsound
  refine ⟨⟨htable, fun l hl => c.type_mono (hs.local_type l ?_) hgrows.refines⟩, hret⟩
  rwa [h.locals_eq] at hl

theorem binary (h : BinaryStep s op a b ty s') (ha : c.type s.table a) (hb : c.type s.table b) :
    c.Holds s' ∧ c.type s'.table ty := by
  cases h with
  | known hop hlhs hrhs =>
    obtain ⟨_, _, rfl, rfl⟩ := operatorTypes?_eq_prim hop
    obtain ⟨hs1, -⟩ := hs.unify hlhs (meets_prim _) ha
    exact ⟨(hs1.unify hrhs (meets_prim _) (c.type_mono hb hlhs.grows.refines)).1, c.type_prim⟩
  | equality _ hsame _ => exact ⟨(hs.unify hsame (c.meets_type ha) hb).1, c.type_prim⟩

omit hs in
theorem unifyEach (h : UnifiesEach s as bs s') (hs : c.Holds s) (has : ∀ a ∈ as, c.meets a)
    (hbs : ∀ b ∈ bs, c.type s.table b) : c.Holds s' := by
  induction h with
  | nil => exact hs
  | cons h _ ih =>
    obtain ⟨ha, has⟩ := forall_mem_cons.1 has
    obtain ⟨hb, hbs⟩ := forall_mem_cons.1 hbs
    exact ih (hs.unify h ha hb).1 has fun b hb => c.type_mono (hbs b hb) h.grows.refines

end Holds

/-! ## Patterns -/

mutual

theorem pattern : ∀ (q : Source.Pattern) {expected bound bound' s s' q'},
    PatternRun g expected bound s q q' bound' s' → c.Holds s → c.type s.table expected → c.Holds s'
  | .wildcard _, _, _, _, _, _, _, h, hs, _ => by
    cases h.step with
    | wildcard => exact hs
  | .binding _ _, _, _, _, _, _, _, h, hs, hty => by
    cases h.step with
    | binding => exact hs.declare hty
  | .literal _ _, _, _, _, _, _, _, h, hs, hty => by
    cases h.step with
    | literal hu => exact (hs.unify hu (c.meets_type hty) c.type_prim).1
  | .record _ _ fields, _, _, _, _, _, _, h, hs, hty => by
    cases h.step with
    | record hr hu hfields =>
      exact fieldPatterns fields hfields (hs.unify hu (c.meets_type hty) (c.type_record hr)).1 hr

theorem fieldPatterns : ∀ (fields : List (Source.Named Source.Pattern)) {r bound bound' seen s s'}
    {fields' owner}, FieldPatternsRun g r bound seen s fields fields' bound' s' → c.Holds s →
    g.records.get? owner = some r → c.Holds s'
  | [], _, _, _, _, _, _, _, _, h, hs, _ => by
    cases h.step with
    | nil => exact hs
  | ⟨_, _, q⟩ :: rest, _, _, _, _, _, _, _, _, h, hs, hr => by
    cases h.step with
    | cons hd _ hq hrest =>
      exact fieldPatterns rest hrest
        (pattern q hq hs (c.type_field hs.table hr (mem_of_field? hd))) hr

end

/-! ## Expressions -/

/-- Checked where the conditions hold, an expression is settled. -/
def Settles (c : Carrying g) (e : Source.Expr) : Prop :=
  ∀ ⦃scope : Scope⦄ ⦃s s' : State⦄ ⦃e' : Expr⦄, ExprRun g scope s e e' s' → c.Holds s →
    c.Settled e' s'

theorem list (ih : ∀ e ∈ es, c.Settles e) (h : ListRun g scope s es es' s') (hs : c.Holds s) :
    c.SettledList es' s' := by
  induction es generalizing s es' with
  | nil =>
    cases h.step with
    | nil => exact ⟨hs, forall_mem_nil _, .nil⟩
  | cons e rest ihr =>
    obtain ⟨ihe, ihs⟩ := forall_mem_cons.1 ih
    cases h.step with
    | cons he hrest =>
      have hes := ihe he hs
      have hrs := ihr ihs hrest hes.holds
      have href := hrest.grows.refines
      exact ⟨hrs.holds, forall_mem_cons.2 ⟨c.type_mono hes.type href, hrs.types⟩,
        (hes.parts.mono href).append hrs.parts⟩

theorem fields {fields} (ih : ∀ e ∈ fields.map (·.value), c.Settles e)
    (h : FieldsRun g scope r seen s fields fields' s') (hr : g.records.get? owner = some r)
    (hs : c.Holds s) : c.Holds s' ∧ c.All s'.table (Expr.fieldInner fields') := by
  induction fields generalizing seen s fields' with
  | nil =>
    cases h.step with
    | nil => exact ⟨hs, .nil⟩
  | cons field rest ihr =>
    obtain ⟨ihv, ihs⟩ := forall_mem_cons.1 ih
    cases h.step with
    | cons hd _ hvalue hunify hrest =>
      have hv := ihv hvalue hs
      have hty := c.type_field hv.holds.table hr (mem_of_field? hd)
      obtain ⟨hs1, -⟩ := hv.holds.unify hunify (c.meets_type hty) hv.type
      obtain ⟨hs2, hparts⟩ := ihr ihs hrest hs1
      exact ⟨hs2, (hv.parts.mono (hunify.grows.trans hrest.grows).refines).append hparts⟩

theorem arms {arms scrutinee result arms'} (ih : ∀ e ∈ Source.Expr.armChildren arms, c.Settles e)
    (h : ArmsRun g scope scrutinee result s arms arms' s') (hs : c.Holds s)
    (hty : c.type s.table scrutinee) (hres : c.meets result) : c.Holds s' ∧
      (arms ≠ [] → c.type s'.table result) ∧ c.All s'.table (Expr.armInner arms') := by
  induction arms generalizing s arms' with
  | nil =>
    cases h.step with
    | nil => exact ⟨hs, fun h => absurd rfl h, .nil⟩
  | cons arm rest ihr =>
    cases h.step with
    | arm hq hbody hresult hrest =>
      obtain ⟨ihb, ihs⟩ := forall_mem_cons.1 ih
      have hb := ihb hbody (pattern _ hq hs hty)
      obtain ⟨hs1, hresty⟩ := hb.holds.unify hresult hres hb.type
      have hgrows := hq.grows.trans (hbody.grows.trans hresult.grows)
      obtain ⟨hs2, -, hparts⟩ := ihr ihs hrest hs1 (c.type_mono hty hgrows.refines)
      exact ⟨hs2, fun _ => c.type_mono hresty hrest.grows.refines,
        (hb.parts.mono (hresult.grows.trans hrest.grows).refines).append hparts⟩
    | guarded hq hguard hbool hbody hresult hrest =>
      obtain ⟨ihg, ih⟩ := forall_mem_cons.1 ih
      obtain ⟨ihb, ihs⟩ := forall_mem_cons.1 ih
      have hg := ihg hguard (pattern _ hq hs hty)
      have hb := ihb hbody (hg.holds.unify hbool (meets_prim _) hg.type).1
      obtain ⟨hs1, hresty⟩ := hb.holds.unify hresult hres hb.type
      have hback := hresult.grows.trans hrest.grows
      have hgrows := hq.grows.trans (hguard.grows.trans (hbool.grows.trans
        (hbody.grows.trans hresult.grows)))
      obtain ⟨hs2, -, hparts⟩ := ihr ihs hrest hs1 (c.type_mono hty hgrows.refines)
      have hguards := hg.parts.mono (hbool.grows.trans (hbody.grows.trans hback)).refines
      exact ⟨hs2, fun _ => c.type_mono hresty hrest.grows.refines,
        (hguards.append (hb.parts.mono hback.refines)).append hparts⟩

/-- **Checks of expressions carry the conditions along.** A match has the type of its arms, if it
has one. -/
theorem settles (e : Source.Expr) (he : c.draws e) : c.Settles e := by
  induction e using Source.Expr.child_induction with | step e ih => ?_
  replace ih := fun x hx => ih x hx (c.draws_child he x hx)
  intro scope s s' e' h hs
  cases h.step with
  | literal => exact ⟨hs, c.type_prim, .cons (c.expr_other h nofun) .nil⟩
  | var _ hl =>
    exact ⟨hs, hs.local_type _ (mem_of_getElem? hl), .cons (c.expr_other h nofun) .nil⟩
  | function _ hsig =>
    exact ⟨hs, c.type_function hs.table he hsig, .cons (c.expr_other h nofun) .nil⟩
  | letIn hvalue hbody =>
    have hv := ih _ (.head _) hvalue hs
    have hb := ih _ (.tail _ (.head _)) hbody (hv.holds.declare hv.type)
    exact ⟨hb.holds, hb.type, .cons (c.expr_other h nofun)
      ((hv.parts.mono hbody.grows.refines).append hb.parts)⟩
  | letTyped hvalue hannotated hunify hbody =>
    have hv := ih _ (.head _) hvalue hs
    have hsound := hvalue.grows.sound.table_sound
    have href := (annotated_annotates _ hsound hannotated).refines
    obtain ⟨htable, hty⟩ := c.annotated hsound hv.holds.table hannotated
    obtain ⟨hs1, hty1⟩ := (hv.holds.withTable href htable).unify hunify (c.meets_type hty)
      (c.type_mono hv.type href)
    have hb := ih _ (.tail _ (.head _)) hbody (hs1.declare hty1)
    exact ⟨hb.holds, hb.type, .cons (c.expr_other h nofun) ((hv.parts.mono
      (href.trans (hunify.grows.refines.trans hbody.grows.refines))).append hb.parts)⟩
  | block hitems =>
    have hi := list ih hitems hs
    exact ⟨hi.holds, blockType_of_forall c.type_prim hi.types,
      .cons (c.expr_other h nofun) hi.parts⟩
  | ifThen hc hbool ha hunit =>
    have hcs := ih _ (.head _) hc hs
    have has := ih _ (.tail _ (.head _)) ha (hcs.holds.unify hbool (meets_prim _) hcs.type).1
    have hcond := hcs.parts.mono (hbool.grows.trans (ha.grows.trans hunit.grows)).refines
    exact ⟨(has.holds.unify hunit (meets_prim _) has.type).1, c.type_prim,
      .cons (c.expr_other h nofun) (hcond.append (has.parts.mono hunit.grows.refines))⟩
  | ifElse hc hbool ha hb hsame =>
    have hcs := ih _ (.head _) hc hs
    have has := ih _ (.tail _ (.head _)) ha (hcs.holds.unify hbool (meets_prim _) hcs.type).1
    have hbs := ih _ (.tail _ (.tail _ (.head _))) hb has.holds
    obtain ⟨hs1, hty⟩ := hbs.holds.unify hsame (c.meets_type has.type) hbs.type
    have hback := hb.grows.trans hsame.grows
    have hcond := hcs.parts.mono (hbool.grows.trans (ha.grows.trans hback)).refines
    exact ⟨hs1, hty, .cons (c.expr_other h nofun) ((hcond.append
      (has.parts.mono hback.refines)).append (hbs.parts.mono hsame.grows.refines))⟩
  | record hr hfields _ =>
    obtain ⟨hs1, hparts⟩ := fields ih hfields hr hs
    exact ⟨hs1, c.type_record hr, .cons (c.expr_other h nofun) hparts⟩
  | field htarget _ hr hd =>
    have ht := ih _ (.head _) htarget hs
    exact ⟨ht.holds, c.type_field ht.holds.table hr (mem_of_field? hd), .cons c.expr_field ht.parts⟩
  | callFunction _ hsig hargs hcall =>
    have has := list (fun e he => ih e (.tail _ he)) hargs hs
    have hready := hargs.toReady.mono hargs.grows
    obtain ⟨hs1, hty⟩ := has.holds.call hcall hready.sound
      (hready.globals_sound.function_sound _ _ hsig)
      (c.type_function has.holds.table (c.draws_child he _ (.head _)) hsig)
      (forall_mem_map.2 has.types)
    exact ⟨hs1, hty, .cons (c.expr_other h nofun)
      (has.parts.mono (hcall.grows hready.sound).refines)⟩
  | callValue _ htarget hargs hcall =>
    have hts := ih _ (.head _) htarget hs
    have has := list (fun e he => ih e (.tail _ he)) hargs hts.holds
    obtain ⟨hs1, hty⟩ := has.holds.call hcall hargs.grows.sound
      (hargs.grows.mono htarget.ty_sound) (c.type_mono hts.type hargs.grows.refines)
      (forall_mem_map.2 has.types)
    have hgrows := hcall.grows hargs.grows.sound
    exact ⟨hs1, hty, .cons (c.expr_other h nofun)
      ((hts.parts.mono (hargs.grows.trans hgrows).refines).append (has.parts.mono hgrows.refines))⟩
  | callField hreceiver _ hr hd hargs hcall =>
    have hrs := ih _ (.head _) hreceiver hs
    have has := list (fun e he => ih e (.tail _ he)) hargs hrs.holds
    have hready := hargs.toReady.mono hargs.grows
    have hd := mem_of_field? hd
    obtain ⟨hs1, hty⟩ := has.holds.call hcall hready.sound
      (hready.globals_sound.field_sound _ _ hr _ hd) (c.type_field has.holds.table hr hd)
      (forall_mem_map.2 has.types)
    have hgrows := hcall.grows hready.sound
    have hreceiver' := hrs.parts.mono (hargs.grows.trans hgrows).refines
    exact ⟨hs1, hty, .cons (c.expr_other h nofun)
      (.append (.cons c.expr_field hreceiver') (has.parts.mono hgrows.refines))⟩
  | callMethod hreceiver _ hr _ hm hargs hcall =>
    have hrs := ih _ (.head _) hreceiver hs
    have has := list (fun e he => ih e (.tail _ he)) hargs hrs.holds
    have hready := hargs.toReady.mono hargs.grows
    obtain ⟨hs1, hty⟩ := has.holds.call hcall hready.sound
      (hready.globals_sound.method_sound _ _ hr _ (mem_of_find?_eq_some hm))
      (c.type_method has.holds.table he hr hm)
      (forall_mem_cons.2 ⟨c.type_mono hrs.type hargs.grows.refines, forall_mem_map.2 has.types⟩)
    have hgrows := hcall.grows hready.sound
    exact ⟨hs1, hty, .cons (c.expr_other h nofun)
      ((hrs.parts.mono (hargs.grows.trans hgrows).refines).append (has.parts.mono hgrows.refines))⟩
  | @cases _ _ _ arms' _ s1 _ hscrutinee harms =>
    have hss := ih _ (.head _) hscrutinee hs
    have hf := hscrutinee.grows.sound.fresh
    obtain ⟨hs1, hresult, hparts⟩ := arms (fun e he => ih e (.tail _ he)) harms
      (hss.holds.fresh hscrutinee.grows.sound) (c.type_mono hss.type hf.refines) c.meets_var
    refine ⟨⟨hs1.table, hs1.local_type⟩, ?_, .cons (c.expr_other h nofun)
      ((hss.parts.mono (hf.trans harms.grows).refines).append hparts)⟩
    by_cases harm : arms' = []
    · exact c.draws_cases he harm
    · exact hresult harm
  | list helems hsame =>
    have hes := list ih helems (hs.fresh h.sound)
    exact ⟨.unifyEach hsame hes.holds (forall_mem_map.2 fun _ _ => c.meets_var)
      (forall_mem_map.2 hes.types), c.type_list,
      .cons (c.expr_other h nofun) (hes.parts.mono hsame.grows.refines)⟩
  | binary ha hb hop =>
    have has := ih _ (.head _) ha hs
    have hbs := ih _ (.tail _ (.head _)) hb has.holds
    have hlhs := c.type_mono has.type hb.grows.refines
    obtain ⟨hs1, hty⟩ := hbs.holds.binary hop hlhs hbs.type
    exact ⟨hs1, hty, .cons (c.expr_binary hop hlhs)
      ((has.parts.mono (hb.grows.trans hop.grows).refines).append
        (hbs.parts.mono hop.grows.refines))⟩
  | @unary _ op _ _ _ _ ha hop =>
    have has := ih _ (.head _) ha hs
    have hty : ∀ t, c.type t (unaryType op) := by cases op <;> exact fun _ => c.type_prim
    exact ⟨(has.holds.unify hop (c.meets_type (hty s.table)) has.type).1, hty _,
      .cons (c.expr_other h nofun) (has.parts.mono hop.grows.refines)⟩

/-! ## Bodies -/

theorem params {params} (h : ParamsStep scope s params ids scope' s') (hs : c.Holds s)
    (hparams : ∀ q ∈ params, c.type s.table q.2) : c.Holds s' := by
  induction h with
  | nil => exact hs
  | cons _ ih =>
    obtain ⟨hty, hrest⟩ := forall_mem_cons.1 hparams
    exact ih (hs.declare hty) hrest

/-- **Checks of bodies carry the conditions along.** -/
theorem body (h : BodyStep g p t f s') (hdraws : c.draws p.definition.body) (ht : c.table t)
    (hparams : ∀ q ∈ p.params, c.type t q.2) (hret : c.meets p.signature.ret) :
    c.table s'.table ∧ (∀ l ∈ f.locals, c.type s'.table l.ty) ∧
      c.type s'.table p.signature.ret ∧ c.All s'.table f.body.parts := by
  cases h with
  | mk hdeclared _ hbody hunify =>
    have hb := settles _ hdraws hbody (params hdeclared ⟨ht, nofun⟩ hparams)
    obtain ⟨hs, hty⟩ := hb.holds.unify hunify hret hb.type
    exact ⟨hs.table, hs.local_type, hty, hb.parts.mono hunify.grows.refines⟩

end Carrying

end Sluice.Infer
