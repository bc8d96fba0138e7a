import Sluice.Proofs.Infer.Pattern
import Sluice.Proofs.Infer.Scopes
import Sluice.Proofs.Sorted

/-!
# What a check consists of

A check that passes is put together from checks of the parts and from types
that were made to agree. `ExprStep` says so for every form of expression, once:
what holds of all checks is then proved by going through its cases, with
nothing about the order of the effects left to do.
-/

namespace Sluice.Infer

open List
open Source (Arm Expr Ident Named Pattern)
open Typed (IsField Local LocalId)
open Unify (Table)
open Unify.Table (Solves)

section

variable {g : Globals} {s s' s1 s2 : State} {scope : Scope} {op : BinaryOp} {span : Span}

/-! ## States -/

/-- The state with a local more. -/
def State.declare (s : State) (name : Ident) (ty : Ty) : State :=
  { s with locals := s.locals ++ [⟨name.span, name.name, ty⟩] }

/-- The state with a type variable more. -/
def State.fresh (s : State) : State :=
  { s with table := s.table.newVariable.2 }

/-- The state with a match more. -/
def State.nextMatch (s : State) : State :=
  { s with matchCount := s.matchCount + 1 }

/-- The state with another table. -/
def State.withTable (s : State) (t : Table) : State :=
  { s with table := t }

theorem State.Sound.declare (hs : s.Sound) (name : Ident) {ty}
    (hty : ty.Sound s.table.size) : Grows s (s.declare name ty) := by
  have hrun : declareLocal name ty s = .ok s.locals.length (s.declare name ty) := rfl
  exact (declareLocal_checks (g := {}) hs hty hrun).1.grows

theorem State.Sound.fresh (hs : s.Sound) : Grows s s.fresh :=
  (fresh_settles (g := {}) hs rfl).1.grows

theorem State.Sound.nextMatch (hs : s.Sound) : Grows s s.nextMatch :=
  (nextMatch_checks (g := {}) hs rfl).grows

theorem State.getElem?_declare (s : State) (name : Ident) (ty : Ty) :
    (s.declare name ty).locals[s.locals.length]? = some ⟨name.span, name.name, ty⟩ := by
  rw [declare, getElem?_append_right Nat.le.refl, Nat.sub_self]
  rfl

/-- The variable of a fresh state. -/
theorem State.sound_fresh (s : State) : (Ty.var s.table.size).Sound s.fresh.table.size :=
  .of_var (newVariable_lt s.table)

/-- A state in which expressions can be checked. -/
structure Ready (g : Globals) (scope : Scope) (s : State) : Prop where
  sound : s.Sound
  globals_sound : g.Sound s.table.size
  in_scope : InScope scope s

namespace Ready

theorem mono (h : Ready g scope s) (hgrows : Grows s s') : Ready g scope s' :=
  ⟨hgrows.sound, h.globals_sound.mono hgrows, h.in_scope.mono hgrows⟩

theorem declare (h : Ready g scope s) (name) {ty} (hty : ty.Sound s.table.size) :
    Ready g ((name.name, s.locals.length) :: scope) (s.declare name ty) := by
  have h' := h.mono (h.sound.declare name hty)
  exact ⟨h'.sound, h'.globals_sound, h'.in_scope.cons (s.getElem?_declare name ty) rfl⟩

/-- A name in scope is that of the local it stands for. -/
theorem name_of_lookup (h : Ready g scope s) {name id l} (hid : scope.lookup name = some id)
    (hl : s.locals[id]? = some l) : l.name = name := by
  obtain ⟨l', hl', hname⟩ := h.in_scope name id (mem_of_lookup hid)
  cases hl.symm.trans hl'
  exact hname

theorem append (h : Ready g scope s) (hbound : InScope bound s) : Ready g (bound ++ scope) s :=
  ⟨h.sound, h.globals_sound, hbound.append h.in_scope⟩

end Ready

/-! ## Types made to agree -/

/-- Two types are made to agree. -/
structure Unifies (s : State) (a b : Ty) (s' : State) : Prop where
  sound : s.Sound
  left_sound : a.Sound s.table.size
  right_sound : b.Sound s.table.size
  run : Unify.unify a b s.table = .ok () s'.table
  state_eq : s' = s.withTable s'.table

namespace Unifies

variable {a b : Ty}

theorem of_require (hs : s.Sound) (ha : a.Sound s.table.size) (hb : b.Sound s.table.size)
    {boundary u} (h : require a b span boundary s = .ok u s') : Unifies s a b s' := by
  rw [require] at h
  split at h
  · rename_i t ht
    cases h
    exact ⟨hs, ha, hb, ht, rfl⟩
  · cases h

theorem grows (h : Unifies s a b s') : Grows s s' := by
  obtain ⟨hrefines, -⟩ := Unify.unify_unifies h.sound.table_sound h.left_sound h.right_sound h.run
  rw [h.state_eq]
  exact .of_refines h.sound hrefines

theorem require (h : Unifies s a b s') (span : Span) (boundary : Boundary) :
    Infer.require a b span boundary s = .ok () s' := by
  rw [Infer.require, h.run, h.state_eq]
  rfl

/-- The types agree under every solution from then on. -/
theorem agree (h : Unifies s a b s') (hθ : Solves θ s'.table) : a.subst θ = b.subst θ :=
  (Unify.unify_unifies h.sound.table_sound h.left_sound h.right_sound h.run).2 θ hθ

theorem settles (h : Unifies s a b s') : Settles g s s' fun _ _ θ => a.subst θ = b.subst θ :=
  ⟨h.grows, nofun, fun _ _ _ hr => h.agree hr.solves⟩

end Unifies

/-- Types are made to agree one by one. -/
inductive UnifiesEach : State → List Ty → List Ty → State → Prop
  | nil {s : State} (hs : s.Sound) : UnifiesEach s [] [] s
  | cons {s s1 s' : State} {a b : Ty} {as bs : List Ty} (h : Unifies s a b s1)
    (hrest : UnifiesEach s1 as bs s') : UnifiesEach s (a :: as) (b :: bs) s'

namespace UnifiesEach

variable {as bs : List Ty}

theorem of_requireEach {boundary} : ∀ tys (es : List Typed.Expr)
    {s s' u}, s.Sound → tys.length = es.length →
    (∀ ty ∈ tys, ty.Sound s.table.size) → (∀ e ∈ es, e.ty.Sound s.table.size) →
    requireEach boundary tys es s = .ok u s' → UnifiesEach s tys (es.map (·.ty)) s'
  | [], [], _, _, _, hs, _, _, _, h => by
    obtain ⟨-, rfl⟩ := pure_eq_ok.1 h
    exact .nil hs
  | [], _ :: _, _, _, _, _, hlen, _, _, _ | _ :: _, [], _, _, _, _, hlen, _, _, _ => by cases hlen
  | ty :: tys, e :: es, s, s', u, hs, hlen, htys, hes, h => by
    obtain ⟨_, s1, h1, h2⟩ := bind_eq_ok.1 h
    have hu := Unifies.of_require hs (htys ty mem_cons_self) (hes e mem_cons_self) h1
    exact .cons hu (of_requireEach tys es hu.grows.sound (Nat.succ.inj hlen)
      (fun q hq => hu.grows.mono (htys q (mem_cons_of_mem _ hq)))
      (fun q hq => hu.grows.mono (hes q (mem_cons_of_mem _ hq))) h2)

theorem grows (h : UnifiesEach s as bs s') : Grows s s' := by
  induction h with
  | nil hs => exact .refl hs
  | cons h _ ih => exact h.grows.trans ih

theorem state_eq (h : UnifiesEach s as bs s') : s' = s.withTable s'.table := by
  induction h with
  | nil => rfl
  | cons hu _ ih =>
    rw [ih, hu.state_eq]
    rfl

theorem settles (h : UnifiesEach s as bs s') :
    Settles g s s' fun _ _ θ => Ty.substList θ as = bs.map (Ty.subst θ) := by
  induction h with
  | nil hs =>
    exact (Checks.nothing hs).imp fun _ _ _ _ _ => rfl
  | cons h _ ih =>
    refine (h.settles.seq ih).imp fun _ _ θ _ hP => ?_
    rw [Ty.substList, map_cons, hP.1, hP.2]

theorem requireEach (boundary : Boundary) : ∀ tys (es : List Typed.Expr)
    {s s'}, UnifiesEach s tys (es.map (·.ty)) s' →
    Infer.requireEach boundary tys es s = .ok () s'
  | [], [], _, _, h => by
    cases h
    rfl
  | [], _ :: _, _, _, h | _ :: _, [], _, _, h => by cases h
  | _ :: tys, e :: es, _, _, h => by
    cases h with
    | cons hu hrest =>
      exact bind_ok (hu.require _ _) <| requireEach boundary tys es hrest

end UnifiesEach

/-- Something of one type is called with arguments of others, and gives a third. -/
inductive CallStep (s : State) (callee : Ty) (args : List Ty) : Ty → State → Prop
  | known {params : List Ty} {ret : Ty} {s' : State}
    (hcallee : s.table.shallow callee = .fn params ret) (hlen : params.length = args.length)
    (hparams : UnifiesEach s params args s') : CallStep s callee args ret s'
  | unknown {v : TyVar} {s' : State} (hcallee : s.table.shallow callee = .var v)
    (hfn : Unifies s.fresh (.var v) (.fn args (.var s.table.size)) s') :
    CallStep s callee args (.var s.table.size) s'

theorem CallStep.of_callType (hs : s.Sound) {callee ty args}
    (hcallee : callee.Sound s.table.size) (hargs : ∀ e ∈ args, e.ty.Sound s.table.size)
    (h : callType callee args span s = .ok ty s') : CallStep s callee (args.map (·.ty)) ty s' := by
  obtain ⟨callee', s1, h1, h2⟩ := bind_eq_ok.1 h
  obtain ⟨hshallow, rfl⟩ := shallow_ok h1
  obtain ⟨hsound, -, -⟩ := Unify.shallow_spec hs.table_sound hcallee
  rw [hshallow] at hsound
  cases callee' with
  | fn params ret =>
    simp only at h2
    split at h2
    · rename_i hlen
      obtain ⟨_, s2, h3, h4⟩ := bind_eq_ok.1 h2
      obtain ⟨rfl, rfl⟩ := pure_eq_ok.1 h4
      exact .known hshallow (by rwa [length_map]) (UnifiesEach.of_requireEach params args hs
        hlen (Ty.Sound.fn_iff.1 hsound).1 hargs h3)
    · exact absurd h2 throw_ne_ok
  | var v =>
    simp only [bind_eq_ok, pure_eq_ok] at h2
    obtain ⟨ret, s2, h3, _, s3, h5, rfl, rfl⟩ := h2
    cases h3
    have hf := hs.fresh
    refine .unknown hshallow (Unifies.of_require hf.sound (hf.mono hsound)
      (Ty.Sound.fn_iff.2 ⟨fun q hq => ?_, s1.sound_fresh⟩) h5)
    obtain ⟨e, he, rfl⟩ := mem_map.1 hq
    exact hf.mono (hargs e he)
  | error => exact absurd hsound.no_error (by decide)
  | prim | list | record =>
    obtain ⟨_, _, _, h3⟩ := bind_eq_ok.1 h2
    exact absurd h3 throw_ne_ok

theorem CallStep.grows {callee ty args} (h : CallStep s callee args ty s')
    (hs : s.Sound) : Grows s s' := by
  cases h with
  | known _ _ hparams => exact hparams.grows
  | unknown _ hfn => exact hs.fresh.trans hfn.grows

theorem CallStep.locals_eq (h : CallStep s callee args ty s') : s'.locals = s.locals := by
  cases h with
  | known _ _ hparams => exact (congrArg State.locals hparams.state_eq :)
  | unknown _ hfn => exact (congrArg State.locals hfn.state_eq :)

/-- **The type of a call:** what is called has the types of the arguments and of the result. -/
theorem CallStep.settles {callee ty} {args : List Typed.Expr}
    (h : CallStep s callee (args.map (·.ty)) ty s') (hs : s.Sound)
    (hcallee : callee.Sound s.table.size) :
    Settles g s s' (fun _ _ θ =>
      callee.subst θ = .fn (args.map fun e => e.ty.subst θ) (ty.subst θ)) ∧
      ty.Sound s'.table.size := by
  have hgrows := h.grows hs
  obtain ⟨hsound, heq, -⟩ := Unify.shallow_spec hs.table_sound hcallee
  cases h with
  | known hshallow _ hparams =>
    rw [hshallow] at hsound heq
    refine ⟨hparams.settles.imp fun _ _ θ hr hP => ?_, hgrows.mono (Ty.Sound.fn_iff.1 hsound).2⟩
    rw [← heq θ (hr.back hgrows).solves, Ty.subst, hP, map_map]
    rfl
  | unknown hshallow hfn =>
    rw [hshallow] at heq
    obtain ⟨hfresh, -⟩ := fresh_settles (g := g) hs rfl
    refine ⟨(hfresh.seq hfn.settles).imp fun _ _ θ hr hP => ?_, hfn.grows.mono s.sound_fresh⟩
    rw [← heq θ (hr.back hgrows).solves, hP.2, Ty.subst, Ty.substList_eq_map, map_map]
    rfl

theorem shallow_eq_ok (s : State) (ty : Ty) : shallow ty s = .ok (s.table.shallow ty) s :=
  rfl

theorem CallStep.callType (h : CallStep s callee (args.map (·.ty)) ty s')
    (span : Span) : callType callee args span s = .ok ty s' := by
  refine bind_ok (shallow_eq_ok s callee) ?_
  cases h with
  | known hcallee hlen hparams =>
    rw [length_map] at hlen
    simp only [hcallee, if_pos hlen]
    exact bind_ok (hparams.requireEach _ _ _) rfl
  | unknown hcallee hfn =>
    simp only [hcallee]
    exact bind_ok rfl <| bind_ok (hfn.require _ _) rfl

/-- An operator is applied to operands of two types, and gives a third. -/
inductive BinaryStep (s : State) (op : BinaryOp) (lhs rhs : Ty) : Ty → State → Prop
  | known {operand result : Ty} {s1 s' : State}
    (hop : operatorTypes? op.opClass = some (operand, result)) (hlhs : Unifies s operand lhs s1)
    (hrhs : Unifies s1 operand rhs s') : BinaryStep s op lhs rhs result s'
  | equality {s' : State} (hop : op.opClass = .equality) (hsame : Unifies s lhs rhs s')
    (hcomparable : comparable (s'.table.shallow lhs) = true) : BinaryStep s op lhs rhs .bool s'

theorem BinaryStep.grows {lhs rhs ty} (h : BinaryStep s op lhs rhs ty s') : Grows s s' := by
  cases h with
  | known _ hl hr => exact hl.grows.trans hr.grows
  | equality _ hu _ => exact hu.grows

theorem operatorTypes?_eq_prim (h : operatorTypes? c = some (operand, result)) :
    ∃ p q, operand = .prim p ∧ result = .prim q := by
  cases c <;> cases h <;> exact ⟨_, _, rfl, rfl⟩

theorem BinaryStep.of_binaryType (hs : s.Sound) {lhs rhs ty}
    (hl : lhs.ty.Sound s.table.size) (hr : rhs.ty.Sound s.table.size)
    (h : binaryType op lhs rhs s = .ok ty s') : BinaryStep s op lhs.ty rhs.ty ty s' := by
  rw [binaryType] at h
  cases hop : operatorTypes? op.opClass with
  | some types =>
    obtain ⟨operand, result⟩ := types
    obtain ⟨p, q, rfl, rfl⟩ := operatorTypes?_eq_prim hop
    simp only [hop, bind_eq_ok, pure_eq_ok] at h
    obtain ⟨_, s1, h1, _, s2, h3, rfl, rfl⟩ := h
    have hu := Unifies.of_require hs (.of_prim p) hl h1
    exact .known hop hu (Unifies.of_require hu.grows.sound (.of_prim p) (hu.grows.mono hr) h3)
  | none =>
    -- only equality takes operands of more than one type
    have hclass : op.opClass = .equality := by
      cases hc : op.opClass with
      | equality => rfl
      | arithmetic | comparison | logical =>
        rw [hc] at hop
        cases hop
    simp only [hop, bind_eq_ok] at h
    obtain ⟨_, s1, h1, shared, s2, h3, h4⟩ := h
    obtain ⟨rfl, rfl⟩ := shallow_ok h3
    split at h4
    · rename_i hcomparable
      obtain ⟨rfl, rfl⟩ := pure_eq_ok.1 h4
      exact .equality hclass (Unifies.of_require hs hl hr h1) hcomparable
    · obtain ⟨_, _, _, h5⟩ := bind_eq_ok.1 h4
      exact absurd h5 throw_ne_ok

theorem BinaryStep.settles {lhs rhs ty} (h : BinaryStep s op lhs rhs ty s') :
    Settles g s s' (fun _ _ θ => Typed.BinaryRule op (lhs.subst θ) (rhs.subst θ) (ty.subst θ)) ∧
      ty.Sound s'.table.size := by
  cases h with
  | known hop hlhs hrhs =>
    obtain ⟨p, q, rfl, rfl⟩ := operatorTypes?_eq_prim hop
    refine ⟨(hlhs.settles.seq hrhs.settles).imp fun _ _ θ _ hP => ?_, .of_prim q⟩
    rw [Typed.BinaryRule, ← hP.1, ← hP.2]
    cases hclass : op.opClass <;> rw [hclass] at hop <;> cases hop <;> exact ⟨rfl, rfl, rfl⟩
  | equality hop hsame _ =>
    refine ⟨hsame.settles.imp fun _ _ _ _ hP => ?_, .of_prim _⟩
    rw [Typed.BinaryRule, hop]
    exact ⟨hP, rfl⟩

theorem BinaryStep.binaryType
    (h : BinaryStep s op lhs.ty rhs.ty ty s') : binaryType op lhs rhs s = .ok ty s' := by
  rw [Infer.binaryType]
  cases h with
  | known hop hlhs hrhs =>
    simp only [hop]
    exact bind_ok (hlhs.require _ _) <| bind_ok (hrhs.require _ _) rfl
  | equality hop hsame hcomparable =>
    simp only [hop, operatorTypes?]
    refine bind_ok (hsame.require _ _) <| bind_ok (shallow_eq_ok _ _) ?_
    rw [if_pos hcomparable]
    rfl

theorem receiverRecord_eq_ok (h : s.table.shallow ty = .record owner)
    (span : Span) : receiverRecord ty span s = .ok (some owner) s := by
  refine bind_ok (shallow_eq_ok s ty) ?_
  rw [h]
  rfl

/-- The record a member is accessed on is known. -/
theorem shallow_of_receiverRecord (hs : s.Sound) {ty} (hty : ty.Sound s.table.size) {found}
    (h : receiverRecord ty span s = .ok found s') :
    ∃ owner, found = some owner ∧ s.table.shallow ty = .record owner ∧ s' = s := by
  obtain ⟨ty', s1, h1, h2⟩ := bind_eq_ok.1 h
  obtain ⟨hshallow, rfl⟩ := shallow_ok h1
  obtain ⟨hsound, -, -⟩ := Unify.shallow_spec hs.table_sound hty
  rw [hshallow] at hsound
  cases ty' with
  | record owner =>
    obtain ⟨rfl, rfl⟩ := pure_eq_ok.1 h2
    exact ⟨owner, rfl, hshallow, rfl⟩
  | error => exact absurd hsound.no_error (by decide)
  | var v => exact absurd h2 throw_ne_ok
  | prim | list | fn =>
    obtain ⟨_, _, _, h3⟩ := bind_eq_ok.1 h2
    exact absurd h3 throw_ne_ok

/-- What a type looks like from the outside is what every reading makes of it. -/
theorem settles_of_shallow (hs : s.Sound) (hty : ty.Sound s.table.size)
    (h : s.table.shallow ty = .record owner) :
    Settles g s s fun _ _ θ => ty.subst θ = .record owner := by
  obtain ⟨-, heq, -⟩ := Unify.shallow_spec hs.table_sound hty
  refine (Checks.nothing hs).imp fun _ _ θ hr _ => ?_
  rw [← heq θ hr.solves, h]
  rfl

end

/-! ## What checks consist of -/

/-- A pattern passes its check. -/
structure PatternRun (g : Globals) (expected : Ty) (bound : Scope) (s : State)
    (q : Pattern) (q' : Typed.Pattern) (bound' : Scope) (s' : State) : Prop where
  sound : s.Sound
  globals_sound : g.Sound s.table.size
  expected_sound : expected.Sound s.table.size
  run : checkPattern g expected bound q s = .ok (q', bound') s'

/-- Field patterns pass their check. -/
structure FieldPatternsRun (g : Globals) (r : RecordDecl) (bound : Scope) (seen : List String)
    (s : State) (fields : List (Named Pattern))
    (fields' : List (Typed.Field Typed.Pattern)) (bound' : Scope) (s' : State) : Prop where
  sound : s.Sound
  globals_sound : g.Sound s.table.size
  fields_sound : ∀ d ∈ r.fields, d.ty.Sound s.table.size
  run : checkFieldPatterns g r bound seen fields s = .ok (fields', bound') s'

/-- What the check of a pattern consists of. -/
inductive PatternStep (g : Globals) (expected : Ty) (bound : Scope) (s : State) :
    Pattern → Typed.Pattern → Scope → State → Prop
  | wildcard {span} :
    PatternStep g expected bound s (.wildcard span) (.wildcard ⟨span, expected⟩) bound s
  | binding {span name} (hunbound : bound.lookup name.name = none) :
    PatternStep g expected bound s (.binding span name)
      (.binding ⟨span, expected⟩ s.locals.length) ((name.name, s.locals.length) :: bound)
      (s.declare name expected)
  | literal {span value s'} (h : Unifies s expected value.ty s') :
    PatternStep g expected bound s (.literal span value) (.literal ⟨span, expected⟩ value) bound s'
  | record {span name r fields fields' bound' s1 s'} (hr : g.records.get? name.name = some r)
    (h : Unifies s expected (.record name.name) s1)
    (hfields : FieldPatternsRun g r bound [] s1 fields fields' bound' s') :
    PatternStep g expected bound s (.record span name fields)
      (.record ⟨span, expected⟩ name.name fields') bound' s'

/-- What the check of field patterns consists of. -/
inductive FieldPatternsStep (g : Globals) (r : RecordDecl) (bound : Scope) (seen : List String)
    (s : State) : List (Named Pattern) → List (Typed.Field Typed.Pattern) → Scope →
    State → Prop
  | nil : FieldPatternsStep g r bound seen s [] [] bound s
  | cons {span name q q' i d rest rest' bound1 bound' s1 s'} (hd : r.field? name.name = some (i, d))
    (hseen : name.name ∉ seen) (hq : PatternRun g d.ty bound s q q' bound1 s1)
    (hrest : FieldPatternsRun g r bound1 (name.name :: seen) s1 rest rest' bound' s') :
    FieldPatternsStep g r bound seen s (⟨span, name, q⟩ :: rest)
      (⟨span, name.name, i, q'⟩ :: rest') bound' s'

/-- An expression passes its check. -/
structure ExprRun (g : Globals) (scope : Scope) (s : State) (e : Expr) (e' : Typed.Expr)
    (s' : State) : Prop extends Ready g scope s where
  run : checkExpr g scope e s = .ok e' s'

/-- Expressions pass their checks, from left to right. -/
structure ListRun (g : Globals) (scope : Scope) (s : State) (es : List Expr)
    (es' : List Typed.Expr) (s' : State) : Prop extends Ready g scope s where
  run : checkList g scope es s = .ok es' s'

/-- Field initializers pass their check. -/
structure FieldsRun (g : Globals) (scope : Scope) (r : RecordDecl) (seen : List String) (s : State)
    (fields : List (Named Expr)) (fields' : List (Typed.Field Typed.Expr))
    (s' : State) : Prop extends Ready g scope s where
  fields_sound : ∀ d ∈ r.fields, d.ty.Sound s.table.size
  run : checkFields g scope r seen fields s = .ok fields' s'

/-- The arms of a match pass their check. -/
structure ArmsRun (g : Globals) (scope : Scope) (scrutinee result : Ty) (s : State)
    (arms : List (Arm Expr)) (arms' : List (Typed.Arm Typed.Expr)) (s' : State) :
    Prop extends Ready g scope s where
  scrutinee_sound : scrutinee.Sound s.table.size
  result_sound : result.Sound s.table.size
  run : checkArms g scope scrutinee result arms s = .ok arms' s'

/-- What the check of an expression consists of. -/
inductive ExprStep (g : Globals) (scope : Scope) (s : State) :
    Expr → Typed.Expr → State → Prop
  | literal {span value} :
    ExprStep g scope s (.literal span value) (.literal ⟨span, value.ty⟩ value) s
  | var {span name id l} (hid : scope.lookup name.name = some id) (hl : s.locals[id]? = some l) :
    ExprStep g scope s (.ident span name) (.var ⟨span, l.ty⟩ id) s
  | function {span name signature} (hid : scope.lookup name.name = none)
    (hsig : g.function? name.name = some signature) :
    ExprStep g scope s (.ident span name) (.function ⟨span, signature.ty⟩ name.name) s
  | letIn {span name value body value' body' s1 s'} (hvalue : ExprRun g scope s value value' s1)
    (hbody : ExprRun g ((name.name, s1.locals.length) :: scope) (s1.declare name value'.ty) body
      body' s') :
    ExprStep g scope s (.letIn span name none value body)
      (.letIn ⟨span, body'.ty⟩ s1.locals.length value' body') s'
  | letTyped {span name a value body value' body' ty t s1 s2 s'}
    (hvalue : ExprRun g scope s value value' s1)
    (hannotated : annotated g.records a s1.table = .ok ty t)
    (hunify : Unifies (s1.withTable t) ty value'.ty s2)
    (hbody : ExprRun g ((name.name, s2.locals.length) :: scope) (s2.declare name ty) body body' s') :
    ExprStep g scope s (.letIn span name (some a) value body)
      (.letIn ⟨span, body'.ty⟩ s2.locals.length value' body') s'
  | block {span items items' s'} (hitems : ListRun g scope s items items' s') :
    ExprStep g scope s (.block span items) (.block ⟨span, blockType items'⟩ items') s'
  | ifThen {span c a c' a' s1 s2 s3 s'} (hc : ExprRun g scope s c c' s1)
    (hbool : Unifies s1 .bool c'.ty s2) (ha : ExprRun g scope s2 a a' s3)
    (hunit : Unifies s3 .unit a'.ty s') :
    ExprStep g scope s (.ifThen span c a) (.ifThen ⟨span, .unit⟩ c' a') s'
  | ifElse {span c a b c' a' b' s1 s2 s3 s4 s'} (hc : ExprRun g scope s c c' s1)
    (hbool : Unifies s1 .bool c'.ty s2) (ha : ExprRun g scope s2 a a' s3)
    (hb : ExprRun g scope s3 b b' s4) (hsame : Unifies s4 a'.ty b'.ty s') :
    ExprStep g scope s (.ifElse span c a b) (.ifElse ⟨span, a'.ty⟩ c' a' b') s'
  | record {span name r fields fields' s'} (hr : g.records.get? name.name = some r)
    (hfields : FieldsRun g scope r [] s fields fields' s')
    (hall : (r.fields.find? fun d => !fields'.any (·.name == d.name)) = none) :
    ExprStep g scope s (.record span name fields)
      (.record ⟨span, .record name.name⟩ name.name fields') s'
  | field {span target name target' owner r i d s'} (htarget : ExprRun g scope s target target' s')
    (howner : s'.table.shallow target'.ty = .record owner) (hr : g.records.get? owner = some r)
    (hd : r.field? name.name = some (i, d)) :
    ExprStep g scope s (.field span target name) (.field ⟨span, d.ty⟩ target' name.name i) s'
  | callFunction {span span' name signature args args' ty s1 s'}
    (hid : scope.lookup name.name = none) (hsig : g.function? name.name = some signature)
    (hargs : ListRun g scope s args args' s1)
    (hcall : CallStep s1 signature.ty (args'.map (·.ty)) ty s') :
    ExprStep g scope s (.call span (.ident span' name) args)
      (.callFunction ⟨span, ty⟩ name.name args') s'
  | callValue {span target target' args args' ty s1 s2 s'}
    (hdirect : directCallee? g scope target = none) (htarget : ExprRun g scope s target target' s1)
    (hargs : ListRun g scope s1 args args' s2)
    (hcall : CallStep s2 target'.ty (args'.map (·.ty)) ty s') :
    ExprStep g scope s (.call span target args) (.callValue ⟨span, ty⟩ target' args') s'
  | callField {span receiver receiver' name owner r i d args args' ty s1 s2 s'}
    (hreceiver : ExprRun g scope s receiver receiver' s1)
    (howner : s1.table.shallow receiver'.ty = .record owner) (hr : g.records.get? owner = some r)
    (hd : r.field? name.name = some (i, d)) (hargs : ListRun g scope s1 args args' s2)
    (hcall : CallStep s2 d.ty (args'.map (·.ty)) ty s') :
    ExprStep g scope s (.methodCall span receiver name args)
      (.callValue ⟨span, ty⟩
        (.field ⟨receiver'.span.join name.span, d.ty⟩ receiver' name.name i) args') s'
  | callMethod {span receiver receiver' name owner r m args args' ty s1 s2 s'}
    (hreceiver : ExprRun g scope s receiver receiver' s1)
    (howner : s1.table.shallow receiver'.ty = .record owner) (hr : g.records.get? owner = some r)
    (hd : r.field? name.name = none) (hm : r.method? name.name = some m)
    (hargs : ListRun g scope s1 args args' s2)
    (hcall : CallStep s2 m.ty ((receiver' :: args').map (·.ty)) ty s') :
    ExprStep g scope s (.methodCall span receiver name args)
      (.callMethod ⟨span, ty⟩ owner name.name m.symbol (receiver' :: args')) s'
  | cases {span scrutinee scrutinee' arms arms' s1 s2}
    (hscrutinee : ExprRun g scope s scrutinee scrutinee' s1)
    (harms : ArmsRun g scope scrutinee'.ty (.var s1.table.size) s1.fresh arms arms' s2) :
    ExprStep g scope s (.cases span scrutinee arms)
      (.cases ⟨span, .var s1.table.size⟩ s2.matchCount scrutinee' arms') s2.nextMatch
  | list {span elems elems' s1 s'} (helems : ListRun g scope s.fresh elems elems' s1)
    (hsame : UnifiesEach s1 (elems'.map fun _ => .var s.table.size) (elems'.map (·.ty)) s') :
    ExprStep g scope s (.list span elems) (.list ⟨span, .list (.var s.table.size)⟩ elems') s'
  | binary {span op a b a' b' ty s1 s2 s'} (ha : ExprRun g scope s a a' s1)
    (hb : ExprRun g scope s1 b b' s2) (hop : BinaryStep s2 op a'.ty b'.ty ty s') :
    ExprStep g scope s (.binary span op a b) (.binary ⟨span, ty⟩ op a' b') s'
  | unary {span op a a' s1 s'} (ha : ExprRun g scope s a a' s1)
    (hop : Unifies s1 (unaryType op) a'.ty s') :
    ExprStep g scope s (.unary span op a) (.unary ⟨span, unaryType op⟩ op a') s'

/-- What the checks of several expressions consist of. -/
inductive ListStep (g : Globals) (scope : Scope) (s : State) :
    List Expr → List Typed.Expr → State → Prop
  | nil : ListStep g scope s [] [] s
  | cons {e e' rest rest' s1 s'} (he : ExprRun g scope s e e' s1)
    (hrest : ListRun g scope s1 rest rest' s') :
    ListStep g scope s (e :: rest) (e' :: rest') s'

/-- What the check of field initializers consists of. -/
inductive FieldsStep (g : Globals) (scope : Scope) (r : RecordDecl) (seen : List String)
    (s : State) : List (Named Expr) → List (Typed.Field Typed.Expr) → State → Prop
  | nil : FieldsStep g scope r seen s [] [] s
  | cons {span name value value' i d rest rest' s1 s2 s'} (hd : r.field? name.name = some (i, d))
    (hseen : name.name ∉ seen) (hvalue : ExprRun g scope s value value' s1)
    (hunify : Unifies s1 d.ty value'.ty s2)
    (hrest : FieldsRun g scope r (name.name :: seen) s2 rest rest' s') :
    FieldsStep g scope r seen s (⟨span, name, value⟩ :: rest)
      (⟨span, name.name, i, value'⟩ :: rest') s'

/-- What the check of the arms of a match consists of. -/
inductive ArmsStep (g : Globals) (scope : Scope) (scrutinee result : Ty) (s : State) :
    List (Arm Expr) → List (Typed.Arm Typed.Expr) → State → Prop
  | nil : ArmsStep g scope scrutinee result s [] [] s
  | arm {span q q' bound body body' rest rest' s1 s2 s3 s'}
    (hq : PatternRun g scrutinee [] s q q' bound s1)
    (hbody : ExprRun g (bound ++ scope) s1 body body' s2) (hresult : Unifies s2 result body'.ty s3)
    (hrest : ArmsRun g scope scrutinee result s3 rest rest' s') :
    ArmsStep g scope scrutinee result s (⟨span, q, none, body⟩ :: rest)
      (⟨span, q', none, body'⟩ :: rest') s'
  | guarded {span q q' bound guard body guard' body' rest rest' s1 s2 s3 s4 s5 s'}
    (hq : PatternRun g scrutinee [] s q q' bound s1)
    (hguard : ExprRun g (bound ++ scope) s1 guard guard' s2) (hbool : Unifies s2 .bool guard'.ty s3)
    (hbody : ExprRun g (bound ++ scope) s3 body body' s4) (hresult : Unifies s4 result body'.ty s5)
    (hrest : ArmsRun g scope scrutinee result s5 rest rest' s') :
    ArmsStep g scope scrutinee result s (⟨span, q, some guard, body⟩ :: rest)
      (⟨span, q', some guard', body'⟩ :: rest') s'

variable {g : Globals} {s s' s1 s2 : State} {scope : Scope} {r : RecordDecl} {seen : List String}
  {d : FieldDecl} {i : Nat}

/-! ## Patterns -/

theorem field?_of_namedField (h : namedField r seen name s = .ok (i, d) s') :
    r.field? name.name = some (i, d) ∧ name.name ∉ seen ∧ s' = s := by
  rw [namedField] at h
  cases hfound : r.field? name.name with
  | none =>
    rw [hfound] at h
    exact absurd h throw_ne_ok
  | some found =>
    simp only [hfound] at h
    split at h
    · exact absurd h throw_ne_ok
    · rename_i hseen
      obtain ⟨rfl, rfl⟩ := pure_eq_ok.1 h
      exact ⟨rfl, by simpa using hseen, rfl⟩

theorem namedField_eq_ok (hd : r.field? name.name = some (i, d)) (hseen : name.name ∉ seen)
    (s : State) : namedField r seen name s = .ok (i, d) s := by
  rw [namedField, hd]
  exact congrFun (if_neg (by simpa using hseen)) s

theorem mem_of_field? {name} (h : r.field? name = some (i, d)) : d ∈ r.fields :=
  mem_of_getElem? (RecordDecl.isField_of_field? h).1

mutual

/-- **Every check of a pattern** is made of the checks of its parts, and what it gives is well
typed. -/
theorem PatternRun.spec : ∀ (q : Pattern) {expected bound bound'}
    {s s' q'}, PatternRun g expected bound s q q' bound' s' →
    PatternStep g expected bound s q q' bound' s' ∧
      PatternChecks g expected bound q s q' bound' s'
  | .wildcard span, _, _, _, _, _, _, ⟨hs, _, hty, h⟩ => by
    obtain ⟨heq, rfl⟩ := pure_eq_ok.1 h
    cases heq
    exact ⟨.wildcard, wildcard_checks hs hty span⟩
  | .binding span name, _, bound, _, _, _, _, ⟨hs, _, hty, h⟩ => by
    rw [checkPattern] at h
    split at h
    · obtain ⟨_, _, h1, -⟩ := bind_eq_ok.1 h
      exact absurd h1 throw_ne_ok
    · rename_i hunbound
      obtain ⟨id, s2, h2, h⟩ := bind_eq_ok.1 h
      obtain ⟨heq, rfl⟩ := pure_eq_ok.1 h
      cases heq
      have hc : PatternChecks g _ bound (.binding span name) _ _ _ s2 :=
        binding_checks hs hty span h2
      cases h2
      exact ⟨.binding (Option.not_isSome_iff_eq_none.1 hunbound), hc⟩
  | .literal span value, _, _, _, _, _, _, ⟨hs, _, hty, h⟩ => by
    obtain ⟨_, s1, h1, h⟩ := bind_eq_ok.1 h
    obtain ⟨heq, rfl⟩ := pure_eq_ok.1 h
    cases heq
    have hu := Unifies.of_require hs hty (.of_prim value.prim) h1
    exact ⟨.literal hu, literal_checks hty span hu.settles⟩
  | .record span name fields, _, _, _, _, _, _, ⟨hs, hg, hty, h⟩ => by
    rw [checkPattern] at h
    cases hr : g.records.get? name.name with
    | none =>
      rw [hr] at h
      exact absurd h throw_ne_ok
    | some r =>
      rw [hr] at h
      obtain ⟨_, s1, h1, h⟩ := bind_eq_ok.1 h
      obtain ⟨⟨fields', bound1⟩, s2, h2, h3⟩ := bind_eq_ok.1 h
      obtain ⟨heq, rfl⟩ := pure_eq_ok.1 h3
      cases heq
      have hu := Unifies.of_require hs hty (.of_record name.name) h1
      have hg' := hg.mono hu.grows
      have hf : FieldPatternsRun g r _ [] s1 fields fields' _ s2 :=
        ⟨hu.grows.sound, hg', hg'.field_sound _ r hr, h2⟩
      exact ⟨.record hr hu hf,
        recordPattern_checks hty span hr hu.settles (FieldPatternsRun.spec fields hf).2⟩

theorem FieldPatternsRun.spec : ∀ (fields : List (Named Pattern)) {r}
    {bound bound' seen s s'}
    {fields'},
    FieldPatternsRun g r bound seen s fields fields' bound' s' →
    FieldPatternsStep g r bound seen s fields fields' bound' s' ∧
      FieldPatternsCheck g r bound seen fields s fields' bound' s'
  | [], _, _, _, _, _, _, _, ⟨hs, _, _, h⟩ => by
    obtain ⟨heq, rfl⟩ := pure_eq_ok.1 h
    cases heq
    exact ⟨.nil, (Checks.nothing hs).imp fun _ _ _ _ _ => ⟨trivial, trivial⟩, id,
      fun _ hid => .inr hid, .nil⟩
  | ⟨span, name, q⟩ :: rest, _, bound, _, _, _, _, _, ⟨hs, hg, hty, h⟩ => by
    obtain ⟨⟨i, d⟩, s0, h0, hrun⟩ := bind_eq_ok.1 h
    obtain ⟨hd, hseen, rfl⟩ := field?_of_namedField h0
    obtain ⟨⟨q', bound1⟩, s1, h1, hrun⟩ := bind_eq_ok.1 hrun
    obtain ⟨⟨rest', bound2⟩, s2, h2, h3⟩ := bind_eq_ok.1 hrun
    obtain ⟨heq, rfl⟩ := pure_eq_ok.1 h3
    cases heq
    have hq : PatternRun g d.ty bound s0 q q' bound1 s1 := ⟨hs, hg, hty d (mem_of_field? hd), h1⟩
    have hqc := (PatternRun.spec q hq).2
    have hgrows := hqc.checks.grows
    have hf : FieldPatternsRun g _ bound1 _ s1 rest rest' _ s2 :=
      ⟨hgrows.sound, hg.mono hgrows, fun d hd => hgrows.mono (hty d hd), h2⟩
    exact ⟨.cons hd hseen hq hf, fieldPattern_cons_checks (RecordDecl.isField_of_field? hd) hseen
      hqc (FieldPatternsRun.spec rest hf).2⟩

end

section

variable {expected : Ty} {bound bound' : Scope} {q : Pattern} {q' : Typed.Pattern}
  {r : RecordDecl} {seen : List String} {fields : List (Named Pattern)}
  {fields' : List (Typed.Field Typed.Pattern)}

theorem PatternRun.step (h : PatternRun g expected bound s q q' bound' s') :
    PatternStep g expected bound s q q' bound' s' :=
  (spec q h).1

theorem PatternRun.checks (h : PatternRun g expected bound s q q' bound' s') :
    PatternChecks g expected bound q s q' bound' s' :=
  (spec q h).2

theorem PatternRun.grows (h : PatternRun g expected bound s q q' bound' s') : Grows s s' :=
  h.checks.checks.grows

theorem FieldPatternsRun.step (h : FieldPatternsRun g r bound seen s fields fields' bound' s') :
    FieldPatternsStep g r bound seen s fields fields' bound' s' :=
  (spec fields h).1

theorem FieldPatternsRun.grows (h : FieldPatternsRun g r bound seen s fields fields' bound' s') :
    Grows s s' :=
  (spec fields h).2.1.grows

end

/-- The names of a pattern are in scope. -/
theorem Ready.bind {expected bound q q'} (h : Ready g scope s)
    (hq : PatternRun g expected [] s q q' bound s') : Ready g (bound ++ scope) s' :=
  (h.mono hq.grows).append (hq.checks.in_scope fun _ _ hmem => nomatch hmem)

/-! ## Expressions -/

/-- A member is a declared field, or a method that no field hides. -/
theorem member_found {owner name found}
    (h : member g owner name s = .ok found s') : s' = s ∧ ∃ r, g.records.get? owner = some r ∧
      ((∃ i d, found = .field i d.ty ∧ r.field? name.name = some (i, d)) ∨
        ∃ m, found = .method m.symbol m.ty ∧ r.field? name.name = none ∧
          r.method? name.name = some m) := by
  rw [member] at h
  cases hr : g.records.get? owner with
  | none =>
    simp only [hr] at h
    exact absurd h throw_ne_ok
  | some r =>
    cases hd : r.field? name.name with
    | some found =>
      simp only [hr, hd] at h
      obtain ⟨rfl, rfl⟩ := pure_eq_ok.1 h
      exact ⟨rfl, r, rfl, .inl ⟨_, _, rfl, hd⟩⟩
    | none =>
      cases hm : r.method? name.name with
      | some m =>
        simp only [hr, hd, hm] at h
        obtain ⟨rfl, rfl⟩ := pure_eq_ok.1 h
        exact ⟨rfl, r, rfl, .inr ⟨m, rfl, hd, hm⟩⟩
      | none =>
        simp only [hr, hd, hm] at h
        exact absurd h throw_ne_ok

/-- The type of a block is that of one of its expressions, or that of unit. -/
theorem blockType_of_forall {P : Ty → Prop} {es} (hunit : P .unit)
    (h : ∀ e ∈ es, P e.ty) : P (blockType es) := by
  rw [blockType]
  cases hlast : es.getLast? with
  | none => exact hunit
  | some e => exact h e (mem_of_getLast? hlast)

mutual

/-- **Every check of an expression** is made of the checks of its parts, and leads to a state that
knows more. -/
theorem ExprRun.spec : ∀ (e : Expr) {scope} {s s' : State} {e'}, Ready g scope s →
    checkExpr g scope e s = .ok e' s' →
    ExprStep g scope s e e' s' ∧ Grows s s' ∧ e'.ty.Sound s'.table.size
  | .literal span value, _, _, _, _, hready, h => by
    obtain ⟨rfl, rfl⟩ := pure_eq_ok.1 h
    exact ⟨.literal, .refl hready.sound, .of_prim value.prim⟩
  | .ident span name, scope, _, _, _, hready, h => by
    rw [checkExpr] at h
    cases hid : scope.lookup name.name with
    | some id =>
      simp only [hid] at h
      obtain ⟨ty, s1, h1, h2⟩ := bind_eq_ok.1 h
      obtain ⟨rfl, rfl⟩ := pure_eq_ok.1 h2
      obtain ⟨s2, s3, h3, h4⟩ := bind_eq_ok.1 h1
      obtain ⟨rfl, rfl⟩ := get_eq_ok.1 h3
      obtain ⟨hty, rfl⟩ := pure_eq_ok.1 h4
      -- what is in scope has been declared, so its type is not a default
      obtain ⟨l, hl, -⟩ := hready.in_scope _ _ (mem_of_lookup hid)
      rw [hl] at hty
      subst hty
      exact ⟨.var hid hl, .refl hready.sound, hready.sound.locals_sound l (mem_of_getElem? hl)⟩
    | none =>
      simp only [hid] at h
      cases hsig : g.function? name.name with
      | some signature =>
        simp only [hsig] at h
        obtain ⟨rfl, rfl⟩ := pure_eq_ok.1 h
        exact ⟨.function hid hsig, .refl hready.sound, hready.globals_sound.function_sound _ _ hsig⟩
      | none =>
        simp only [hsig] at h
        exact absurd h throw_ne_ok
  | .letIn span name none value body, scope, s, _, _, hready, h => by
    simp only [checkExpr, bind_eq_ok, pure_eq_ok] at h
    obtain ⟨value', s1, h1, id, s2, h2, body', s3, h3, rfl, rfl⟩ := h
    cases h2
    obtain ⟨-, hvg, hvt⟩ := ExprRun.spec value hready h1
    have hb := (hready.mono hvg).declare name hvt
    obtain ⟨-, hbg, hbt⟩ := ExprRun.spec body hb h3
    exact ⟨.letIn ⟨hready, h1⟩ ⟨hb, h3⟩, hvg.trans ((hvg.sound.declare name hvt).trans hbg), hbt⟩
  | .letIn span name (some a) value body, scope, s, _, _, hready, h => by
    simp only [checkExpr, bind_eq_ok, pure_eq_ok] at h
    obtain ⟨value', s1, h1, ty, s2, h2, _, s3, h3, id, s4, h4, body', s5, h5, rfl, rfl⟩ := h
    cases h4
    obtain ⟨-, hvg, hvt⟩ := ExprRun.spec value hready h1
    obtain ⟨ha, hty⟩ := annotatedType_settles (g := g) hvg.sound h2
    have hu := Unifies.of_require ha.grows.sound hty (ha.grows.mono hvt) h3
    have hgrows := hvg.trans (ha.grows.trans hu.grows)
    have hty' := hu.grows.mono hty
    have hb := (hready.mono hgrows).declare name hty'
    obtain ⟨-, hbg, hbt⟩ := ExprRun.spec body hb h5
    rw [annotatedType] at h2
    split at h2
    · rename_i t ht
      cases h2
      exact ⟨.letTyped ⟨hready, h1⟩ ht hu ⟨hb, h5⟩,
        hgrows.trans ((hgrows.sound.declare name hty').trans hbg), hbt⟩
    · cases h2
  | .block span items, scope, s, s', e', hready, h => by
    obtain ⟨items', s1, h1, h⟩ := bind_eq_ok.1 h
    obtain ⟨rfl, rfl⟩ := pure_eq_ok.1 h
    obtain ⟨-, hlg, hlt⟩ := ListRun.spec items hready h1
    exact ⟨.block ⟨hready, h1⟩, hlg, blockType_of_forall (.of_prim _) hlt⟩
  | .ifThen span c a, scope, s, _, _, hready, h => by
    simp only [checkExpr, bind_eq_ok, pure_eq_ok] at h
    obtain ⟨c', s1, h1, _, s2, h2, a', s3, h3, _, s4, h4, rfl, rfl⟩ := h
    obtain ⟨-, hcg, hct⟩ := ExprRun.spec c hready h1
    have hbool := Unifies.of_require hcg.sound (.of_prim _) hct h2
    have hg2 := hcg.trans hbool.grows
    have ha := hready.mono hg2
    obtain ⟨-, hag, hat⟩ := ExprRun.spec a ha h3
    have hunit := Unifies.of_require hag.sound (.of_prim _) hat h4
    exact ⟨.ifThen ⟨hready, h1⟩ hbool ⟨ha, h3⟩ hunit, hg2.trans (hag.trans hunit.grows), .of_prim _⟩
  | .ifElse span c a b, scope, s, _, _, hready, h => by
    simp only [checkExpr, bind_eq_ok, pure_eq_ok] at h
    obtain ⟨c', s1, h1, _, s2, h2, a', s3, h3, b', s4, h4, _, s5, h5, rfl, rfl⟩ := h
    obtain ⟨-, hcg, hct⟩ := ExprRun.spec c hready h1
    have hbool := Unifies.of_require hcg.sound (.of_prim _) hct h2
    have hg2 := hcg.trans hbool.grows
    have ha := hready.mono hg2
    obtain ⟨-, hag, hat⟩ := ExprRun.spec a ha h3
    have hb := ha.mono hag
    obtain ⟨-, hbg, hbt⟩ := ExprRun.spec b hb h4
    have hsame := Unifies.of_require hbg.sound (hbg.mono hat) hbt h5
    exact ⟨.ifElse ⟨hready, h1⟩ hbool ⟨ha, h3⟩ ⟨hb, h4⟩ hsame,
      hg2.trans (hag.trans (hbg.trans hsame.grows)), hsame.grows.mono (hbg.mono hat)⟩
  | .record span name fields, scope, s, _, _, hready, h => by
    rw [checkExpr] at h
    cases hr : g.records.get? name.name with
    | none =>
      simp only [hr] at h
      exact absurd h throw_ne_ok
    | some r =>
      simp only [hr] at h
      obtain ⟨fields', s1, h1, h2⟩ := bind_eq_ok.1 h
      have hty := hready.globals_sound.field_sound _ r hr
      cases hall : r.fields.find? fun d => !fields'.any (·.name == d.name) with
      | some missing =>
        simp only [hall] at h2
        exact absurd h2 throw_ne_ok
      | none =>
        simp only [hall] at h2
        obtain ⟨rfl, rfl⟩ := pure_eq_ok.1 h2
        exact ⟨.record hr ⟨hready, hty, h1⟩ hall, (FieldsRun.spec fields hready hty h1).2,
          .of_record _⟩
  | .field span target name, scope, s, _, _, hready, h => by
    simp only [checkExpr, bind_eq_ok] at h
    obtain ⟨target', s1, h1, found, s2, h2, hfield⟩ := h
    obtain ⟨-, htg, htt⟩ := ExprRun.spec target hready h1
    obtain ⟨owner, rfl, howner, rfl⟩ := shallow_of_receiverRecord htg.sound htt h2
    cases hd : (g.records.get? owner).bind (·.field? name.name) with
    | some found =>
      simp only [hd] at hfield
      obtain ⟨rfl, rfl⟩ := pure_eq_ok.1 hfield
      obtain ⟨r, hr, hd⟩ := Option.bind_eq_some_iff.1 hd
      exact ⟨.field ⟨hready, h1⟩ howner hr hd, htg,
        (hready.mono htg).globals_sound.field_sound _ r hr _ (mem_of_field? hd)⟩
    | none =>
      simp only [hd] at hfield
      exact absurd hfield throw_ne_ok
  | .call span target args, scope, s, _, _, hready, h => by
    rw [checkExpr] at h
    cases hcallee : directCallee? g scope target with
    | some callee =>
      obtain ⟨symbol, signature⟩ := callee
      simp only [hcallee] at h
      obtain ⟨span', name, rfl, rfl, hid, hsig⟩ := directCallee?_eq_some hcallee
      simp only [bind_eq_ok, pure_eq_ok] at h
      obtain ⟨args', s1, h1, ty, s2, h2, rfl, rfl⟩ := h
      obtain ⟨-, hag, hat⟩ := ListRun.spec args hready h1
      have hsound := (hready.mono hag).globals_sound.function_sound _ _ hsig
      have hcall := CallStep.of_callType hag.sound hsound hat h2
      exact ⟨.callFunction hid hsig ⟨hready, h1⟩ hcall, hag.trans (hcall.grows hag.sound),
        (hcall.settles (g := g) hag.sound hsound).2⟩
    | none =>
      simp only [hcallee, bind_eq_ok, pure_eq_ok] at h
      obtain ⟨callee', s1, h1, args', s2, h2, ty, s3, h3, rfl, rfl⟩ := h
      obtain ⟨-, hfg, hft⟩ := ExprRun.spec target hready h1
      have ha := hready.mono hfg
      obtain ⟨-, hag, hat⟩ := ListRun.spec args ha h2
      have hcall := CallStep.of_callType hag.sound (hag.mono hft) hat h3
      exact ⟨.callValue hcallee ⟨hready, h1⟩ ⟨ha, h2⟩ hcall,
        hfg.trans (hag.trans (hcall.grows hag.sound)),
        (hcall.settles (g := g) hag.sound (hag.mono hft)).2⟩
  | .methodCall span receiver name args, scope, s, _, _, hready, h => by
    simp only [checkExpr, bind_eq_ok] at h
    obtain ⟨receiver', s1, h1, found, s2, h2, hmember⟩ := h
    obtain ⟨-, htg, htt⟩ := ExprRun.spec receiver hready h1
    obtain ⟨owner, rfl, howner, rfl⟩ := shallow_of_receiverRecord htg.sound htt h2
    obtain ⟨found, s3, h3, hcall⟩ := bind_eq_ok.1 hmember
    obtain ⟨rfl, r, hr, ⟨i, d, rfl, hd⟩ | ⟨m, rfl, hd, hm⟩⟩ := member_found h3
    -- from here on a field and a method are called alike
    all_goals
      simp only [bind_eq_ok, pure_eq_ok] at hcall
      obtain ⟨args', s4, h4, ty, s5, h5, rfl, rfl⟩ := hcall
      have ha := hready.mono htg
      obtain ⟨-, hag, hat⟩ := ListRun.spec args ha h4
      have hg := (ha.mono hag).globals_sound
    · have hsound := hg.field_sound _ r hr d (mem_of_field? hd)
      have hstep := CallStep.of_callType hag.sound hsound hat h5
      exact ⟨.callField ⟨hready, h1⟩ howner hr hd ⟨ha, h4⟩ hstep,
        htg.trans (hag.trans (hstep.grows hag.sound)),
        (hstep.settles (g := g) hag.sound hsound).2⟩
    · have hsound := hg.method_sound _ r hr m (mem_of_find?_eq_some hm)
      have hstep := CallStep.of_callType hag.sound hsound
        (forall_mem_cons.2 ⟨hag.mono htt, hat⟩) h5
      exact ⟨.callMethod ⟨hready, h1⟩ howner hr hd hm ⟨ha, h4⟩ hstep,
        htg.trans (hag.trans (hstep.grows hag.sound)),
        (hstep.settles (g := g) hag.sound hsound).2⟩
  | .cases span scrutinee arms, scope, s, _, _, hready, h => by
    simp only [checkExpr, bind_eq_ok, pure_eq_ok] at h
    obtain ⟨scrutinee', s1, h1, ty, s2, h2, arms', s3, h3, id, s4, h4, rfl, rfl⟩ := h
    cases h2
    cases h4
    obtain ⟨-, heg, het⟩ := ExprRun.spec scrutinee hready h1
    have hf := heg.sound.fresh
    have ha := hready.mono (heg.trans hf)
    obtain ⟨-, hag⟩ := ArmsRun.spec arms ha (hf.mono het) s1.sound_fresh h3
    exact ⟨.cases ⟨hready, h1⟩ ⟨ha, hf.mono het, s1.sound_fresh, h3⟩,
      heg.trans (hf.trans (hag.trans hag.sound.nextMatch)), hag.mono s1.sound_fresh⟩
  | .list span elems, scope, s, _, _, hready, h => by
    simp only [checkExpr, bind_eq_ok, pure_eq_ok] at h
    obtain ⟨elem, s1, h1, elems', s2, h2, _, s3, h3, rfl, rfl⟩ := h
    cases h1
    have hf := hready.sound.fresh
    have hl := hready.mono hf
    obtain ⟨-, hlg, hlt⟩ := ListRun.spec elems hl h2
    have helem := hlg.mono s.sound_fresh
    have hsame := UnifiesEach.of_requireEach _ elems' hlg.sound (length_map _)
      (forall_mem_map.2 fun _ _ => helem) hlt h3
    exact ⟨.list ⟨hl, h2⟩ hsame, hf.trans (hlg.trans hsame.grows),
      Ty.Sound.list_iff.2 (hsame.grows.mono helem)⟩
  | .binary span op a b, scope, s, _, _, hready, h => by
    simp only [checkExpr, bind_eq_ok, pure_eq_ok] at h
    obtain ⟨a', s1, h1, b', s2, h2, ty, s3, h3, rfl, rfl⟩ := h
    obtain ⟨-, hag, hat⟩ := ExprRun.spec a hready h1
    have hb := hready.mono hag
    obtain ⟨-, hbg, hbt⟩ := ExprRun.spec b hb h2
    have hop := BinaryStep.of_binaryType hbg.sound (hbg.mono hat) hbt h3
    exact ⟨.binary ⟨hready, h1⟩ ⟨hb, h2⟩ hop, hag.trans (hbg.trans hop.grows),
      (hop.settles (g := g)).2⟩
  | .unary span op a, scope, s, _, _, hready, h => by
    simp only [checkExpr, bind_eq_ok, pure_eq_ok] at h
    obtain ⟨a', s1, h1, _, s2, h2, rfl, rfl⟩ := h
    obtain ⟨-, hag, hat⟩ := ExprRun.spec a hready h1
    have hop := Unifies.of_require hag.sound (by cases op <;> exact .of_prim _) hat h2
    exact ⟨.unary ⟨hready, h1⟩ hop, hag.trans hop.grows, hop.grows.mono hop.left_sound⟩

theorem ListRun.spec : ∀ (es : List Expr) {scope} {s s' : State} {es'}, Ready g scope s →
    checkList g scope es s = .ok es' s' →
    ListStep g scope s es es' s' ∧ Grows s s' ∧ ∀ e ∈ es', e.ty.Sound s'.table.size
  | [], _, _, _, _, hready, h => by
    obtain ⟨rfl, rfl⟩ := pure_eq_ok.1 h
    exact ⟨.nil, .refl hready.sound, nofun⟩
  | e :: rest, scope, s, _, _, hready, h => by
    simp only [checkList, bind_eq_ok, pure_eq_ok] at h
    obtain ⟨e', s1, h1, rest', s2, h2, rfl, rfl⟩ := h
    obtain ⟨-, heg, het⟩ := ExprRun.spec e hready h1
    have hrest := hready.mono heg
    obtain ⟨-, hrg, hrt⟩ := ListRun.spec rest hrest h2
    exact ⟨.cons ⟨hready, h1⟩ ⟨hrest, h2⟩, heg.trans hrg, forall_mem_cons.2 ⟨hrg.mono het, hrt⟩⟩

theorem FieldsRun.spec : ∀ (fields : List (Named Expr)) {scope r seen}
    {s s' : State} {fields'}, Ready g scope s → (∀ d ∈ r.fields, d.ty.Sound s.table.size) →
    checkFields g scope r seen fields s = .ok fields' s' →
    FieldsStep g scope r seen s fields fields' s' ∧ Grows s s'
  | [], _, _, _, _, _, _, hready, _, h => by
    obtain ⟨rfl, rfl⟩ := pure_eq_ok.1 h
    exact ⟨.nil, .refl hready.sound⟩
  | ⟨span, name, value⟩ :: rest, scope, r, seen, _, _, _, hready, hty, h => by
    obtain ⟨⟨i, d⟩, s0, h0, hrun⟩ := bind_eq_ok.1 h
    obtain ⟨hd, hseen, rfl⟩ := field?_of_namedField h0
    simp only [bind_eq_ok, pure_eq_ok] at hrun
    obtain ⟨value', s1, h1, _, s2, h2, rest', s3, h3, rfl, rfl⟩ := hrun
    obtain ⟨-, hvg, hvt⟩ := ExprRun.spec value hready h1
    have hu := Unifies.of_require hvg.sound (hvg.mono (hty d (mem_of_field? hd))) hvt h2
    have hgrows := hvg.trans hu.grows
    have hrest := hready.mono hgrows
    have hty' := fun d hd => hgrows.mono (hty d hd)
    exact ⟨.cons hd hseen ⟨hready, h1⟩ hu ⟨hrest, hty', h3⟩,
      hgrows.trans (FieldsRun.spec rest hrest hty' h3).2⟩

theorem ArmsRun.spec : ∀ (arms : List (Arm Expr)) {scope scrutinee result}
    {s s' : State} {arms'}, Ready g scope s → scrutinee.Sound s.table.size →
    result.Sound s.table.size → checkArms g scope scrutinee result arms s = .ok arms' s' →
    ArmsStep g scope scrutinee result s arms arms' s' ∧ Grows s s'
  | [], _, _, _, _, _, _, hready, _, _, h => by
    obtain ⟨rfl, rfl⟩ := pure_eq_ok.1 h
    exact ⟨.nil, .refl hready.sound⟩
  | ⟨span, q, none, body⟩ :: rest, scope, scrutinee, result, s, _, _,
      hready, hty, hres, h => by
    obtain ⟨⟨q', bound⟩, s1, h1, h⟩ := bind_eq_ok.1 h
    simp only [bind_eq_ok, pure_eq_ok] at h
    obtain ⟨body', s2, h2, _, s3, h3, rest', s4, h4, rfl, rfl⟩ := h
    have hq : PatternRun g scrutinee [] s q q' bound s1 :=
      ⟨hready.sound, hready.globals_sound, hty, h1⟩
    have hb := hready.bind hq
    obtain ⟨-, hbg, hbt⟩ := ExprRun.spec body hb h2
    have hg2 := hq.grows.trans hbg
    have hu := Unifies.of_require hbg.sound (hg2.mono hres) hbt h3
    have hgrows := hg2.trans hu.grows
    have hrest : ArmsRun g scope scrutinee result s3 rest rest' s4 :=
      ⟨hready.mono hgrows, hgrows.mono hty, hgrows.mono hres, h4⟩
    exact ⟨.arm hq ⟨hb, h2⟩ hu hrest, hgrows.trans (ArmsRun.spec rest hrest.toReady
      hrest.scrutinee_sound hrest.result_sound h4).2⟩
  | ⟨span, q, some guard, body⟩ :: rest, scope, scrutinee, result, s, _, _,
      hready, hty, hres, h => by
    obtain ⟨⟨q', bound⟩, s1, h1, h⟩ := bind_eq_ok.1 h
    simp only [bind_eq_ok, pure_eq_ok] at h
    obtain ⟨guard', s2, h2, _, s3, h3, body', s4, h4, _, s5, h5, rest', s6, h6, rfl, rfl⟩ := h
    have hq : PatternRun g scrutinee [] s q q' bound s1 :=
      ⟨hready.sound, hready.globals_sound, hty, h1⟩
    have hgd := hready.bind hq
    obtain ⟨-, hgg, hgt⟩ := ExprRun.spec guard hgd h2
    have hbool := Unifies.of_require hgg.sound (.of_prim _) hgt h3
    have hg3 := hgg.trans hbool.grows
    have hb := hgd.mono hg3
    obtain ⟨-, hbg, hbt⟩ := ExprRun.spec body hb h4
    have hg4 := (hq.grows.trans hg3).trans hbg
    have hu := Unifies.of_require hbg.sound (hg4.mono hres) hbt h5
    have hgrows := hg4.trans hu.grows
    have hrest : ArmsRun g scope scrutinee result s5 rest rest' s6 :=
      ⟨hready.mono hgrows, hgrows.mono hty, hgrows.mono hres, h6⟩
    exact ⟨.guarded hq ⟨hgd, h2⟩ hbool ⟨hb, h4⟩ hu hrest, hgrows.trans (ArmsRun.spec rest
      hrest.toReady hrest.scrutinee_sound hrest.result_sound h6).2⟩

end

section

variable {e : Expr} {e' : Typed.Expr} {es : List Expr} {es' : List Typed.Expr}
  {r : RecordDecl} {seen : List String} {fields : List (Named Expr)}
  {fields' : List (Typed.Field Typed.Expr)} {scrutinee result : Ty}
  {arms : List (Arm Expr)} {arms' : List (Typed.Arm Typed.Expr)}

theorem ExprRun.step (h : ExprRun g scope s e e' s') : ExprStep g scope s e e' s' :=
  (spec e h.toReady h.run).1

theorem ExprRun.grows (h : ExprRun g scope s e e' s') : Grows s s' :=
  (spec e h.toReady h.run).2.1

theorem ExprRun.ty_sound (h : ExprRun g scope s e e' s') : e'.ty.Sound s'.table.size :=
  (spec e h.toReady h.run).2.2

theorem ListRun.step (h : ListRun g scope s es es' s') : ListStep g scope s es es' s' :=
  (spec es h.toReady h.run).1

theorem ListRun.grows (h : ListRun g scope s es es' s') : Grows s s' :=
  (spec es h.toReady h.run).2.1

theorem ListRun.tys_sound (h : ListRun g scope s es es' s') : ∀ e ∈ es', e.ty.Sound s'.table.size :=
  (spec es h.toReady h.run).2.2

theorem FieldsRun.step (h : FieldsRun g scope r seen s fields fields' s') :
    FieldsStep g scope r seen s fields fields' s' :=
  (spec fields h.toReady h.fields_sound h.run).1

theorem FieldsRun.grows (h : FieldsRun g scope r seen s fields fields' s') : Grows s s' :=
  (spec fields h.toReady h.fields_sound h.run).2

theorem ArmsRun.step (h : ArmsRun g scope scrutinee result s arms arms' s') :
    ArmsStep g scope scrutinee result s arms arms' s' :=
  (spec arms h.toReady h.scrutinee_sound h.result_sound h.run).1

theorem ArmsRun.grows (h : ArmsRun g scope scrutinee result s arms arms' s') : Grows s s' :=
  (spec arms h.toReady h.scrutinee_sound h.result_sound h.run).2

end

/-! ## From what it consists of back to the check -/

theorem PatternRun.of_step (hs : s.Sound) (hg : g.Sound s.table.size)
    (hty : expected.Sound s.table.size) (h : PatternStep g expected bound s q q' bound' s') :
    PatternRun g expected bound s q q' bound' s' := by
  refine ⟨hs, hg, hty, ?_⟩
  cases h with
  | wildcard =>
    rfl
  | binding hunbound =>
    rw [checkPattern, hunbound]
    exact bind_ok rfl rfl
  | literal h =>
    exact bind_ok (h.require _ _) rfl
  | record hr h hfields =>
    rw [checkPattern, hr]
    exact bind_ok (h.require _ _) <| bind_ok hfields.run rfl

theorem FieldPatternsRun.of_step (hs : s.Sound) (hg : g.Sound s.table.size)
    (hty : ∀ d ∈ r.fields, d.ty.Sound s.table.size)
    (h : FieldPatternsStep g r bound seen s fields fields' bound' s') :
    FieldPatternsRun g r bound seen s fields fields' bound' s' := by
  refine ⟨hs, hg, hty, ?_⟩
  cases h with
  | nil =>
    rfl
  | cons hd hseen hq hrest =>
    exact bind_ok (namedField_eq_ok hd hseen s) <| bind_ok hq.run <| bind_ok hrest.run rfl

theorem ListRun.of_step (hready : Ready g scope s)
    (h : ListStep g scope s es es' s') : ListRun g scope s es es' s' := by
  refine ⟨hready, ?_⟩
  cases h with
  | nil =>
    rfl
  | cons he hrest =>
    exact bind_ok he.run <| bind_ok hrest.run rfl

theorem FieldsRun.of_step (hready : Ready g scope s) (hty : ∀ d ∈ r.fields, d.ty.Sound s.table.size)
    (h : FieldsStep g scope r seen s fields fields' s') :
    FieldsRun g scope r seen s fields fields' s' := by
  refine ⟨hready, hty, ?_⟩
  cases h with
  | nil =>
    rfl
  | cons hd hseen hvalue hunify hrest =>
    exact bind_ok (namedField_eq_ok hd hseen s) <| bind_ok hvalue.run <|
      bind_ok (hunify.require _ _) <| bind_ok hrest.run rfl

theorem ArmsRun.of_step (hready : Ready g scope s) (hty : scrutinee.Sound s.table.size)
    (hres : result.Sound s.table.size) (h : ArmsStep g scope scrutinee result s arms arms' s') :
    ArmsRun g scope scrutinee result s arms arms' s' := by
  refine ⟨hready, hty, hres, ?_⟩
  cases h with
  | nil =>
    rfl
  | arm hq hbody hresult hrest =>
    exact bind_ok hq.run <| bind_ok hbody.run <| bind_ok (hresult.require _ _) <|
      bind_ok hrest.run rfl
  | guarded hq hguard hbool hbody hresult hrest =>
    exact bind_ok hq.run <| bind_ok hguard.run <| bind_ok (hbool.require _ _) <|
      bind_ok hbody.run <| bind_ok (hresult.require _ _) <| bind_ok hrest.run rfl

theorem localType_eq_ok {id l} (h : s.locals[id]? = some l) : localType id s = .ok l.ty s := by
  refine bind_ok rfl ?_
  rw [h]
  rfl

theorem annotatedType_eq_ok (h : annotated records a s.table = .ok ty t) :
    annotatedType records a s = .ok ty (s.withTable t) := by
  rw [annotatedType, h]
  rfl

theorem directCallee?_ident
    (hid : scope.lookup name.name = none) (hsig : g.function? name.name = some signature)
    (span : Span) : directCallee? g scope (.ident span name) = some (name.name, signature) := by
  rw [directCallee?, hid, hsig]
  rfl

theorem member_field (hr : g.records.get? owner = some r) (hd : r.field? name.name = some (i, d))
    (s : State) : member g owner name s = .ok (.field i d.ty) s := by
  rw [member, hr]
  simp only [hd]
  rfl

theorem member_method (hr : g.records.get? owner = some r) (hd : r.field? name.name = none)
    (hm : r.method? name.name = some m) (s : State) :
    member g owner name s = .ok (.method m.symbol m.ty) s := by
  rw [member, hr]
  simp only [hd, hm]
  rfl

/-- **The checks of its parts make the check of an expression.** -/
theorem ExprRun.of_step (hready : Ready g scope s)
    (h : ExprStep g scope s e e' s') : ExprRun g scope s e e' s' := by
  refine ⟨hready, ?_⟩
  cases h with
  | literal =>
    rfl
  | var hid hl =>
    rw [checkExpr]
    simp only [hid]
    exact bind_ok (localType_eq_ok hl) rfl
  | function hid hsig =>
    rw [checkExpr]
    simp only [hid, hsig]
    rfl
  | letIn hvalue hbody =>
    exact bind_ok hvalue.run <| bind_ok rfl <| bind_ok hbody.run rfl
  | letTyped hvalue hannotated hunify hbody =>
    exact bind_ok hvalue.run <| bind_ok (annotatedType_eq_ok hannotated) <|
      bind_ok (hunify.require _ _) <| bind_ok rfl <| bind_ok hbody.run rfl
  | block hitems =>
    exact bind_ok hitems.run rfl
  | ifThen hc hbool ha hunit =>
    exact bind_ok hc.run <| bind_ok (hbool.require _ _) <| bind_ok ha.run <|
      bind_ok (hunit.require _ _) rfl
  | ifElse hc hbool ha hb hsame =>
    exact bind_ok hc.run <| bind_ok (hbool.require _ _) <| bind_ok ha.run <| bind_ok hb.run <|
      bind_ok (hsame.require _ _) rfl
  | record hr hfields hall =>
    rw [checkExpr]
    simp only [hr]
    refine bind_ok hfields.run ?_
    simp only [hall]
    rfl
  | field htarget howner hr hd =>
    refine bind_ok htarget.run <| bind_ok (receiverRecord_eq_ok howner _) ?_
    simp only [hr, Option.bind_some, hd]
    rfl
  | callFunction hid hsig hargs hcall =>
    rw [checkExpr]
    simp only [directCallee?_ident hid hsig]
    exact bind_ok hargs.run <| bind_ok (hcall.callType _) rfl
  | callValue hdirect htarget hargs hcall =>
    rw [checkExpr]
    simp only [hdirect]
    exact bind_ok htarget.run <| bind_ok hargs.run <| bind_ok (hcall.callType _) rfl
  | @callField _ _ _ _ _ _ _ _ _ _ _ s1 _ _ hreceiver howner hr hd hargs hcall =>
    exact bind_ok hreceiver.run <| bind_ok (receiverRecord_eq_ok howner _) <|
      bind_ok (member_field hr hd s1) <| bind_ok hargs.run <| bind_ok (hcall.callType _) rfl
  | @callMethod _ _ _ _ _ _ _ _ _ _ s1 _ _ hreceiver howner hr hd hm hargs hcall =>
    exact bind_ok hreceiver.run <| bind_ok (receiverRecord_eq_ok howner _) <|
      bind_ok (member_method hr hd hm s1) <| bind_ok hargs.run <| bind_ok (hcall.callType _) rfl
  | cases hscrutinee harms =>
    exact bind_ok hscrutinee.run <| bind_ok rfl <| bind_ok harms.run <| bind_ok rfl rfl
  | list helems hsame =>
    exact bind_ok rfl <| bind_ok helems.run <| bind_ok (hsame.requireEach _ _ _) rfl
  | binary ha hb hop =>
    exact bind_ok ha.run <| bind_ok hb.run <| bind_ok hop.binaryType rfl
  | unary ha hop =>
    exact bind_ok ha.run <| bind_ok (hop.require _ _) rfl

end Sluice.Infer
