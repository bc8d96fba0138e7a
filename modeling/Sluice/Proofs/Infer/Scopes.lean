import Sluice.Proofs.Infer.Effect

/-!
# Names and numbers in a body

What the check of an expression leaves behind is in the expression it gives:
its binders are the locals it declared, its matches those it numbered, and its
uses the names it met (`checkExpr_yields`). So a body that passes has all its
names resolved (`checkBody_scoped`), and one that fails is taken back completely
by a rollback (`checkBody_rollback`).
-/

namespace Sluice.Infer

open List
open Typed (Arm Expr Local LocalId MatchId Pattern Use)
open Unify (Table)
open Unify.Table (Moves)

variable {g : Globals} {scope : Scope} {s s' : State}

/-! ## Patterns -/

mutual

/-- A pattern binds what it declares, and its names go in front of those bound before. -/
theorem checkPattern_yields : ∀ q expected bound,
    Yields {} scope (checkPattern g expected bound q) fun r m =>
      r.2 = m.bound ++ bound ∧ m.Are r.1.binders [] q.idents (r.1.binders.map .binder)
  | .wildcard _, _, _ => .pure ⟨rfl, rfl, rfl, rfl, rfl⟩
  | .binding _ name, expected, bound => by
    rw [checkPattern]
    split
    · exact Quiet.yields (Quiet.fail _ _) fun _ => (declareLocal_yields _ _).bind fun _ _ hm =>
        .pure (hm ▸ ⟨rfl, rfl, rfl, rfl, rfl⟩)
    · exact (declareLocal_yields _ _).bind fun _ _ hm => .pure (hm ▸ ⟨rfl, rfl, rfl, rfl, rfl⟩)
  | .literal _ _, _, _ => (require_quiet _ _ _ _).yields fun _ => .pure ⟨rfl, rfl, rfl, rfl, rfl⟩
  | .record _ name fields, expected, bound => by
    rw [checkPattern]
    split
    · exact (require_quiet _ _ _ _).yields fun _ =>
        (checkFieldPatterns_yields fields _ _ _).bind fun _ _ hm => .pure hm
    · exact .fail

theorem checkFieldPatterns_yields : ∀ (fields : List (Source.Named Source.Pattern))
    (record : RecordDecl) (bound : Scope) (seen : List String),
    Yields {} scope (checkFieldPatterns g record bound seen fields) fun r m =>
      r.2 = m.bound ++ bound ∧ m.Are (Pattern.fieldBinders r.1) []
        (Source.Pattern.fieldIdents fields) ((Pattern.fieldBinders r.1).map .binder)
  | [], _, _, _ => .pure ⟨rfl, rfl, rfl, rfl, rfl⟩
  | ⟨_, name, q⟩ :: rest, record, _, seen =>
    (namedField_quiet record seen name).yields fun _ =>
      (checkPattern_yields q _ _).bind fun _ m hq =>
        (checkFieldPatterns_yields rest _ _ _).bind fun _ m' hr => .pure (by
          refine ⟨?_, by rw [Pattern.fieldBinders, map_append]; exact hq.2.append hr.2⟩
          change _ = (m ++ m').bound ++ _
          rw [hr.1, hq.1, Marks.bound_append, List.append_assoc])

end

/-! ## Expressions -/

/-- A local that is found in scope is the closest of its name. -/
theorem standsFor_var {name id} (h : scope.lookup name = some id) {names}
    (hnames : NamedIn names scope) : (Use.var (scope.map (·.2)) id).StandsFor names name := by
  obtain ⟨closer, farther, rfl, hcloser⟩ := lookup_eq_some_iff.1 h
  refine ⟨closer.map (·.2), farther.map (·.2), by simp, hnames (name, id) (by simp), ?_⟩
  intro i hi heq
  obtain ⟨d, hd, rfl⟩ := mem_map.1 hi
  rw [hnames d (mem_append_left _ hd)] at heq
  exact bne_iff_ne.1 (hcloser d hd) (Option.some.inj heq).symm

/-- A name that is not found in scope is no name of an enclosing local. -/
theorem standsFor_function (h : scope.lookup name = none) (hnames : NamedIn names scope) :
    (Use.function (scope.map (·.2)) name).StandsFor names name := by
  refine ⟨rfl, fun i hi heq => ?_⟩
  obtain ⟨d, hd, rfl⟩ := mem_map.1 hi
  rw [hnames d hd] at heq
  exact bne_iff_ne.1 (lookup_eq_none_iff.1 h d hd) (Option.some.inj heq).symm

/-- A call reaches a function directly where it is by a name that no local hides. -/
theorem directCallee?_eq_some (h : directCallee? g scope target = some (symbol, signature)) :
    ∃ span name, target = .ident span name ∧ name.name = symbol ∧
      scope.lookup name.name = none ∧ g.function? symbol = some signature := by
  cases target with
  | ident span name =>
    rw [directCallee?] at h
    split at h
    · cases h
    · rename_i hnone
      obtain ⟨sig, hsig, heq⟩ := Option.map_eq_some_iff.1 h
      cases heq
      exact ⟨span, name, rfl, rfl, Option.not_isSome_iff_eq_none.1 hnone, hsig⟩
  | literal | letIn | block | ifThen | ifElse | record | field | call | methodCall | cases | list
  | binary | unary => cases h

/-- The marks of an expression are its binders, its matches and its uses. -/
abbrev ExprMarks (scope : Scope) (e : Source.Expr) (e' : Expr) (m : Marks) : Prop :=
  m.Are e'.binders e'.matchIds e.idents (e'.uses (scope.map (·.2)))

/-- The marks of several expressions. -/
abbrev ListMarks (scope : Scope) (es : List Source.Expr) (es' : List Expr) (m : Marks) :
    Prop :=
  m.Are (Expr.listBinders es') (Expr.listMatchIds es') (Source.Expr.listIdents es)
    (Expr.listUses (scope.map (·.2)) es')

/-- The marks of field initializers. -/
abbrev FieldMarks (scope : Scope) (fields : List (Source.Named Source.Expr))
    (fields' : List (Typed.Field Expr)) (m : Marks) : Prop :=
  m.Are (Expr.fieldBinders fields') (Expr.fieldMatchIds fields')
    (Source.Expr.fieldIdents fields) (Expr.fieldUses (scope.map (·.2)) fields')

/-- The marks of match arms. -/
abbrev ArmMarks (scope : Scope) (arms : List (Source.Arm Source.Expr))
    (arms' : List (Arm Expr)) (m : Marks) : Prop :=
  m.Are (Expr.armBinders arms') (Expr.armMatchIds arms') (Source.Expr.armIdents arms)
    (Expr.armUses (scope.map (·.2)) arms')

/-- A `let` behind its value: its local is declared and in scope of the body. -/
theorem letBody_yields {m span name ty annotation value body value'}
    (hv : ExprMarks scope value value' m) (hbody : ∀ id, Yields {} ((name.name, id) :: scope)
      (checkExpr g ((name.name, id) :: scope) body) (ExprMarks ((name.name, id) :: scope) body)) :
    Yields m scope
      (do
        let id ← declareLocal name ty
        let body ← checkExpr g ((name.name, id) :: scope) body
        return .letIn ⟨span, body.ty⟩ id value' body)
      (ExprMarks scope (.letIn span name annotation value body)) := by
  refine (declareLocal_yields name ty).bind fun id _ hd => ?_
  subst hd
  refine (hbody id).inside ?_ fun body' _ hb => .pure ?_
  · rw [Marks.bound_append]
    exact cons_subset_cons _ (subset_append_right _ _)
  · rw [Marks.append_assoc]
    exact hv.append ((Marks.are_ofLocal name ty id).append hb)

/-- What the pattern of an arm bound. -/
abbrev PatternMarks (q : Source.Pattern) (r : Pattern × Scope) (m : Marks) : Prop :=
  r.2 = m.bound ++ [] ∧ m.Are r.1.binders [] q.idents (r.1.binders.map .binder)

theorem PatternMarks.subset (hq : PatternMarks q r m) :
    r.2 ++ scope ⊆ ({} ++ m : Marks).bound ++ scope := by
  rw [hq.1, append_nil]
  exact Subset.refl _

/-- Guard and body of an arm are enclosed by the binders of its pattern. -/
theorem ExprMarks.inArm (he : ExprMarks (r.2 ++ scope) e e' m') (hq : PatternMarks q r m) :
    m'.Are e'.binders e'.matchIds e.idents (e'.uses (r.1.binders.reverse ++ scope.map (·.2))) := by
  have hscope : (r.2 ++ scope).map (·.2) = r.1.binders.reverse ++ scope.map (·.2) := by
    rw [hq.1, append_nil, map_append, hq.2.map_bound]
  rwa [ExprMarks, hscope] at he

mutual

/-- **What the check of an expression leaves behind.** -/
theorem checkExpr_yields : ∀ e scope,
    Yields {} scope (checkExpr g scope e) (ExprMarks scope e)
  | .literal _ _, _ => .pure ⟨rfl, rfl, rfl, rfl⟩
  | .ident _ name, scope => by
    rw [checkExpr]
    split
    · rename_i id hid
      exact .use (fun _ => standsFor_var hid) ((localType_quiet _).yields fun _ =>
        .pure ⟨rfl, rfl, rfl, rfl⟩)
    · rename_i hnone
      split
      · exact .use (fun _ => standsFor_function hnone) (.pure ⟨rfl, rfl, rfl, rfl⟩)
      · exact .fail
  | .letIn _ _ none value body, scope =>
    (checkExpr_yields value scope).bind fun _ _ hv =>
      letBody_yields hv fun _ => checkExpr_yields body _
  | .letIn _ _ (some a) value body, scope =>
    (checkExpr_yields value scope).bind fun _ _ hv => (annotatedType_quiet _ a).yields fun _ =>
      (require_quiet _ _ _ _).yields fun _ => letBody_yields hv fun _ => checkExpr_yields body _
  | .block _ items, scope => (checkList_yields items scope).bind fun _ _ hm => .pure hm
  | .ifThen _ c a, scope =>
    (checkExpr_yields c scope).bind fun _ _ hc => (require_quiet _ _ _ _).yields fun _ =>
      (checkExpr_yields a scope).bind fun _ _ ha => (require_quiet _ _ _ _).yields fun _ =>
        .pure (hc.append ha)
  | .ifElse _ c a b, scope =>
    (checkExpr_yields c scope).bind fun _ _ hc => (require_quiet _ _ _ _).yields fun _ =>
      (checkExpr_yields a scope).bind fun _ _ ha => (checkExpr_yields b scope).bind fun _ _ hb =>
        (require_quiet _ _ _ _).yields fun _ => .pure (by
          rw [Marks.append_assoc]
          exact hc.append (ha.append hb))
  | .record _ name fields, scope => by
    rw [checkExpr]
    split
    · refine (checkFields_yields fields _ _ _).bind fun fields' _ hm => ?_
      split
      · exact .fail
      · exact .pure hm
    · exact .fail
  | .field _ target name, scope => by
    refine (checkExpr_yields target scope).bind fun _ _ hm =>
      (receiverRecord_quiet _ _).yields fun owner => ?_
    cases owner with
    | none => exact .pure hm
    | some owner =>
      simp only
      split
      · exact .pure hm
      · exact .fail
  | .call _ target args, scope => by
    rw [checkExpr]
    split
    · rename_i symbol signature hcallee
      obtain ⟨_, name, rfl, rfl, hnone, -⟩ := directCallee?_eq_some hcallee
      have hname : Marks.Are { written := [name.name], uses := [.function _ name.name] } [] []
        [name.name] [.function (scope.map (·.2)) name.name] := ⟨rfl, rfl, rfl, rfl⟩
      exact .use (fun _ => standsFor_function hnone)
        ((checkList_yields args scope).bind fun _ _ ha => (callType_quiet _ _ _).yields fun _ =>
          .pure (hname.append ha))
    · exact (checkExpr_yields target scope).bind fun _ _ hf =>
        (checkList_yields args scope).bind fun _ _ ha => (callType_quiet _ _ _).yields fun _ =>
          .pure (hf.append ha)
  | .methodCall _ receiver name args, scope => by
    refine (checkExpr_yields receiver scope).bind fun _ _ hr =>
      (receiverRecord_quiet _ _).yields fun owner => ?_
    cases owner with
    | none => exact (checkList_yields args scope).bind fun _ _ ha => .pure (hr.append ha)
    | some owner =>
      refine (member_quiet g owner name).yields fun found => ?_
      cases found <;> exact (checkList_yields args scope).bind fun _ _ ha =>
        (callType_quiet _ _ _).yields fun _ => .pure (hr.append ha)
  | .cases _ scrutinee arms, scope =>
    (checkExpr_yields scrutinee scope).bind fun _ _ hs => fresh_quiet.yields fun _ =>
      (checkArms_yields arms _ _ _).bind fun _ _ ha => nextMatch_yields.bind fun id _ hid =>
        .pure (by
          obtain ⟨hb, hi, hw, hu⟩ := hs.append ha
          subst hid
          exact ⟨(map_append ..).trans ((append_nil _).trans hb),
            (congrArg (· ++ [id]) hi).trans (List.append_assoc ..), (append_nil _).trans hw,
            (append_nil _).trans hu⟩)
  | .list _ elems, scope =>
    fresh_quiet.yields fun _ => (checkList_yields elems scope).bind fun _ _ hm =>
      (requireEach_quiet _ _ _).yields fun _ => .pure hm
  | .binary _ op lhs rhs, scope =>
    (checkExpr_yields lhs scope).bind fun _ _ ha => (checkExpr_yields rhs scope).bind fun _ _ hb =>
      (binaryType_quiet op _ _).yields fun _ => .pure (ha.append hb)
  | .unary _ _ operand, scope =>
    (checkExpr_yields operand scope).bind fun _ _ hm => (require_quiet _ _ _ _).yields fun _ =>
      .pure hm

theorem checkList_yields : ∀ es scope,
    Yields {} scope (checkList g scope es) (ListMarks scope es)
  | [], _ => .pure ⟨rfl, rfl, rfl, rfl⟩
  | e :: rest, scope =>
    (checkExpr_yields e scope).bind fun _ _ he => (checkList_yields rest scope).bind fun _ _ hr =>
      .pure (he.append hr)

theorem checkFields_yields : ∀ fields (scope : Scope)
    (record : RecordDecl) (seen : List String),
    Yields {} scope (checkFields g scope record seen fields) (FieldMarks scope fields)
  | [], _, _, _ => .pure ⟨rfl, rfl, rfl, rfl⟩
  | ⟨_, name, value⟩ :: rest, scope, record, seen =>
    (namedField_quiet record seen name).yields fun _ =>
      (checkExpr_yields value scope).bind fun _ _ he => (require_quiet _ _ _ _).yields fun _ =>
        (checkFields_yields rest _ _ _).bind fun _ _ hr => .pure (he.append hr)

theorem checkArms_yields : ∀ arms (scope : Scope)
    (scrutinee result : Ty),
    Yields {} scope (checkArms g scope scrutinee result arms) (ArmMarks scope arms)
  | [], _, _, _ => .pure ⟨rfl, rfl, rfl, rfl⟩
  | ⟨_, q, none, body⟩ :: rest, scope, _, _ =>
    (checkPattern_yields q _ _).bind fun _ _ hq =>
      (checkExpr_yields body _).inside (PatternMarks.subset hq) fun _ _ hb =>
        (require_quiet _ _ _ _).yields fun _ => (checkArms_yields rest scope _ _).bind fun _ _ hr =>
          .pure (by
            rw [Marks.append_assoc]
            exact hq.2.append ((hb.inArm hq).append hr))
  | ⟨_, q, some guard, body⟩ :: rest, scope, _, _ =>
    (checkPattern_yields q _ _).bind fun _ _ hq =>
      (checkExpr_yields guard _).inside (PatternMarks.subset hq) fun _ _ hg =>
        (require_quiet _ _ _ _).yields fun _ =>
          (checkExpr_yields body _).inside
            (Subset.trans (PatternMarks.subset hq) (by simp)) fun _ _ hb =>
            (require_quiet _ _ _ _).yields fun _ =>
              (checkArms_yields rest scope _ _).bind fun _ _ hr => .pure (by
                rw [Marks.append_assoc, Marks.append_assoc]
                exact hq.2.append ((hg.inArm hq).append ((hb.inArm hq).append hr)))

end

/-! ## Bodies -/

/-- Parameters are declared as they are written. -/
theorem declareParams_yields : ∀ params bound,
    Yields {} scope (declareParams bound params) fun r m =>
      r.2 = m.bound ++ bound ∧ m.Are r.1 [] (params.map (·.1.name)) (r.1.map .binder) ∧
        m.declared.map (·.1) = params.map fun q => ⟨q.1.span, q.1.name, q.2⟩
  | [], _ => .pure ⟨rfl, ⟨rfl, rfl, rfl, rfl⟩, rfl⟩
  | (name, ty) :: rest, bound => by
    refine (declareLocal_yields name ty).bind fun id _ hd => ?_
    subst hd
    refine (declareParams_yields rest _).bind fun _ m hr => .pure ⟨?_, ?_, ?_⟩
    · change _ = (Marks.ofLocal name ty id ++ m).bound ++ _
      rw [hr.1, Marks.bound_append, List.append_assoc]
      rfl
    · exact (Marks.are_ofLocal name ty id).append hr.2.1
    · exact congrArg (_ :: ·) hr.2.2

theorem checkBody_moves (g : Globals) (p : Pending) :
    Leads (fun s s' => Moves s.table s'.table) (checkBody g p) :=
  Leads.bind Moves.trans (@declareParams_yields [] _ _).moves fun _ =>
    Leads.bind Moves.trans (checkExpr_yields _ _).moves fun _ =>
      Leads.bind Moves.trans (fun s => (require_quiet _ _ _ _ s).moves) fun _ => fun _ => .refl

/-- **A failed check leaves nothing behind:** rolling back to the snapshot taken before it gives
the table of before. -/
theorem checkBody_rollback (h : checkBody g p { table := t.snapshot.2 } = .error e s) :
    s.table.rollback t.snapshot.1 = t := by
  have hmoves := checkBody_moves g p { table := t.snapshot.2 }
  rw [h] at hmoves
  exact Moves.rollback hmoves

/-- What the check of a body that passes consists of. -/
theorem checkBody_eq_ok (h : checkBody g p { table := t } = .ok f s') : ∃ params scope body s1 s2,
      declareParams [] p.params { table := t } = .ok (params, scope) s1 ∧
      checkExpr g scope p.definition.body s1 = .ok body s2 ∧
      require p.signature.ret body.ty p.definition.body.span .functionReturn s2 = .ok () s' ∧
      f = ⟨p.definition.span, p.symbol, p.kind, params, s'.locals, p.signature.ret, s'.matchCount,
        body⟩ := by
  obtain ⟨⟨params, scope⟩, s1, h1, h⟩ := bind_eq_ok.1 h
  obtain ⟨body, s2, h2, h⟩ := bind_eq_ok.1 h
  obtain ⟨_, s3, h3, h⟩ := bind_eq_ok.1 h
  obtain ⟨s4, s5, h4, h⟩ := bind_eq_ok.1 h
  obtain ⟨rfl, rfl⟩ := get_eq_ok.1 h4
  obtain ⟨rfl, rfl⟩ := pure_eq_ok.1 h
  exact ⟨params, scope, body, s1, s2, h1, h2, h3, rfl⟩

/-- **A check that passes resolves the names of its body,** whatever table it started with. The
parameters are the first locals. -/
theorem checkBody_scoped (h : checkBody g p { table := t } = .ok f s') :
    p.definition.body.ScopedAs f ∧ f.params = List.range p.params.length ∧
      (p.params.map fun q => ⟨q.1.span, q.1.name, q.2⟩) <+: f.locals := by
  obtain ⟨params, scope, body, s1, s2, h1, h2, h3, rfl⟩ := checkBody_eq_ok h
  obtain ⟨m1, ⟨hscope, hparams, hdeclared⟩, hm1⟩ :=
    (declareParams_yields p.params []).marks (.refl [] _) h1
  obtain ⟨m2, hbody, hm2⟩ := (checkExpr_yields p.definition.body scope).marks (.refl _ _) h2
  have hret : Retables s2 s' := by
    have hleads := require_quiet p.signature.ret body.ty p.definition.body.span .functionReturn s2
    rwa [h3] at hleads
  have hscope : scope = m1.bound ++ [] := hscope
  have hm := (hm1.seq (fun _ hd => hscope ▸ hd) hm2).retables hret
  have hmap : scope.map (·.2) = params.reverse := by
    rw [hscope, append_nil, hparams.map_bound]
  have hall := hparams.append hbody
  rw [hmap] at hall
  have hlocals : s'.locals = (m1 ++ m2).declared.map (·.1) := hm.locals_eq
  have hlen : m1.declared.length = p.params.length := by simpa using congrArg length hdeclared
  refine ⟨⟨?_, ?_, ?_⟩, ?_, ?_⟩
  · change params ++ body.binders = List.range s'.locals.length
    rw [← hall.binders_eq, hm.ids_eq, hlocals, length_map, range_eq_range']
    rfl
  · change body.matchIds = List.range s'.matchCount
    have hids : (m1 ++ m2).numbered = body.matchIds := hall.ids_eq
    rw [hm.matchCount_eq, ← hids, hm.numbered_eq, length_range', range_eq_range', Nat.zero_add]
  · have hstand := hm.stand (s'.locals.map (·.name)) (prefix_refl _) nofun
    rw [hall.written_eq, hall.uses_eq] at hstand
    -- the first names are those of the parameters
    have hrest := forall₂_drop_append _ _ _ hstand
    rwa [length_map, drop_left' (by rw [length_map, ← hlen, ← hparams.binders_eq, length_map])]
      at hrest
  · refine hparams.binders_eq.symm.trans ?_
    rw [hm1.ids_eq, hlen, range_eq_range']
    rfl
  · rw [← hdeclared]
    rw [hlocals]
    exact (prefix_append _ _).map _

end Sluice.Infer
