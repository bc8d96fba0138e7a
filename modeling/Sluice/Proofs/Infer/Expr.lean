import Sluice.Proofs.Infer.Steps

/-!
# Checked expressions are well typed

What a check gives is put together from what the checks of the parts give, for
each form of expression. The induction is on the expression, by way of the
expressions right below it (`Source.Expr.child_induction`).
-/

namespace Sluice

open List

/-! ## Expressions right below -/

namespace Source

/-- The guards and bodies of arms. -/
def Expr.armChildren : List (Arm Expr) → List Expr
  | [] => []
  | ⟨_, _, none, body⟩ :: rest => body :: armChildren rest
  | ⟨_, _, some guard, body⟩ :: rest => guard :: body :: armChildren rest

/-- The expressions right below an expression. -/
def Expr.children : Expr → List Expr
  | .literal _ _ | .ident _ _ => []
  | .letIn _ _ _ a b | .ifThen _ a b | .binary _ _ a b => [a, b]
  | .ifElse _ a b c => [a, b, c]
  | .field _ a _ | .unary _ _ a => [a]
  | .block _ es | .list _ es => es
  | .record _ _ fields => fields.map (·.value)
  | .call _ a es | .methodCall _ a _ es => a :: es
  | .cases _ a arms => a :: armChildren arms

theorem Expr.sizeOf_lt_of_mem_armChildren (h : x ∈ armChildren arms) : sizeOf x < sizeOf arms := by
  fun_induction armChildren arms with
  | case1 => exact nomatch h
  | case2 | case3 => grind [Arm.mk.sizeOf_spec, List.cons.sizeOf_spec, Option.some.sizeOf_spec]

theorem Expr.sizeOf_lt_of_mem_children {e x : Expr} (h : x ∈ e.children) : sizeOf x < sizeOf e := by
  cases e with
  | literal | ident => exact nomatch h
  | letIn | ifThen | binary | ifElse | field | unary =>
    simp only [children, mem_cons, not_mem_nil, or_false] at h
    rcases h with rfl | rfl | rfl <;> simp <;> omega
  | block | list => exact Nat.lt_of_lt_of_le (sizeOf_lt_of_mem h) (by simp [children])
  | record =>
    obtain ⟨⟨_, _, _⟩, hf, rfl⟩ := mem_map.1 h
    have := sizeOf_lt_of_mem hf
    simp at *
    omega
  | call | methodCall =>
    rcases mem_cons.1 h with rfl | h
    · simp
      omega
    · exact Nat.lt_of_lt_of_le (sizeOf_lt_of_mem h) (by simp)
  | cases =>
    rcases mem_cons.1 h with rfl | h
    · simp
      omega
    · exact Nat.lt_of_lt_of_le (sizeOf_lt_of_mem_armChildren h) (by simp)

/-- **What passes from the expressions right below to an expression** holds of all. -/
@[elab_as_elim] theorem Expr.child_induction {P : Expr → Prop}
    (step : ∀ e, (∀ x ∈ e.children, P x) → P e) (e : Expr) : P e :=
  step e fun x hx => have := sizeOf_lt_of_mem_children hx; child_induction step x
termination_by sizeOf e

end Source

namespace Infer

open Typed (Expr Info IsField Local LocalId Pattern Program)

variable {g : Globals} {s s' : State} {scope : Scope} {r : RecordDecl} {span : Span}

/-! ## What a checked expression guarantees -/

/-- A checked expression is well typed wherever the names it was checked under are in scope. -/
abbrev ExprChecks (g : Globals) (scope : Scope) (e : Source.Expr) (s : State) (e' : Expr)
    (s' : State) : Prop :=
  Checks g s s' e'.sites fun p L θ =>
    (∀ S, scope.map (·.2) ⊆ S → (e'.mapTy (Ty.subst θ)).WellTyped p L S) ∧
      e.TypedAs p.records L (e'.mapTy (Ty.subst θ))

/-- Several checked expressions. -/
abbrev ListChecks (g : Globals) (scope : Scope) (es : List Source.Expr) (s : State)
    (es' : List Expr) (s' : State) : Prop :=
  Checks g s s' (Expr.listSites es') fun p L θ =>
      (∀ S, scope.map (·.2) ⊆ S → Expr.WellTypedList p L S (Expr.mapListTy (Ty.subst θ) es')) ∧
      Source.Expr.TypedAsList p.records L es (Expr.mapListTy (Ty.subst θ) es')

/-- Checked field initializers. -/
abbrev FieldsCheck (g : Globals) (scope : Scope) (r : RecordDecl)
    (fields : List (Source.Named Source.Expr)) (s : State) (fields' : List (Typed.Field Expr))
    (s' : State) : Prop :=
  Checks g s s' (Expr.fieldSites fields') fun p L θ =>
      (∀ S, scope.map (·.2) ⊆ S → Expr.WellTypedFields p L S (r.mapTy (Ty.subst θ))
        (Expr.mapFieldsTy (Ty.subst θ) fields')) ∧
      Source.Expr.TypedAsFields p.records L fields (Expr.mapFieldsTy (Ty.subst θ) fields')

/-- Checked match arms. -/
abbrev ArmsCheck (g : Globals) (scope : Scope) (scrutinee result : Ty)
    (arms : List (Source.Arm Source.Expr)) (s : State) (arms' : List (Typed.Arm Expr))
    (s' : State) : Prop :=
  Checks g s s' (Expr.armSites arms') fun p L θ =>
      (∀ S, scope.map (·.2) ⊆ S → Expr.WellTypedArms p L S (scrutinee.subst θ)
        (result.subst θ) (Expr.mapArmsTy (Ty.subst θ) arms')) ∧
      Source.Expr.TypedAsArms p.records L arms (Expr.mapArmsTy (Ty.subst θ) arms')

/-- An expression over parts that have been checked. -/
theorem ExprRun.node (h : ExprRun g scope s e e' s') (hparts : Checks g s s' sites P)
    (hsites : e'.sites = e'.info :: sites) (hP : ∀ p L θ, Reading p g L θ s' → P p L θ →
      (∀ S, scope.map (·.2) ⊆ S → (e'.mapTy (Ty.subst θ)).WellTyped p L S) ∧
        e.TypedAs p.records L (e'.mapTy (Ty.subst θ))) : ExprChecks g scope e s e' s' := by
  refine hparts.weaken (fun site hsite => ?_) hP
  rw [hsites] at hsite
  rcases mem_cons.1 hsite with rfl | hsite
  · exact .inr h.ty_sound
  · exact .inl hsite

/-! ## Records -/

/-- Fields named once each, among which every declared field is, are all the fields. -/
theorem NamedOnce.perm_range {fields : List (Typed.Field α)} (h : NamedOnce r [] fields)
    (hr : (r.fields.map (·.name)).Nodup) (hall : ∀ d ∈ r.fields, ∃ f ∈ fields, f.name = d.name) :
    (fields.map (·.index)).Perm (List.range r.fields.length) := by
  refine (perm_ext_iff_of_nodup h.nodup_index nodup_range).2 fun i => ?_
  rw [mem_range]
  constructor
  · intro hi
    obtain ⟨f, hf, rfl⟩ := mem_map.1 hi
    obtain ⟨d, hd, -⟩ := h.declared f hf
    exact (List.getElem?_eq_some_iff.1 hd).1
  · intro hi
    obtain ⟨f, hf, hname⟩ := hall r.fields[i] (getElem_mem hi)
    obtain ⟨d, hd⟩ := h.declared f hf
    have hi' : IsField r f.name i r.fields[i] := ⟨getElem?_eq_getElem hi, hname.symm⟩
    rw [hi'.index_unique hr hd]
    exact mem_map_of_mem hf

/-- A record that is declared is one of the program. -/
theorem Reading.get? (h : Reading p g L θ s)
    (hr : g.records.get? name = some r) : p.records.get? name = some (r.mapTy (Ty.subst θ)) := by
  rw [h.realises.records_eq, RecordTable.get?_mapTy, hr]
  rfl

theorem FieldsRun.namedOnce
    (h : FieldsRun g scope r seen s fields fields' s') : NamedOnce r seen fields' := by
  induction fields generalizing seen s fields' with
  | nil =>
    cases h.step with
    | nil => exact .nil
  | cons _ _ ih =>
    cases h.step with
    | cons hd hseen _ _ hrest => exact .cons (RecordDecl.isField_of_field? hd) hseen (ih hrest)

/-! ## Lists, fields and arms -/

/-- The names a pattern brought into scope are its binders. -/
theorem bound_append_subset {q' : Pattern}
    (hbound : ∀ id ∈ bound.map (·.2), id ∈ q'.binders ∨ id ∈ ([] : Scope).map (·.2))
    (hS : scope.map (·.2) ⊆ S) : (bound ++ scope).map (·.2) ⊆ q'.binders ++ S := by
  intro id hid
  rw [map_append, mem_append] at hid
  rcases hid with hid | hid
  · exact mem_append_left _ ((hbound id hid).resolve_right not_mem_nil)
  · exact mem_append_right _ (hS hid)

/-- What the check of an expression gives is well typed, wherever it is made. -/
def ChecksWell (g : Globals) (e : Source.Expr) : Prop :=
  ∀ ⦃scope : Scope⦄ ⦃s : State⦄ ⦃e' : Expr⦄ ⦃s' : State⦄, ExprRun g scope s e e' s' →
    ExprChecks g scope e s e' s'

theorem ListRun.checks (ih : ∀ e ∈ es, ChecksWell g e) (h : ListRun g scope s es es' s') :
    ListChecks g scope es s es' s' := by
  induction es generalizing s es' with
  | nil =>
    cases h.step with
    | nil => exact (Checks.nothing h.sound).imp fun _ _ _ _ _ => ⟨fun _ _ => trivial, trivial⟩
  | cons e rest ihr =>
    obtain ⟨ihe, ihs⟩ := forall_mem_cons.1 ih
    cases h.step with
    | cons he hrest =>
      exact ((ihe he).seq (ihr ihs hrest)).imp fun _ _ _ _ hP =>
        ⟨fun S hS => ⟨hP.1.1 S hS, hP.2.1 S hS⟩, hP.1.2, hP.2.2⟩

theorem FieldsRun.checks (ih : ∀ e ∈ fields.map (·.value), ChecksWell g e)
    (h : FieldsRun g scope r seen s fields fields' s') :
    FieldsCheck g scope r fields s fields' s' := by
  induction fields generalizing seen s fields' with
  | nil =>
    cases h.step with
    | nil => exact (Checks.nothing h.sound).imp fun _ _ _ _ _ => ⟨fun _ _ => trivial, trivial⟩
  | cons field rest ihr =>
    obtain ⟨ihv, ihs⟩ := forall_mem_cons.1 ih
    cases h.step with
    | cons hd hseen hvalue hunify hrest =>
      refine ((ihv hvalue).seq (hunify.settles.seq (ihr ihs hrest))).weaken
        (fun _ hsite => .inl ?_) fun p L θ _ hP =>
          ⟨fun S hS => ⟨⟨_, (RecordDecl.isField_of_field? hd).mapTy _, ?_⟩, hP.1.1 S hS,
            hP.2.2.1 S hS⟩, rfl, hP.1.2, hP.2.2.2⟩
      · simpa [Expr.fieldSites] using hsite
      · rw [Expr.ty_mapTy]
        exact hP.2.1.symm

theorem ArmsRun.checks (ih : ∀ e ∈ Source.Expr.armChildren arms, ChecksWell g e)
    (h : ArmsRun g scope scrutinee result s arms arms' s') :
    ArmsCheck g scope scrutinee result arms s arms' s' := by
  induction arms generalizing s arms' with
  | nil =>
    cases h.step with
    | nil => exact (Checks.nothing h.sound).imp fun _ _ _ _ _ => ⟨fun _ _ => trivial, trivial⟩
  | cons arm rest ihr =>
    cases h.step with
    | arm hq hbody hresult hrest =>
      obtain ⟨ihb, ihs⟩ := forall_mem_cons.1 ih
      refine (hq.checks.checks.seq ((ihb hbody).seq (hresult.settles.seq (ihr ihs hrest)))).weaken
        (fun _ hsite => .inl ?_) fun p L θ _ hP => ?_
      · simpa [Expr.armSites] using hsite
      obtain ⟨⟨hqt, hqa⟩, ⟨hbt, hba⟩, hres, hrt, hra⟩ := hP
      refine ⟨fun S hS => ⟨hqt, ?_, ?_, hrt S hS⟩, hqa, hba, hra⟩
      · rw [Expr.ty_mapTy]
        exact hres.symm
      · rw [Pattern.binders_mapTy]
        exact hbt _ (bound_append_subset hq.checks.bound_subset hS)
    | guarded hq hguard hbool hbody hresult hrest =>
      obtain ⟨ihg, ih⟩ := forall_mem_cons.1 ih
      obtain ⟨ihb, ihs⟩ := forall_mem_cons.1 ih
      refine (hq.checks.checks.seq ((ihg hguard).seq (hbool.settles.seq ((ihb hbody).seq
        (hresult.settles.seq (ihr ihs hrest)))))).weaken (fun _ hsite => .inl ?_)
        fun p L θ _ hP => ?_
      · simpa [Expr.armSites] using hsite
      obtain ⟨⟨hqt, hqa⟩, ⟨hgt, hga⟩, hcond, ⟨hbt, hba⟩, hres, hrt, hra⟩ := hP
      refine ⟨fun S hS => ⟨hqt, ?_, ?_, ?_, ?_, hrt S hS⟩, hqa, hga, hba, hra⟩
      · rw [Expr.ty_mapTy]
        exact hcond.symm
      · rw [Expr.ty_mapTy]
        exact hres.symm
      · rw [Pattern.binders_mapTy]
        exact hgt _ (bound_append_subset hq.checks.bound_subset hS)
      · rw [Pattern.binders_mapTy]
        exact hbt _ (bound_append_subset hq.checks.bound_subset hS)

/-! ## Expressions -/

theorem letIn_checks (h : ExprRun g scope s (.letIn span name annotation value body)
      (.letIn ⟨span, body'.ty⟩ s2.locals.length value' body') s')
    (hv : ExprChecks g scope value s value' s1)
    (ha : Settles g s1 s2 fun _ _ θ => ty.subst θ = value'.ty.subst θ ∧
      ∀ a, annotation = some a → a.Allows g.records (ty.subst θ)) (hty : ty.Sound s2.table.size)
    (hb : ExprChecks g ((name.name, s2.locals.length) :: scope) body (s2.declare name ty) body'
      s') :
    ExprChecks g scope (.letIn span name annotation value body) s
      (.letIn ⟨span, body'.ty⟩ s2.locals.length value' body') s' := by
  obtain ⟨hd, -⟩ := declareLocal_checks (g := g) ha.grows.sound hty
    (rfl : declareLocal name ty s2 = _)
  refine h.node (hv.seq (ha.seq (hd.seq hb))) rfl fun p L θ hr hP => ?_
  obtain ⟨⟨hvt, hva⟩, ⟨hty, hann⟩, ⟨hl, hn⟩, hbt, hba⟩ := hP
  refine ⟨fun S hS => ⟨?_, ?_, hvt S hS, hbt _ ?_⟩, hn, fun a ha' => ⟨_, hl, ?_⟩, hva, hba⟩
  · rw [Expr.ty_mapTy, ← hty]
    exact hl
  · exact (Expr.ty_mapTy body').symm
  · exact cons_subset_cons _ hS
  · rw [hr.realises.records_eq]
    exact (Source.TypeExpr.allows_congr (RecordTable.contains_mapTy _ _)).2 (hann a ha')

theorem field_checks (ih : ChecksWell g target) : ChecksWell g (.field span target name) := by
  intro scope s e' s' h
  cases h.step with
  | field htarget howner hr hd =>
    refine h.node ((ih htarget).seq (settles_of_shallow htarget.grows.sound htarget.ty_sound
      howner)) ?_ fun p L θ hread hP => ⟨fun S hS => ⟨⟨_, _, _, ?_, hread.get? hr,
        (RecordDecl.isField_of_field? hd).mapTy _, rfl⟩, hP.1.1 S hS⟩, rfl, hP.1.2⟩
    · simp [Expr.sites, Expr.info]
    · rw [Expr.ty_mapTy]
      exact hP.2

theorem callValue_checks (h : ExprRun g scope s e (.callValue ⟨span, ty⟩ callee' args') s')
    (hcallee : ExprRun g scope s callee callee' s1) (ihc : ChecksWell g callee)
    (hargs : ListRun g scope s1 args args' s2) (iha : ∀ e ∈ args, ChecksWell g e)
    (hcall : CallStep s2 callee'.ty (args'.map (·.ty)) ty s')
    (hform : ∀ p L θ, callee.TypedAs p L (callee'.mapTy (Ty.subst θ)) →
      Source.Expr.TypedAsList p L args (Expr.mapListTy (Ty.subst θ) args') →
      e.TypedAs p L ((Expr.callValue ⟨span, ty⟩ callee' args').mapTy (Ty.subst θ))) :
    ExprChecks g scope e s (.callValue ⟨span, ty⟩ callee' args') s' := by
  obtain ⟨hc, -⟩ := hcall.settles (g := g) hargs.grows.sound (hargs.grows.mono hcallee.ty_sound)
  refine h.node ((ihc hcallee).seq ((hargs.checks iha).seq hc)) ?_ fun p L θ _ hP =>
    ⟨fun S hS => ⟨?_, hP.1.1 S hS, hP.2.1.1 S hS⟩, hform _ L θ hP.1.2 hP.2.1.2⟩
  · simp [Expr.sites, Expr.info]
  · rw [Expr.ty_mapTy, Expr.map_ty_mapListTy]
    exact hP.2.2

/-- **What passes its check is well typed,** under every reading of the state it leads to. -/
theorem checksWell (e : Source.Expr) : ChecksWell g e := by
  induction e using Source.Expr.child_induction with | step e ih => ?_
  intro scope s e' s' h
  cases h.step with
  | literal => exact h.node (.nothing h.sound) rfl fun _ _ _ _ _ => ⟨fun _ _ => rfl, rfl⟩
  | var hid hl =>
    refine h.node (.nothing h.sound) rfl fun p L θ hr _ =>
      ⟨fun S hS => ⟨hS (mem_map.2 ⟨_, mem_of_lookup hid, rfl⟩), hr.hasLocal hl⟩, ?_⟩
    have hnames := hr.names hl
    rwa [h.name_of_lookup hid hl] at hnames
  | function hid hsig =>
    exact h.node (.nothing h.sound) rfl fun _ _ _ hr _ =>
      ⟨fun _ _ => ⟨_, _, hr.realises.function _ _ hsig, rfl⟩, rfl⟩
  | letIn hvalue hbody =>
    exact letIn_checks h (ih _ (.head _) hvalue)
      ((Checks.nothing hvalue.grows.sound).imp fun _ _ _ _ _ => ⟨rfl, nofun⟩) hvalue.ty_sound
      (ih _ (.tail _ (.head _)) hbody)
  | letTyped hvalue hannotated hunify hbody =>
    obtain ⟨ha, hty⟩ := annotatedType_settles (g := g) hvalue.grows.sound
      (annotatedType_eq_ok hannotated)
    exact letIn_checks h (ih _ (.head _) hvalue) ((ha.seq hunify.settles).imp fun _ _ _ _ hP =>
      ⟨hP.2, fun a' ha' => Option.some.inj ha' ▸ hP.1⟩) (hunify.grows.mono hty)
      (ih _ (.tail _ (.head _)) hbody)
  | block hitems =>
    refine h.node (hitems.checks ih) rfl fun p L θ _ hP => ⟨fun S hS => ⟨?_, hP.1 S hS⟩, hP.2⟩
    rw [Expr.mapListTy_eq_map, getLast?_map]
    simp only [Info.mapTy, blockType]
    cases List.getLast? _ with
    | none => rfl
    | some e => exact (Expr.ty_mapTy e).symm
  | ifThen hc hbool ha hunit =>
    refine h.node ((ih _ (.head _) hc).seq (hbool.settles.seq ((ih _ (.tail _ (.head _)) ha).seq
      hunit.settles))) ?_ fun p L θ _ hP => ?_
    · simp [Expr.sites, Expr.info]
    obtain ⟨⟨hct, hca⟩, hcond, ⟨hat, haa⟩, hpos⟩ := hP
    refine ⟨fun S hS => ⟨rfl, ?_, ?_, hct S hS, hat S hS⟩, hca, haa⟩
    · rw [Expr.ty_mapTy]
      exact hcond.symm
    · rw [Expr.ty_mapTy]
      exact hpos.symm
  | ifElse hc hbool ha hb hsame =>
    refine h.node ((ih _ (.head _) hc).seq (hbool.settles.seq ((ih _ (.tail _ (.head _)) ha).seq
      ((ih _ (.tail _ (.tail _ (.head _))) hb).seq hsame.settles)))) ?_ fun p L θ _ hP => ?_
    · simp [Expr.sites, Expr.info]
    obtain ⟨⟨hct, hca⟩, hcond, ⟨hat, haa⟩, ⟨hbt, hba⟩, heq⟩ := hP
    refine ⟨fun S hS => ⟨?_, ?_, ?_, hct S hS, hat S hS, hbt S hS⟩, hca, haa, hba⟩
    · rw [Expr.ty_mapTy]
      exact hcond.symm
    · exact Expr.ty_mapTy _
    · rw [Expr.ty_mapTy]
      exact heq.symm
  | @record _ _ r _ _ _ hr hfields hall =>
    refine h.node (hfields.checks ih) rfl fun p L θ hread hP =>
      ⟨fun S hS => ⟨rfl, r.mapTy (Ty.subst θ), hread.get? hr, ?_, hP.1 S hS⟩, rfl, hP.2⟩
    have hlen : (r.mapTy (Ty.subst θ)).fields.length = r.fields.length := length_map _
    rw [Expr.map_index_mapFieldsTy, hlen]
    refine hfields.namedOnce.perm_range (h.globals_sound.fields_nodup _ r hr) fun d hd => ?_
    have := find?_eq_none.1 hall d hd
    simpa using this
  | field => exact field_checks (ih _ (.head _)) h
  | callFunction hid hsig hargs hcall =>
    have hready := hargs.toReady.mono hargs.grows
    obtain ⟨hc, -⟩ := hcall.settles (g := g) hready.sound
      (hready.globals_sound.function_sound _ _ hsig)
    refine h.node ((hargs.checks fun e he => ih e (.tail _ he)).seq hc) ?_ fun p L θ hread hP =>
      ⟨fun S hS => ⟨?_, hP.1.1 S hS⟩, ⟨_, _, rfl, rfl⟩, hP.1.2⟩
    · simp [Expr.sites, Expr.info]
    · obtain ⟨hparams, hret⟩ := Ty.fn.inj hP.2
      have hdeclares := hread.realises.function _ _ hsig
      rw [hret] at hdeclares
      rw [Expr.map_ty_mapListTy, ← hparams]
      exact hdeclares
  | callValue hdirect htarget hargs hcall =>
    exact callValue_checks h htarget (ih _ (.head _)) hargs (fun e he => ih e (.tail _ he)) hcall
      fun _ _ _ htarget hargs => ⟨htarget, hargs⟩
  | callField hreceiver howner hr hd hargs hcall =>
    -- the callee is checked as a field that is not called
    exact callValue_checks h (.of_step h.toReady (.field hreceiver howner hr hd))
      (field_checks (ih _ (.head _))) hargs (fun e he => ih e (.tail _ he)) hcall
      fun _ _ _ hfield hargs => ⟨rfl, hfield.2, hargs⟩
  | @callMethod _ _ _ name owner r m _ _ _ _ _ _ hreceiver howner hr hd hm hargs hcall =>
    have hmem : m ∈ r.methods := mem_of_find?_eq_some hm
    have hname : m.name = name.name := by simpa using find?_some hm
    have hready := hargs.toReady.mono hargs.grows
    obtain ⟨hc, -⟩ := hcall.settles (g := g) hready.sound
      (hready.globals_sound.method_sound _ r hr m hmem)
    refine h.node ((ih _ (.head _) hreceiver).seq ((settles_of_shallow hreceiver.grows.sound
      hreceiver.ty_sound howner).seq ((hargs.checks fun e he => ih e (.tail _ he)).seq hc))) ?_
      fun p L θ hread hP => ?_
    · simp [Expr.sites, Expr.info, Expr.listSites]
    obtain ⟨⟨hrt, hra⟩, hown, ⟨hat, haa⟩, hcall⟩ := hP
    obtain ⟨params, ret, hmty, hsymbol, hdeclares⟩ := hread.realises.method owner r m hr hmem
    rw [hmty] at hcall
    obtain ⟨hparams, hret⟩ := Ty.fn.inj hcall
    rw [hret] at hdeclares
    refine ⟨fun S hS => ⟨hname ▸ hsymbol, ?_, ?_, hrt S hS, hat S hS⟩, rfl, hra, haa⟩
    · rw [Expr.mapListTy, head?_cons, Option.map_some, Expr.ty_mapTy, hown]
    · rw [Expr.map_ty_mapListTy, ← hparams, ← hname]
      exact hdeclares
  | cases hscrutinee harms =>
    have hf := (fresh_settles (g := g) hscrutinee.grows.sound rfl).1
    have hnext := nextMatch_checks (g := g) harms.grows.sound rfl
    refine h.node ((ih _ (.head _) hscrutinee).seq (hf.seq ((harms.checks fun e he =>
      ih e (.tail _ he)).seq hnext))) ?_ fun p L θ _ hP =>
        ⟨fun S hS => ⟨hP.1.1 S hS, ?_⟩, hP.1.2, hP.2.2.1.2⟩
    · simp [Expr.sites, Expr.info]
    · rw [Expr.ty_mapTy]
      exact hP.2.2.1.1 S hS
  | list helems hsame =>
    have hf := (fresh_settles (g := g) h.sound rfl).1
    refine h.node (hf.seq ((helems.checks ih).seq hsame.settles)) ?_ fun p L θ _ hP =>
      ⟨fun S hS => ⟨⟨_, rfl, fun ty hty => ?_⟩, hP.2.1.1 S hS⟩, hP.2.1.2⟩
    · simp [Expr.sites, Expr.info]
    · have heq := hP.2.2.trans (map_map ..)
      rw [Ty.substList_eq_map, map_map] at heq
      rw [Expr.map_ty_mapListTy] at hty
      obtain ⟨_, _, rfl⟩ := mem_map.1 (heq ▸ hty)
      rfl
  | binary ha hb hop =>
    refine h.node ((ih _ (.head _) ha).seq ((ih _ (.tail _ (.head _)) hb).seq hop.settles.1)) ?_
      fun p L θ _ hP => ⟨fun S hS => ⟨?_, hP.1.1 S hS, hP.2.1.1 S hS⟩, rfl, hP.1.2, hP.2.1.2⟩
    · simp [Expr.sites, Expr.info]
    · rw [Expr.ty_mapTy, Expr.ty_mapTy]
      exact hP.2.2
  | @unary _ op _ _ _ _ ha hop =>
    refine h.node ((ih _ (.head _) ha).seq hop.settles) ?_ fun p L θ _ hP =>
      ⟨fun S hS => ⟨?_, hP.1.1 S hS⟩, rfl, hP.1.2⟩
    · simp [Expr.sites, Expr.info]
    · rw [Expr.ty_mapTy, ← hP.2]
      cases op <;> exact ⟨rfl, rfl⟩

end Infer

end Sluice
