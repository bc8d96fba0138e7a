import Mathlib.Data.List.Forall2
import Mathlib.Data.List.Perm.Lattice
import Sluice.Proofs.Monad
import Sluice.Proofs.Typing.Rules

/-!
# Evaluation keeps types

A well typed expression evaluates to a value of its type, and the heap it
leaves behind is well typed again. Objects keep the types they have; new ones
are given one as they are made.

Called functions are assumed to keep types too (`Calls.Typed`): given arguments
of the parameter types they answer with a value of the result type.
-/

namespace Sluice

open List

namespace Machine

/-- **Called functions keep types.** -/
def Calls.Typed (records : RecordTable) (fns : FunctionTypes) (calls : Calls) : Prop :=
  ∀ symbol params ret, fns symbol params ret →
    ∀ (objs : ObjectTypes) (args : List Value) (w : World) (v : Value) (heap : Heap),
      List.Forall₂ (HasType fns objs) args params → w.heap.Typed records fns objs →
      calls (.function symbol) args w = some (v, heap) →
      ∃ objs', objs.Grows objs' ∧ heap.Typed records fns objs' ∧ HasType fns objs' v ret

variable {records : RecordTable} {fns : FunctionTypes} {objs objs' : ObjectTypes}

/-- An object keeps its type when more is known. -/
theorem Object.Typed.mono {o : Object} (h : o.Typed records fns objs ty)
    (hg : objs.Grows objs') : o.Typed records fns objs' ty := by
  cases ty with
  | record name =>
    obtain ⟨r, hr, hfields⟩ := h
    refine ⟨r, hr, fun i d hd => ?_⟩
    obtain ⟨v, hv, hvt⟩ := hfields i d hd
    exact ⟨v, hv, hvt.mono hg⟩
  | list elem => exact fun v hv => (h v hv).mono hg
  | prim _ => exact h
  | fn _ _ => exact h
  | var _ => exact h
  | error => exact h

/-! ## New objects -/

/-- The values that fields have once some were written. -/
def setAll (values : List Value) (fields : List (Nat × Value)) : List Value :=
  fields.foldl (fun values (i, v) => values.set i v) values

@[simp] theorem length_setAll (fields : List (Nat × Value)) (values : List Value) :
    (setAll values fields).length = values.length := by
  induction fields generalizing values with
  | nil => rfl
  | cons _ rest ih => exact (ih _).trans (length_set ..)

/-- Fields that are not written keep their values. -/
theorem getElem?_setAll_of_notMem (hi : i ∉ fields.map (·.1)) (values : List Value) :
    (setAll values fields)[i]? = values[i]? := by
  induction fields generalizing values with
  | nil => rfl
  | cons p rest ih =>
    simp only [map_cons, mem_cons, not_or] at hi
    exact (ih hi.2 _).trans (getElem?_set_ne (Ne.symm hi.1))

/-- Fields that are written once have the values written to them. -/
theorem getElem?_setAll_of_mem (hn : (fields.map (·.1)).Nodup) (hv : (i, v) ∈ fields)
    (hi : i < values.length) : (setAll values fields)[i]? = some v := by
  induction fields generalizing values with
  | nil => cases hv
  | cons p rest ih =>
    rw [map_cons, nodup_cons] at hn
    rcases mem_cons.1 hv with rfl | hv
    · exact (getElem?_setAll_of_notMem hn.1 _).trans (getElem?_set_self hi)
    · exact ih hn.2 hv (by simpa using hi)

/-- Writing fields of one object changes nothing else. -/
theorem objects_foldl_store (fields : List (Nat × Value)) (w : World) (a : Nat) :
    (fields.foldl (fun w (i, v) => w.store (.object a) i v) w).heap.objects =
      w.heap.objects.modify a fun o => { o with fields := setAll o.fields fields } := by
  induction fields generalizing w with
  | nil => exact (modify_id ..).symm
  | cons p rest ih =>
    rw [foldl_cons, ih]
    simp only [World.store, Heap.store, modify_modify_eq]
    rfl

/-- The last object of a heap can be changed alone. -/
theorem modify_length_append (objects : List Object) (o : Object) (f : Object → Object) :
    (objects ++ [o]).modify objects.length f = objects ++ [f o] := by
  induction objects with
  | nil => rfl
  | cons _ rest ih => simp [ih]

/-- **A new object can be given a type** that its fields have. -/
theorem Heap.Typed.push {h : Heap} (hh : h.Typed records fns objs)
    (ho : o.Typed records fns objs ty) :
    ∃ objs', objs.Grows objs' ∧ (⟨h.objects ++ [o]⟩ : Heap).Typed records fns objs' ∧
      objs' h.objects.length = some ty := by
  have hfresh : ∀ a, ∀ ty', objs a = some ty' → a ≠ h.objects.length := by
    rintro _ ty' ha rfl
    obtain ⟨o', ho', -⟩ := hh _ _ ha
    simp at ho'
  have hg : objs.Grows (Function.update objs h.objects.length (some ty)) := by
    intro a ty' ha
    rw [Function.update_of_ne (hfresh a ty' ha)]
    exact ha
  refine ⟨_, hg, fun a ty' ha => ?_, Function.update_self ..⟩
  by_cases hlast : a = h.objects.length
  · subst hlast
    rw [Function.update_self] at ha
    cases ha
    exact ⟨o, by simp, ho.mono hg⟩
  · rw [Function.update_of_ne hlast] at ha
    obtain ⟨o', ho', hty⟩ := hh a ty' ha
    have hlt := (List.getElem?_eq_some_iff.1 ho').1
    exact ⟨o', (getElem?_append_left hlt).trans ho', hty.mono hg⟩

end Machine

namespace Typed

open Machine

/-- The functions of a program, by symbol. -/
def Program.functionTypes (p : Program) : FunctionTypes :=
  fun symbol params ret => ∃ kind, p.Declares kind symbol params ret

/-- The locals in scope have values of their types. -/
def Env.Suits (fns : FunctionTypes) (objs : ObjectTypes) (locals : List Local)
    (scope : List LocalId) (env : Env) : Prop :=
  ∀ id ∈ scope, ∀ ty, HasLocal locals id ty → HasType fns objs (env id) ty

/-- **An evaluation gives results of a kind**, and leaves a well typed heap behind. -/
def Gives (records : RecordTable) (fns : FunctionTypes) (objs : ObjectTypes) {α : Type}
    (x : Eval α) (post : ObjectTypes → α → Prop) : Prop :=
  ∀ w v w', w.heap.Typed records fns objs → x w = .ok v w' →
    ∃ objs', objs.Grows objs' ∧ w'.heap.Typed records fns objs' ∧ post objs' v

variable {records : RecordTable} {fns : FunctionTypes} {objs objs' : ObjectTypes} {α β : Type}
  {locals : List Local} {scope : List LocalId} {env : Env} {calls : Calls}
  {post : ObjectTypes → α → Prop}

/-! ## Environments -/

theorem Env.Suits.mono (h : env.Suits fns objs locals scope) (hg : objs.Grows objs') :
    env.Suits fns objs' locals scope :=
  fun id hid ty hty => (h id hid ty hty).mono hg

/-- A local gets a value of its type. -/
theorem Env.Suits.update (h : env.Suits fns objs locals scope) {id v ty}
    (hl : HasLocal locals id ty) (hv : HasType fns objs v ty) :
    Env.Suits fns objs locals (id :: scope) (Function.update env id v) := by
  intro id' hid' ty' hty'
  by_cases hid : id' = id
  · subst hid
    obtain ⟨l, hl, rfl⟩ := hl
    obtain ⟨l', hl', rfl⟩ := hty'
    rw [hl] at hl'
    cases hl'
    rwa [Function.update_self]
  · rw [Function.update_of_ne hid]
    exact h id' ((mem_cons.1 hid').resolve_left hid) ty' hty'

/-- Locals get values of their types. -/
theorem Env.Suits.bind (hb : ∀ b ∈ bindings, ∃ ty, HasLocal locals b.1 ty ∧ HasType fns objs b.2 ty)
    (h : env.Suits fns objs locals scope) :
    (env.bind bindings).Suits fns objs locals (bindings.map (·.1) ++ scope) := by
  induction bindings generalizing env scope with
  | nil => exact h
  | cons b rest ih =>
    obtain ⟨ty, hl, hv⟩ := hb b (mem_cons_self ..)
    have hrest := ih (fun b hb' => hb b (mem_cons_of_mem _ hb')) (h.update hl hv)
    intro id hid
    refine hrest id ?_
    simp only [map_cons, cons_append, mem_cons, mem_append] at hid ⊢
    tauto

mutual

/-- A pattern gives values to the locals it binds. -/
theorem Pattern.map_fst_binds (h : Heap) (v : Value) :
    ∀ p : Pattern, (p.binds h v).map (·.1) = p.binders
  | .wildcard _ | .literal _ _ | .binding _ _ => rfl
  | .record _ _ fields => by
    simpa only [binds, binders] using map_fst_bindsFields h v fields

/-- Field patterns give values to the locals they bind. -/
theorem Pattern.map_fst_bindsFields (h : Heap) (v : Value) :
    ∀ fields : List (Field Pattern), (bindsFields h v fields).map (·.1) = fieldBinders fields
  | [] => rfl
  | ⟨_, _, index, p⟩ :: rest => by
    simp only [bindsFields, fieldBinders, map_append,
      map_fst_binds h (h.load v index) p, map_fst_bindsFields h v rest]

end

mutual

/-- A well typed pattern binds its locals to values of their types. -/
theorem Pattern.WellTyped.binds_typed (hh : h.Typed records fns objs) (hv : HasType fns objs v ty) :
    ∀ {p : Pattern}, p.WellTyped records locals ty →
      ∀ b ∈ p.binds h v, ∃ ty, HasLocal locals b.1 ty ∧ HasType fns objs b.2 ty
  | .wildcard _, _, _, hb => by cases hb
  | .literal _ _, _, b, hb => by cases hb
  | .binding _ id, hp, b, hb => by
    cases mem_singleton.1 hb
    exact ⟨ty, hp.2, hv⟩
  | .record _ name fields, hp, b, hb => by
    obtain ⟨-, rfl, -, r, hr, hfields⟩ := hp
    exact Pattern.WellTypedFields.binds_typed hh hv hr hfields b hb

/-- Well typed field patterns bind their locals to values of their types. -/
theorem Pattern.WellTypedFields.binds_typed (hh : h.Typed records fns objs)
    (hv : HasType fns objs v (.record name)) (hr : records.get? name = some r) :
    ∀ {fields}, Pattern.WellTypedFields records locals r fields →
      ∀ b ∈ Pattern.bindsFields h v fields,
        ∃ ty, HasLocal locals b.1 ty ∧ HasType fns objs b.2 ty
  | [], _, _, hb => by cases hb
  | ⟨_, _, index, p⟩ :: rest, hfields, b, hb => by
    obtain ⟨⟨d, hd, hp⟩, hrest⟩ := hfields
    rcases mem_append.1 hb with hb | hb
    · exact Pattern.WellTyped.binds_typed hh (hh.load_field hv hr hd.1) hp b hb
    · exact Pattern.WellTypedFields.binds_typed hh hv hr hrest b hb

end

/-- A well typed pattern gives its locals values of their types, also when more objects are known
than when it looked. -/
theorem Env.Suits.bind_pattern {p : Pattern} (henv : env.Suits fns objs locals scope)
    (hh : h.Typed records fns objs0) (hv : HasType fns objs0 v ty) (hg : objs0.Grows objs)
    (hp : p.WellTyped records locals ty) :
    (env.bind (p.binds h v)).Suits fns objs locals (p.binders ++ scope) := by
  rw [← p.map_fst_binds h v]
  refine bind (fun b hb => ?_) henv
  obtain ⟨ty, hl, hb⟩ := hp.binds_typed hh hv b hb
  exact ⟨ty, hl, hb.mono hg⟩

/-! ## Small evaluations -/

theorem Gives.pure (h : post objs a) : Gives records fns objs (pure a) post := by
  intro w v w' hw hrun
  obtain ⟨rfl, rfl⟩ := pure_eq_ok.1 hrun
  exact ⟨objs, .refl, hw, h⟩

/-- One evaluation after another. -/
theorem Gives.bind {f : α → Eval β} (hx : Gives records fns objs x post)
    (hf : ∀ objs' a, objs.Grows objs' → post objs' a → Gives records fns objs' (f a) post') :
    Gives records fns objs (x >>= f) post' := by
  intro w v w' hw hrun
  obtain ⟨a, w1, hx1, hf1⟩ := bind_eq_ok.1 hrun
  obtain ⟨objs1, hg1, hw1, ha⟩ := hx w a w1 hw hx1
  obtain ⟨objs2, hg2, hw2, hv⟩ := hf objs1 a hg1 ha w1 v w' hw1 hf1
  exact ⟨objs2, hg1.trans hg2, hw2, hv⟩

theorem Gives.mono (hx : Gives records fns objs x post)
    (h : ∀ objs' a, post objs' a → post' objs' a) : Gives records fns objs x post' := by
  intro w v w' hw hrun
  obtain ⟨objs', hg, hw', hv⟩ := hx w v w' hw hrun
  exact ⟨objs', hg, hw', h _ _ hv⟩

/-- A well typed call gives a value of the result type. -/
theorem gives_invoke (hc : calls.Typed records fns) (hf : HasType fns objs callee (.fn params ret))
    (hargs : Forall₂ (HasType fns objs) args params) :
    Gives records fns objs (invoke calls callee args) fun objs' v => HasType fns objs' v ret := by
  intro w v w' hw hrun
  cases hf with
  | @function symbol _ _ hf =>
    simp only [invoke, World.call] at hrun
    generalize hcall : calls (.function symbol) args _ = answer at hrun
    match answer with
    | none => cases hrun
    | some (v, heap) =>
      cases hrun
      exact hc symbol params ret hf objs args (w.happens _) v heap hargs hw hcall

/-- A new object has a type that the fields written to it have. -/
theorem gives_construct (shape : Flow.Shape) (fields : List (Nat × Value)) (ty : Ty)
    (ho : Object.Typed records fns objs
      ⟨shape, setAll (List.replicate shape.size .unit) fields⟩ ty) :
    Gives records fns objs (construct shape fields) fun objs' v =>
      ∃ a, v = .object a ∧ objs' a = some ty := by
  intro w v w' hw hrun
  cases hrun
  obtain ⟨objs', hg, hw', hty⟩ := hw.push ho
  have hobjs := objects_foldl_store fields (w.alloc shape).2 w.heap.objects.length
  rw [show (w.alloc shape).2.heap.objects = _ ++ [_] from rfl, modify_length_append] at hobjs
  refine ⟨objs', hg, ?_, _, rfl, hty⟩
  intro a ty' ha
  obtain ⟨o, ho, hoty⟩ := hw' a ty' ha
  exact ⟨o, (congrArg (·[a]?) hobjs).trans ho, hoty⟩

/-- A new record has its type, if every field is written once with a value of its type. -/
theorem gives_construct_record (hr : records.get? name = some r)
    (hperm : (fields.map (·.1)).Perm (List.range r.fields.length))
    (hty : ∀ p ∈ fields, ∃ d, r.fields[p.1]? = some d ∧ HasType fns objs p.2 d.ty) :
    Gives records fns objs (construct (.record name fields.length) fields)
      fun objs' v => HasType fns objs' v (.record name) := by
  refine (gives_construct _ _ (.record name) ⟨r, hr, fun i d hd => ?_⟩).mono ?_
  · have hlt : i < r.fields.length := (List.getElem?_eq_some_iff.1 hd).1
    have hlen : fields.length = r.fields.length := by simpa using hperm.length_eq
    obtain ⟨⟨_, v⟩, hv, rfl⟩ := mem_map.1 (hperm.mem_iff.2 (mem_range.2 hlt))
    obtain ⟨d', hd', hvt⟩ := hty _ hv
    rw [hd] at hd'
    cases hd'
    refine ⟨v, getElem?_setAll_of_mem (hperm.nodup_iff.2 nodup_range) hv ?_, hvt⟩
    simpa [Flow.Shape.size, hlen] using hlt
  · rintro objs' _ ⟨a, rfl, ha⟩
    exact .record ha

/-- Numbers are given in order. -/
theorem map_fst_numbered (values : List Value) :
    (numbered values).map (·.1) = List.range values.length := by
  simp [numbered, Function.comp_def, range_eq_range']

/-- A new list has its type, if every element is written. -/
theorem gives_construct_list {values elem} (hty : ∀ v ∈ values, HasType fns objs v elem) :
    Gives records fns objs (construct (.list values.length) (numbered values))
      fun objs' v => HasType fns objs' v (.list elem) := by
  refine (gives_construct _ _ (.list elem) fun v hv => ?_).mono ?_
  · obtain ⟨i, hi⟩ := mem_iff_getElem?.1 hv
    have hlt : i < values.length := by
      simpa [Flow.Shape.size] using (List.getElem?_eq_some_iff.1 hi).1
    have hmem : (i, values[i]) ∈ numbered values :=
      mem_map.2 ⟨(values[i], i), by simp [mem_zipIdx_iff_getElem?], rfl⟩
    have hunit : i < (List.replicate values.length Value.unit).length := by simpa using hlt
    have hv' := getElem?_setAll_of_mem (by simp [map_fst_numbered, nodup_range]) hmem hunit
    cases hi.symm.trans hv'
    exact hty _ (getElem_mem hlt)
  · rintro objs' _ ⟨a, rfl, ha⟩
    exact .list ha

/-- An operator applied to values of its types gives one of its result type. -/
theorem BinaryRule.apply_typed (h : BinaryRule op lhs rhs result) (ha : HasType fns objs a lhs)
    (hb : HasType fns objs b rhs) (hv : op.apply a b = some v) : HasType fns objs v result := by
  cases op
  case add | sub | mul | lt | le | gt | ge =>
    obtain ⟨rfl, rfl, rfl⟩ := h
    obtain ⟨a, rfl⟩ := ha.exists_int
    obtain ⟨b, rfl⟩ := hb.exists_int
    cases hv
    exact .lit _
  case div | mod =>
    obtain ⟨rfl, rfl, rfl⟩ := h
    obtain ⟨a, rfl⟩ := ha.exists_int
    obtain ⟨b, rfl⟩ := hb.exists_int
    simp only [BinaryOp.apply, BinaryOp.quotient] at hv
    split at hv <;> cases hv
    exact .lit _
  case and | or =>
    obtain ⟨rfl, rfl, rfl⟩ := h
    obtain ⟨a, rfl⟩ := ha.exists_bool
    obtain ⟨b, rfl⟩ := hb.exists_bool
    cases hv
    exact .lit _
  case eq | ne =>
    obtain ⟨rfl, rfl⟩ := h
    cases hv
    exact .lit _

/-- An operator applied to a value of its type gives one of its result type. -/
theorem UnaryRule.apply_typed (h : UnaryRule op operand result)
    (ha : HasType fns objs a operand) : HasType fns objs (op.apply a) result := by
  cases op with
  | not =>
    obtain ⟨rfl, rfl⟩ := h
    obtain ⟨b, rfl⟩ := ha.exists_bool
    exact .lit _
  | neg =>
    obtain ⟨rfl, rfl⟩ := h
    obtain ⟨b, rfl⟩ := ha.exists_int
    exact .lit _

theorem gives_applyBinary (h : BinaryRule op lhs rhs result) (ha : HasType fns objs a lhs)
    (hb : HasType fns objs b rhs) :
    Gives records fns objs (applyBinary op a b) fun objs' v => HasType fns objs' v result := by
  intro w v w' hw hrun
  unfold applyBinary at hrun
  split at hrun <;> cases hrun
  rename_i hv
  exact ⟨objs, .refl, hw, h.apply_typed ha hb hv⟩

/-- Operators that look at both operands. -/
theorem Expr.eval_binary (hand : op ≠ .and) (hor : op ≠ .or) (info : Info) (lhs rhs : Expr) :
    (binary info op lhs rhs).eval calls env =
      lhs.eval calls env >>= fun a => rhs.eval calls env >>= fun b => applyBinary op a b := by
  cases op
  case and => exact absurd rfl hand
  case or => exact absurd rfl hor
  all_goals rfl

/-! ## Expressions -/

variable {p : Program}

/-- The last expression of a block gives the type of the block. -/
theorem getLast?_elim_cons (e : Expr) (rest : List Expr) (ty : Ty) :
    (e :: rest).getLast?.elim ty (·.ty) = rest.getLast?.elim e.ty (·.ty) := by
  cases rest with
  | nil => rfl
  | cons e' rest => simp [getLast?_cons]

variable (hc : calls.Typed p.records p.functionTypes)

include hc

set_option linter.unusedSectionVars false in
mutual

/-- **A well typed expression evaluates to a value of its type.** -/
theorem Expr.WellTyped.gives : ∀ {e : Expr} {scope env objs},
    e.WellTyped p locals scope → env.Suits p.functionTypes objs locals scope →
    Gives p.records p.functionTypes objs (e.eval calls env)
      fun objs' v => HasType p.functionTypes objs' v e.ty
  | .literal info value, _, _, _, he, _ => by
    refine .pure ?_
    rw [Expr.ty, Expr.info, he]
    exact .lit value
  | .var info id, _, _, _, he, henv => .pure (henv id he.1 _ he.2)
  | .function info name, _, _, _, he, _ => by
    obtain ⟨params, ret, hdecl, hty⟩ := he
    refine .pure ?_
    rw [Expr.ty, Expr.info, hty]
    exact .function ⟨_, hdecl⟩
  | .letIn info id value body, _, _, _, he, henv => by
    obtain ⟨hl, hty, hvalue, hbody⟩ := he
    rw [Expr.ty, Expr.info, hty]
    refine (hvalue.gives henv).bind fun objs' v hg hv => ?_
    exact hbody.gives ((henv.mono hg).update hl hv)
  | .block info items, _, _, _, he, henv => by
    obtain ⟨hty, hitems⟩ := he
    rw [Expr.ty, Expr.info, hty]
    exact Expr.WellTypedList.gives_block hitems henv (.lit .unit)
  | .ifThen info c a, _, _, _, he, henv => by
    obtain ⟨hty, -, -, hcond, ha⟩ := he
    rw [Expr.ty, Expr.info, hty]
    refine (hcond.gives henv).bind fun objs' v hg hv => ?_
    split
    · exact (ha.gives (henv.mono hg)).bind fun _ _ _ _ => .pure (.lit .unit)
    · exact .pure (.lit .unit)
  | .ifElse info c a b, _, _, _, he, henv => by
    obtain ⟨-, hta, htb, hcond, ha, hb⟩ := he
    rw [Expr.ty]
    refine (hcond.gives henv).bind fun objs' v hg hv => ?_
    split
    · exact hta ▸ ha.gives (henv.mono hg)
    · exact htb ▸ hb.gives (henv.mono hg)
  | .record info name fields, _, _, _, he, henv => by
    obtain ⟨hty, r, hr, hperm, hfields⟩ := he
    rw [Expr.ty, Expr.info, hty]
    refine (hfields.gives henv).bind fun objs' values _ hvalues => ?_
    have hlen : fields.length = values.length := by
      simpa using (congrArg List.length hvalues.1).symm
    rw [hlen]
    exact gives_construct_record hr (hvalues.1 ▸ hperm) hvalues.2
  | .field info target name index, _, _, _, he, henv => by
    obtain ⟨⟨owner, r, d, howner, hr, hd, hty⟩, htarget⟩ := he
    rw [Expr.ty, Expr.info, hty]
    refine (htarget.gives henv).bind fun objs' v _ hv => ?_
    intro w v' w' hw hrun
    cases hrun
    exact ⟨objs', .refl, hw, hw.load_field (howner ▸ hv) hr hd.1⟩
  | .callFunction info symbol args, _, _, _, he, henv => by
    refine (Expr.WellTypedList.gives he.2 henv).bind fun objs' vs _ hvs => ?_
    exact gives_invoke hc (.function ⟨_, he.1⟩) hvs
  | .callMethod info owner method symbol args, _, _, _, he, henv => by
    refine (Expr.WellTypedList.gives he.2.2.2 henv).bind fun objs' vs _ hvs => ?_
    exact gives_invoke hc (.function ⟨_, he.2.2.1⟩) hvs
  | .callValue info callee args, _, _, _, he, henv => by
    obtain ⟨hty, hcallee, hargs⟩ := he
    refine (hcallee.gives henv).bind fun objs1 v hg1 hv => ?_
    refine (Expr.WellTypedList.gives hargs (henv.mono hg1)).bind fun objs2 vs hg2 hvs => ?_
    exact gives_invoke hc ((hty ▸ hv).mono hg2) hvs
  | .cases info _ scrutinee arms, _, _, _, he, henv => by
    refine (he.1.gives henv).bind fun objs' v hg hv => ?_
    intro w v' w' hw hrun
    exact Expr.WellTypedArms.gives he.2 (henv.mono hg) hw hv .refl w v' w' hw hrun
  | .list info elems, _, _, _, he, henv => by
    obtain ⟨⟨elem, hty, helems⟩, hes⟩ := he
    rw [Expr.ty, Expr.info, hty]
    refine (Expr.WellTypedList.gives hes henv).bind fun objs' vs _ hvs => ?_
    have hlen : elems.length = vs.length := by simpa using hvs.length_eq.symm
    rw [hlen]
    refine gives_construct_list fun v hv => ?_
    obtain ⟨i, hi, rfl⟩ := getElem_of_mem hv
    have hi' : i < (elems.map (·.ty)).length := hvs.length_eq ▸ hi
    exact helems _ (getElem_mem hi') ▸ hvs.get hi hi'
  | .binary info op lhs rhs, _, _, _, he, henv => by
    obtain ⟨hrule, hlhs, hrhs⟩ := he
    by_cases hand : op = .and
    · subst hand
      refine (hlhs.gives henv).bind fun objs' a hg ha => ?_
      obtain ⟨-, hr, hty⟩ := hrule
      rw [Expr.ty, Expr.info, hty]
      split
      · exact hr ▸ hrhs.gives (henv.mono hg)
      · exact .pure (.lit _)
    by_cases hor : op = .or
    · subst hor
      refine (hlhs.gives henv).bind fun objs' a hg ha => ?_
      obtain ⟨-, hr, hty⟩ := hrule
      rw [Expr.ty, Expr.info, hty]
      split
      · exact .pure (.lit _)
      · exact hr ▸ hrhs.gives (henv.mono hg)
    rw [Expr.eval_binary hand hor]
    refine (hlhs.gives henv).bind fun objs1 a hg1 ha => ?_
    refine (hrhs.gives (henv.mono hg1)).bind fun objs2 b hg2 hb => ?_
    exact gives_applyBinary hrule (ha.mono hg2) hb
  | .unary info op operand, _, _, _, he, henv => by
    refine (he.2.gives henv).bind fun objs' a _ ha => ?_
    exact .pure (he.1.apply_typed ha)

/-- Well typed expressions evaluate to values of their types. -/
theorem Expr.WellTypedList.gives : ∀ {es scope env}
    {objs}, Expr.WellTypedList p locals scope es →
    env.Suits p.functionTypes objs locals scope →
    Gives p.records p.functionTypes objs (Expr.evalList calls env es)
      fun objs' vs => Forall₂ (HasType p.functionTypes objs') vs (es.map (·.ty))
  | [], _, _, _, _, _ => .pure .nil
  | e :: rest, _, _, _, hes, henv => by
    refine (hes.1.gives henv).bind fun objs1 v hg1 hv => ?_
    refine (Expr.WellTypedList.gives hes.2 (henv.mono hg1)).bind fun objs2 vs hg2 hvs => ?_
    exact .pure (.cons (hv.mono hg2) hvs)

/-- A block of well typed expressions evaluates to a value of the type of the last one. -/
theorem Expr.WellTypedList.gives_block : ∀ {es scope env}
    {objs last ty}, Expr.WellTypedList p locals scope es →
    env.Suits p.functionTypes objs locals scope → HasType p.functionTypes objs last ty →
    Gives p.records p.functionTypes objs (Expr.evalBlock calls env last es)
      fun objs' v => HasType p.functionTypes objs' v (es.getLast?.elim ty (·.ty))
  | [], _, _, _, _, _, _, _, hlast => .pure hlast
  | e :: rest, _, _, _, _, _, hes, henv, _ => by
    rw [getLast?_elim_cons]
    refine (hes.1.gives henv).bind fun objs1 v hg hv => ?_
    exact Expr.WellTypedList.gives_block hes.2 (henv.mono hg) hv

/-- Well typed field initializers evaluate to values of the types of their fields. -/
theorem Expr.WellTypedFields.gives : ∀ {fields scope}
    {r env objs},
    Expr.WellTypedFields p locals scope r fields → env.Suits p.functionTypes objs locals scope →
    Gives p.records p.functionTypes objs (Expr.evalFields calls env fields) fun objs' vs =>
      vs.map (·.1) = fields.map (·.index) ∧
        ∀ v ∈ vs, ∃ d, r.fields[v.1]? = some d ∧ HasType p.functionTypes objs' v.2 d.ty
  | [], _, _, _, _, _, _ => .pure ⟨rfl, fun _ hv => by cases hv⟩
  | ⟨_, name, index, e⟩ :: rest, scope, r, env, objs, hfields, henv => by
    obtain ⟨⟨d, hd, hty⟩, he, hrest⟩ := hfields
    refine (he.gives henv).bind fun objs1 v hg1 hv => ?_
    refine (hrest.gives (henv.mono hg1)).bind fun objs2 vs hg2 hvs => ?_
    refine .pure ⟨congrArg (index :: ·) hvs.1, ?_⟩
    rintro _ (_ | ⟨_, hv'⟩)
    · exact ⟨d, hd.1, hty ▸ hv.mono hg2⟩
    · exact hvs.2 _ hv'

/-- The arms of a match evaluate to a value of the result type. -/
theorem Expr.WellTypedArms.gives : ∀ {arms scope}
    {ty result env objs objs0 h v},
    Expr.WellTypedArms p locals scope ty result arms →
    env.Suits p.functionTypes objs locals scope → h.Typed p.records p.functionTypes objs0 →
    HasType p.functionTypes objs0 v ty → objs0.Grows objs →
    Gives p.records p.functionTypes objs (Expr.evalArms calls env h v arms)
      fun objs' v => HasType p.functionTypes objs' v result
  | [], _, _, _, _, _, _, _, _, _, _, _, _, _ =>
    fun _ _ _ _ hrun => absurd hrun throw_ne_ok
  | ⟨_, pattern, none, body⟩ :: rest, _, _, _, _, _, _, _, _, harms, henv,
      hh, hv, hg => by
    obtain ⟨hp, hty, hbody, hrest⟩ := harms
    simp only [Expr.evalArms]
    split
    · exact hty ▸ hbody.gives (henv.bind_pattern hh hv hg hp)
    · exact Expr.WellTypedArms.gives hrest henv hh hv hg
  | ⟨_, pattern, some guard, body⟩ :: rest, _, _, _, _, _, _, _, _, harms,
      henv, hh, hv, hg => by
    obtain ⟨hp, -, hty, hguard, hbody, hrest⟩ := harms
    have henv' := henv.bind_pattern hh hv hg hp
    simp only [Expr.evalArms]
    split
    · refine (hguard.gives henv').bind fun objs' g hg' _ => ?_
      split
      · exact hty ▸ hbody.gives (henv'.mono hg')
      · exact Expr.WellTypedArms.gives hrest (henv.mono hg') hh hv (hg.trans hg')
    · exact Expr.WellTypedArms.gives hrest henv hh hv hg

end

end Typed

end Sluice
