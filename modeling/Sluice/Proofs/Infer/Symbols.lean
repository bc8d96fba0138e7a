import Sluice.Proofs.Infer.Carry

/-!
# What symbols stand for

A program that passes has no two functions of one kind and name, and every
direct call goes to the function that its kind and symbol say. The symbol alone
says it only if no other definition is compiled under the same symbol: a
function may be named like a method with its record in front. Names without a
colon keep symbols apart (`Program.PlainNames`).
-/

namespace Sluice

open List

namespace Typed

/-- The symbol that a direct call goes to. -/
def Expr.callee? : Expr → Option String
  | .callFunction _ symbol _ | .callMethod _ _ _ symbol _ => some symbol
  | _ => none

/-- A function that a direct call was resolved to. That of a method call is the method of the
receiver's record: the record has it under that symbol, and no field of its name. -/
def Program.Answers (p : Program) (f : Function) : Expr → Prop
  | .callFunction _ symbol _ => f ∈ p.functions ∧ f.kind = .free ∧ f.name = symbol
  | .callMethod _ owner method symbol args =>
    f ∈ p.functions ∧ f.kind = .method owner method ∧ f.name = symbol ∧
      args.head?.map (·.ty) = some (.record owner) ∧
      ∃ r m, p.records.get? owner = some r ∧ r.field? method = none ∧
        r.method? method = some m ∧ m.symbol = symbol
  | _ => False

namespace Program.Answers

variable {p : Program} {f f' : Function} {e : Expr} {symbol : String}

theorem mem (h : p.Answers f e) : f ∈ p.functions := by
  cases e with
  | callFunction | callMethod => exact h.1
  | _ => exact h.elim

theorem name_eq (h : p.Answers f e) (he : e.callee? = some symbol) : f.name = symbol := by
  cases e with
  | callFunction => exact h.2.2.trans (Option.some.inj he)
  | callMethod => exact h.2.2.1.trans (Option.some.inj he)
  | _ => exact h.elim

theorem kind_eq (h : p.Answers f e) (h' : p.Answers f' e) : f.kind = f'.kind := by
  cases e with
  | callFunction | callMethod => exact h.2.1.trans h'.2.1.symm
  | _ => exact h.elim

end Program.Answers

end Typed

namespace Source

/-- No symbol stands for definitions of two kinds. -/
def Program.SymbolsApart (source : Program) : Prop :=
  ∀ kd ∈ source.definitions, ∀ kd' ∈ source.definitions,
    kd.2.symbol kd.1 = kd'.2.symbol kd'.1 → kd.1 = kd'.1

/-- What the symbol of a definition starts with: the name of a function, the record of a method. -/
def Definition.stem (d : Definition) : Typed.Kind → String
  | .free => d.name.name
  | .method owner _ => owner

/-- Functions, and records with methods, have names without a colon. -/
def Program.PlainNames (source : Program) : Prop :=
  ∀ kd ∈ source.definitions, ':' ∉ (kd.2.stem kd.1).toList

instance (source : Program) : Decidable source.PlainNames :=
  inferInstanceAs (Decidable (∀ kd ∈ source.definitions, ':' ∉ (kd.2.stem kd.1).toList))

/-- What stands in front of the first colon, and what stands behind it. -/
theorem eq_of_append_colon :
    ∀ {xs ys zs zs'}, ':' ∉ xs → ':' ∉ ys → xs ++ ':' :: zs = ys ++ ':' :: zs' → xs = ys ∧ zs = zs'
  | [], [], _, _, _, _, h => ⟨rfl, (cons_eq_cons.1 h).2⟩
  | [], y :: _, _, _, _, hys, h => absurd ((cons_eq_cons.1 h).1 ▸ mem_cons_self) hys
  | x :: _, [], _, _, hxs, _, h => absurd ((cons_eq_cons.1 h).1 ▸ mem_cons_self) hxs
  | x :: xs, y :: ys, _, _, hxs, hys, h => by
    obtain ⟨rfl, htail⟩ := cons_eq_cons.1 h
    obtain ⟨rfl, hrest⟩ := eq_of_append_colon (fun hmem => hxs (mem_cons_of_mem _ hmem))
      (fun hmem => hys (mem_cons_of_mem _ hmem)) htail
    exact ⟨rfl, hrest⟩

theorem toList_methodSymbol (owner name : String) :
    (methodSymbol owner name).toList = owner.toList ++ ':' :: ':' :: name.toList := by
  rw [methodSymbol, String.toList_append, String.toList_append, List.append_assoc]
  rfl

/-- A method's symbol determines its record and its name, if records have plain names. -/
theorem methodSymbol_inj (howner : ':' ∉ owner.toList) (howner' : ':' ∉ owner'.toList)
    (h : methodSymbol owner name = methodSymbol owner' name') : owner = owner' ∧ name = name' := by
  have hlist := congrArg String.toList h
  rw [toList_methodSymbol, toList_methodSymbol] at hlist
  obtain ⟨hfront, hback⟩ := eq_of_append_colon howner howner' hlist
  exact ⟨String.toList_inj.1 hfront, String.toList_inj.1 (cons_eq_cons.1 hback).2⟩

/-- **Plain names keep symbols apart.** -/
theorem Program.PlainNames.symbolsApart {source : Program} (h : source.PlainNames) :
    source.SymbolsApart := by
  intro ⟨kind, d⟩ hd ⟨kind', d'⟩ hd' heq
  have hplain := h _ hd
  have hplain' := h _ hd'
  -- the symbol of a method has a colon, the name of a function has none
  have hcolon : ∀ owner name, ':' ∈ (methodSymbol owner name).toList := by
    intro owner name
    rw [toList_methodSymbol]
    exact mem_append_right _ mem_cons_self
  cases kind with
  | free =>
    cases kind' with
    | free => rfl
    | method owner' name' =>
      have hname : d.stem .free = methodSymbol owner' name' := heq
      exact absurd (hname ▸ hcolon owner' name') hplain
  | method owner name =>
    cases kind' with
    | free =>
      have hname : d'.stem .free = methodSymbol owner name := heq.symm
      exact absurd (hname ▸ hcolon owner name) hplain'
    | method owner' name' =>
      obtain ⟨rfl, rfl⟩ := methodSymbol_inj hplain hplain' heq
      rfl

end Source

namespace Infer

open Source (Definition)
open Typed (Function)
open Unify (Table)

variable {g : Globals} {source : Source.Program} {t : Table} {p : Typed.Program}
  {fs : List Function}

/-! ## Kinds and symbols -/

/-- What tells one function from the others. -/
def Pending.key (p : Pending) : Typed.Kind × String :=
  (p.kind, p.symbol)

/-- No two bodies in a queue are of one kind and symbol, if no two functions in it have one name,
and no two methods of a record. -/
theorem nodup_keys : ∀ {pending : List Pending},
    ((pending.filterMap Pending.function?).map (·.1)).Nodup →
    (∀ owner, ((pending.filterMap (Pending.methodOf? owner)).map (·.name)).Nodup) →
      (pending.map Pending.key).Nodup
  | [], _, _ => nodup_nil
  | q :: rest, hfunctions, hmethods => by
    have hrest : (rest.map Pending.key).Nodup := by
      refine nodup_keys (hfunctions.sublist ?_) fun owner => (hmethods owner).sublist ?_
      · exact ((sublist_cons_self q rest).filterMap _).map _
      · exact ((sublist_cons_self q rest).filterMap _).map _
    refine nodup_cons.2 ⟨fun hmem => ?_, hrest⟩
    obtain ⟨q', hq', hkey⟩ := mem_map.1 hmem
    obtain ⟨hkind, hsymbol⟩ := Prod.mk.inj hkey
    cases hq : q.kind with
    | free =>
      have hfun : q.function? = some (q.symbol, q.signature) := by rw [Pending.function?, hq]
      have hfun' : q'.function? = some (q'.symbol, q'.signature) := by
        rw [Pending.function?, hkind, hq]
      rw [filterMap_cons_some hfun, map_cons, nodup_cons] at hfunctions
      refine hfunctions.1 (mem_map.2 ⟨_, mem_filterMap.2 ⟨q', hq', hfun'⟩, hsymbol⟩)
    | method owner name =>
      have hmethod : q.methodOf? owner =
          some ⟨q.definition.span, name, q.symbol, q.signature.ty⟩ := by
        simp only [Pending.methodOf?, hq, if_true]
      have hmethod' : q'.methodOf? owner =
          some ⟨q'.definition.span, name, q'.symbol, q'.signature.ty⟩ := by
        simp only [Pending.methodOf?, hkind, hq, if_true]
      have howner := hmethods owner
      rw [filterMap_cons_some hmethod, map_cons, nodup_cons] at howner
      exact howner.1 (mem_map.2 ⟨_, mem_filterMap.2 ⟨q', hq', hmethod'⟩, rfl⟩)

theorem CheckedAll.nodup_keys (h : CheckedAll source p t fs) :
    (p.functions.map fun f => (f.kind, f.name)).Nodup := by
  obtain ⟨rs, hentries, -, -⟩ := declare_entries h.declared.no_errors
  have hkeys : p.functions.map (fun f => (f.kind, f.name)) =
      (declare source).pending.map Pending.key := by
    rw [h.functions_eq, map_map, ← forall₂_eq_eq_eq, forall₂_map_left_iff, forall₂_map_right_iff]
    exact h.bodies.flip.imp fun f q hbody => Prod.ext hbody.kind_eq hbody.name_eq
  rw [hkeys]
  exact Infer.nodup_keys (hentries.functions_eq ▸ hentries.functions_nodup) hentries.nodup_methods

/-- Names of functions can be told apart exactly if the symbols of their definitions can. -/
theorem CheckedAll.nodup_names_iff (h : CheckedAll source p t fs) :
    (p.functions.map (·.name)).Nodup ↔ source.SymbolsApart := by
  constructor
  · intro hnodup kd hkd kd' hkd' heq
    obtain ⟨f, hf, hfkd⟩ := exists_of_forall₂_left h.typedAs hkd
    obtain ⟨f', hf', hfkd'⟩ := exists_of_forall₂_left h.typedAs hkd'
    have hname : f.name = f'.name := hfkd.name_eq.trans (heq.trans hfkd'.name_eq.symm)
    have hsame := inj_on_of_nodup_map hnodup hf hf' hname
    rw [← hfkd.kind_eq, ← hfkd'.kind_eq, hsame]
  · intro hapart
    have hnames : p.functions.map (·.name) =
        (p.functions.map fun f => (f.kind, f.name)).map (·.2) := by
      rw [map_map]
      rfl
    rw [hnames]
    refine Nodup.map_on (fun x hx y hy hxy => ?_) h.nodup_keys
    obtain ⟨f, hf, rfl⟩ := mem_map.1 hx
    obtain ⟨f', hf', rfl⟩ := mem_map.1 hy
    obtain ⟨kd, hkd, hfkd⟩ := exists_of_forall₂_right h.typedAs hf
    obtain ⟨kd', hkd', hfkd'⟩ := exists_of_forall₂_right h.typedAs hf'
    have hkind := hapart kd hkd kd' hkd' (hfkd.name_eq.symm.trans (hxy.trans hfkd'.name_eq))
    exact Prod.ext (hfkd.kind_eq.trans (hkind.trans hfkd'.kind_eq.symm)) hxy

/-! ## Calls -/

/-- A method call goes to a member of the record that is a method and no field. -/
def GoesToMethod (g : Globals) : Typed.Expr → Prop
  | .callMethod _ owner method symbol _ => ∃ r m, g.records.get? owner = some r ∧
    r.field? method = none ∧ r.method? method = some m ∧ m.symbol = symbol
  | _ => True

/-- Checks carry along where method calls go. -/
def goingToMethods (g : Globals) : Carrying g where
  draws _ := True
  table _ := True
  type _ _ := True
  meets _ := True
  expr _ := GoesToMethod g
  draws_child _ _ _ := trivial
  draws_cases _ _ := trivial
  type_mono _ _ := trivial
  type_prim := trivial
  type_list := trivial
  type_record _ := trivial
  type_field _ _ _ := trivial
  type_function _ _ _ := trivial
  type_method _ _ _ _ := trivial
  meets_var := trivial
  meets_type _ := trivial
  fresh _ _ := trivial
  annotated _ _ _ := ⟨trivial, trivial⟩
  unify _ _ _ _ := ⟨trivial, trivial⟩
  call _ _ _ _ _ _ := ⟨trivial, trivial⟩
  expr_mono h _ := h
  expr_field := trivial
  expr_binary _ _ := trivial
  expr_other h _ := by
    cases h.step with
    | callMethod _ _ hr hd hm _ _ => exact ⟨_, _, hr, hd, hm, rfl⟩
    | _ => exact trivial

theorem BodiesRun.goesToMethod (h : BodiesRun g t pending fs t') :
    ∀ f ∈ fs, ∀ e ∈ f.body.parts, GoesToMethod g e := by
  induction h with
  | nil => exact nofun
  | cons hstep _ ih =>
    obtain ⟨-, -, -, hparts⟩ := Carrying.body (c := goingToMethods _) hstep trivial trivial
      (fun _ _ => trivial) trivial
    exact forall_mem_cons.2 ⟨hparts, ih⟩

/-- **Every direct call has a function that answers it.** -/
theorem exists_answers (h : (check source).errors = [])
    (hf : f ∈ (check source).program.functions) (he : e ∈ f.body.parts)
    (hsymbol : e.callee? = some symbol) : ∃ f', (check source).program.Answers f' e := by
  obtain ⟨-, hall⟩ := checkedAll_checkBodies h
  obtain ⟨scope, htyped⟩ := (hall.wellTyped f hf).body_typed.parts he
  cases e with
  | callFunction info symbol' args =>
    obtain ⟨⟨f', hf', hkind, hname, -⟩, -⟩ := htyped
    exact ⟨f', hf', hkind, hname⟩
  | callMethod info owner method symbol' args =>
    obtain ⟨-, hreceiver, ⟨f', hf', hkind, hname, -⟩, -⟩ := htyped
    refine ⟨f', hf', hkind, hname, hreceiver, ?_⟩
    -- the body as it was checked, before its types were read
    rw [hall.functions_eq] at hf
    obtain ⟨f0, hf0, rfl⟩ := mem_map.1 hf
    have hparts := (bodiesRun_of_check h).goesToMethod f0 hf0
    have hbody : (f0.mapTy (checkBodies source).table.resolve).body =
        f0.body.mapTy (checkBodies source).table.resolve := rfl
    rw [hbody, Typed.Expr.parts_mapTy] at he
    obtain ⟨e0, he0, heq⟩ := mem_map.1 he
    cases e0 with
    | callMethod info0 owner0 method0 symbol0 args0 =>
      cases heq
      obtain ⟨r, m, hr, hd, hm, hsym⟩ := hparts _ he0
      refine ⟨r.mapTy (checkBodies source).table.resolve,
        { m with ty := (checkBodies source).table.resolve m.ty }, ?_, ?_, ?_, hsym⟩
      · rw [hall.records_eq, RecordTable.get?_mapTy, hr]
        rfl
      · rw [RecordDecl.field?_mapTy, hd]
        rfl
      · rw [RecordDecl.method?_mapTy, hm]
        rfl
    | _ => cases heq
  | _ => cases hsymbol

/-- **What symbols stand for.** No two functions of a program that passes are of one kind and name;
their names alone can be told apart exactly if no symbol stands for definitions of two kinds, which
plain names make sure of. Every direct call is answered by one function of the program, and its
symbol is the name of no other function if symbols are kept apart. -/
theorem infer_symbols (h : infer source = .ok p) :
    (p.functions.map fun f => (f.kind, f.name)).Nodup ∧
    ((p.functions.map (·.name)).Nodup ↔ source.SymbolsApart) ∧
    (source.PlainNames → source.SymbolsApart) ∧
    ∀ f ∈ p.functions, ∀ e ∈ f.body.parts, ∀ symbol, e.callee? = some symbol →
      ∃ callee, p.Answers callee e ∧ (∀ other, p.Answers other e → other = callee) ∧
        (source.SymbolsApart → ∀ other ∈ p.functions, other.name = symbol → other = callee) := by
  obtain ⟨hempty, rfl⟩ := infer_eq_ok.1 h
  have herrors := List.isEmpty_iff.1 hempty
  obtain ⟨_, _, hall⟩ := checkedAll_of_check herrors
  have hkeys := hall.nodup_keys
  refine ⟨hkeys, hall.nodup_names_iff, fun hplain => hplain.symbolsApart,
    fun f hf e he symbol hsymbol => ?_⟩
  obtain ⟨callee, hcallee⟩ := exists_answers herrors hf he hsymbol
  refine ⟨callee, hcallee, fun other hother => ?_, fun hapart other hother hname => ?_⟩
  · refine inj_on_of_nodup_map hkeys hother.mem hcallee.mem (Prod.ext ?_ ?_)
    · exact hother.kind_eq hcallee
    · exact (hother.name_eq hsymbol).trans (hcallee.name_eq hsymbol).symm
  · have hnames := hall.nodup_names_iff.2 hapart
    exact inj_on_of_nodup_map hnames hother hcallee.mem
      (hname.trans (hcallee.name_eq hsymbol).symm)

/-- A record with a field and a method, and a function that calls both the method and, through the
field, another function. -/
def meterSource : Source.Program :=
  let at0 : Span := ⟨0, 0⟩
  let id (name : String) : Source.Ident := ⟨name, at0⟩
  let int : Source.TypeExpr := .named at0 (id "int")
  let meter : Source.Expr := .record at0 (id "Meter")
    [⟨at0, id "start", .ident at0 (id "zero")⟩]
  [.record at0 (id "Meter") [⟨at0, id "start", .fn at0 [] int⟩],
   .methods at0 (id "Meter") [⟨at0, id "read", [], some int,
     .methodCall at0 (.ident at0 (id "self")) (id "start") []⟩],
   .function at0 ⟨at0, id "zero", [], some int, .literal at0 (.int 0)⟩,
   .function at0 ⟨at0, id "main", [], none, .binary at0 .add
     (.methodCall at0 meter (id "read") []) (.call at0 (.ident at0 (id "zero")) [])⟩]

theorem infer_symbols_meterSource :
    infer meterSource = .ok (check meterSource).program ∧
    ((check meterSource).program.functions.map (·.name)) = ["Meter::read", "zero", "main"] ∧
    ((check meterSource).program.functions.flatMap fun f =>
      f.body.parts.filterMap Typed.Expr.callee?) = ["Meter::read", "zero"] ∧
    meterSource.PlainNames ∧
    ((check meterSource).program.functions.map (·.name)).Nodup ∧
    ∀ f ∈ (check meterSource).program.functions, ∀ e ∈ f.body.parts, ∀ symbol,
      e.callee? = some symbol → ∃ callee, (check meterSource).program.Answers callee e ∧
        ∀ other ∈ (check meterSource).program.functions, other.name = symbol → other = callee := by
  have hok : infer meterSource = .ok (check meterSource).program :=
    infer_eq_ok.2 ⟨by decide +kernel, rfl⟩
  have hplain : meterSource.PlainNames := by decide +kernel
  obtain ⟨-, hnames, hapart, hcalls⟩ := infer_symbols hok
  refine ⟨hok, by decide +kernel, by decide +kernel, hplain, hnames.2 (hapart hplain),
    fun f hf e he symbol hsymbol => ?_⟩
  obtain ⟨callee, hcallee, -, hunique⟩ := hcalls f hf e he symbol hsymbol
  exact ⟨callee, hcallee, hunique (hapart hplain)⟩

/-- A function that is named like a method with its record in front. -/
def clashSource : Source.Program :=
  let at0 : Span := ⟨0, 0⟩
  let id (name : String) : Source.Ident := ⟨name, at0⟩
  [.record at0 (id "R") [],
   .function at0 ⟨at0, id "R::m", [], some (.named at0 (id "int")), .literal at0 (.int 1)⟩,
   .methods at0 (id "R") [⟨at0, id "m", [], some (.named at0 (id "bool")),
     .literal at0 (.bool true)⟩]]

/-- **Symbols can clash:** the program passes, and two of its functions have one name. -/
theorem infer_clashSource : infer clashSource = .ok (check clashSource).program ∧
    ((check clashSource).program.functions.map (·.name)) = ["R::m", "R::m"] ∧
    ((check clashSource).program.functions.map (·.kind)) = [.free, .method "R" "m"] ∧
    ¬ ((check clashSource).program.functions.map (·.name)).Nodup :=
  ⟨infer_eq_ok.2 ⟨by decide +kernel, rfl⟩, by decide +kernel, by decide +kernel, by decide +kernel⟩

end Infer

end Sluice
