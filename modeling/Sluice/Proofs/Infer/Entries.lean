import Sluice.Proofs.Infer.Declare
import Sluice.Proofs.Related
import Sluice.Proofs.Sorted

/-!
# What a program declares

Declaring a program without errors leaves behind exactly what the program says: a
record for each record of the source, with its fields, and an entry for each
function and method in the order of the queue (`declare_entries`). So all types
are sound, and whatever can be called has a body that is queued, in the order of
the program (`declare_adds`).
-/

namespace Sluice.Infer

open List
open Source (Definition Item Named RecordFollows RecordItem TypeExpr)
open Unify (Table)

/-! ## Queued bodies -/

/-- A queued body belongs to a definition. -/
structure Pending.Follows (records : RecordTable) (kind : Typed.Kind) (definition : Definition)
    (p : Pending) : Prop where
  definition_eq : p.definition = definition
  kind_eq : p.kind = kind
  symbol_eq : p.symbol = definition.symbol kind
  params_eq : ∃ tys, p.signature.params = (Source.receiver kind).map (·.2) ++ tys ∧
    ∀ θ, TypeExpr.AllowsList records (definition.params.map (·.value)) (Ty.substList θ tys)
  ret_allowed : ∀ a, definition.ret = some a → ∀ θ, a.Allows records (p.signature.ret.subst θ)

theorem Pending.Follows.congr {records records'}
    (h : ∀ name, records.contains name = records'.contains name) {kind definition} {p : Pending}
    (hp : p.Follows records kind definition) : p.Follows records' kind definition where
  definition_eq := hp.definition_eq
  kind_eq := hp.kind_eq
  symbol_eq := hp.symbol_eq
  params_eq := by
    obtain ⟨tys, heq, hallows⟩ := hp.params_eq
    exact ⟨tys, heq, fun θ => (TypeExpr.allowsList_congr h).1 (hallows θ)⟩
  ret_allowed a ha θ := (TypeExpr.allows_congr h).1 (hp.ret_allowed a ha θ)

variable {records : RecordTable} {kind : Typed.Kind} {definition : Definition}
  {signature : Signature} {t t' : Table} {owner : String} {source : Source.Program} {r : RecordDecl}
  {pending : List Pending}

namespace Declared.Signs

theorem follows (hs : Signs records kind definition t signature t') :
    Pending.Follows records kind definition
      ⟨definition, kind, definition.symbol kind, signature⟩ := by
  obtain ⟨tys, htys, -, hallows⟩ := hs.params_eq
  exact ⟨rfl, rfl, rfl, ⟨tys, htys, hallows⟩, hs.ret_allowed⟩

theorem ty_sound (hs : Signs records kind definition t signature t') :
    signature.ty.Sound t'.size := by
  obtain ⟨tys, htys, hsound, -⟩ := hs.params_eq
  refine Ty.Sound.fn_iff.2 ⟨?_, hs.ret_sound⟩
  rw [htys]
  refine forall_mem_append.2 ⟨?_, fun ty hty => (hsound ty hty).1⟩
  cases kind with
  | free => exact nofun
  | method owner name => exact forall_mem_singleton.2 (.of_record owner)

theorem ty_named (hs : Signs records kind definition t signature t')
    (howner : ∀ owner name, kind = .method owner name → records.contains owner = true) :
    signature.ty.Named records := by
  obtain ⟨tys, htys, hnamed, -⟩ := hs.params_eq
  refine Ty.named_fn_iff.2 ⟨?_, hs.ret_named⟩
  rw [htys]
  refine forall_mem_append.2 ⟨?_, fun ty hty => (hnamed ty hty).2⟩
  cases kind with
  | free => exact nofun
  | method owner name => exact forall_mem_singleton.2 (howner owner name rfl)

end Declared.Signs

/-- What a queued body is to callers, if it is a function. -/
def Pending.function? (p : Pending) : Option (String × Signature) :=
  match p.kind with
  | .free => some (p.symbol, p.signature)
  | .method _ _ => none

/-- What a queued body is to a record, if it is one of its methods. -/
def Pending.methodOf? (owner : String) (p : Pending) : Option MethodDecl :=
  match p.kind with
  | .free => none
  | .method record name =>
    if record = owner then some ⟨p.definition.span, name, p.symbol, p.signature.ty⟩ else none

theorem filterMap_methodOf?_free (owner : String) :
    (pending ++ [(⟨definition, .free, symbol, signature⟩ : Pending)]).filterMap
      (Pending.methodOf? owner) = pending.filterMap (Pending.methodOf? owner) := by
  rw [filterMap_append]
  exact append_nil _

theorem filterMap_methodOf?_method (other : String) :
    (pending ++ [(⟨definition, .method owner name, symbol, signature⟩ : Pending)]).filterMap
      (Pending.methodOf? other) = pending.filterMap (Pending.methodOf? other) ++
        if owner = other then [⟨definition.span, name, symbol, signature.ty⟩] else [] := by
  rw [filterMap_append]
  refine congrArg (_ ++ ·) ?_
  rw [filterMap_cons, filterMap_nil, Pending.methodOf?]
  by_cases heq : owner = other
  · simp only [if_pos heq]
  · simp only [if_neg heq]

/-! ## Entries -/

/-- **Functions and methods are entered in the order of the queue**, methods at their records. -/
structure Declared.Entries (rs : List RecordDecl) (d : Declared) : Prop where
  records_eq : d.globals.records.records =
    rs.map fun r => { r with methods := d.pending.filterMap (Pending.methodOf? r.name) }
  functions_eq : d.globals.functions = d.pending.filterMap Pending.function?
  functions_nodup : (d.globals.functions.map (·.1)).Nodup
  methods_nodup : ∀ r ∈ rs,
    ((d.pending.filterMap (Pending.methodOf? r.name)).map (·.name)).Nodup
  owner_declared : ∀ p ∈ d.pending, ∀ owner name, p.kind = .method owner name →
    ∃ r ∈ rs, r.name = owner
  signature_named : ∀ p ∈ d.pending, p.signature.ty.Named d.globals.records
  unbound : d.table.Binds fun _ => False

namespace Declared.Entries

variable {rs : List RecordDecl} {d : Declared}

variable (h : d.Entries rs)
include h

theorem names_eq : d.globals.records.records.map (·.name) = rs.map (·.name) := by
  rw [h.records_eq, map_map]
  rfl

theorem contains_eq (name : String) :
    d.globals.records.contains name = RecordTable.contains ⟨rs⟩ name :=
  contains_congr h.names_eq name

theorem get?_of_mem (hrs : (rs.map (·.name)).Nodup) (hr : r ∈ rs) :
    d.globals.records.get? r.name =
      some { r with methods := d.pending.filterMap (Pending.methodOf? r.name) } := by
  have hmem : { r with methods := d.pending.filterMap (Pending.methodOf? r.name) } ∈
      d.globals.records.records := by
    rw [h.records_eq]
    exact mem_map_of_mem hr
  rw [← h.names_eq] at hrs
  exact RecordTable.get?_of_mem hrs hmem

/-- The methods of a record can be told apart, also if the record is not declared: it has none. -/
theorem nodup_methods (owner : String) :
    ((d.pending.filterMap (Pending.methodOf? owner)).map (·.name)).Nodup := by
  by_cases howner : ∃ r ∈ rs, r.name = owner
  · obtain ⟨r, hr, rfl⟩ := howner
    exact h.methods_nodup r hr
  · have hnone : d.pending.filterMap (Pending.methodOf? owner) = [] := by
      refine filterMap_eq_nil_iff.2 fun p hp => ?_
      rw [Pending.methodOf?]
      split
      · rfl
      · rename_i record name hkind
        refine if_neg fun heq => howner ?_
        exact h.owner_declared p hp owner name (heq ▸ hkind)
    rw [hnone]
    exact nodup_nil

/-- A record that is found is one of the list, with its methods. -/
theorem exists_of_get? (hr : d.globals.records.get? owner = some r) :
    ∃ r0 ∈ rs, r.fields = r0.fields ∧
      r.methods = d.pending.filterMap (Pending.methodOf? owner) := by
  have hname := RecordTable.name_of_get? hr
  have hmem := RecordTable.mem_of_get? hr
  rw [h.records_eq] at hmem
  obtain ⟨r0, hr0, rfl⟩ := mem_map.1 hmem
  exact ⟨r0, hr0, rfl, by rw [← hname]⟩

/-- A function that is found is one of the queue. -/
theorem exists_of_function? (hname : d.globals.function? name = some signature) :
    ∃ p ∈ d.pending, p.kind = .free ∧ p.symbol = name ∧ p.signature = signature := by
  have hmem := mem_of_lookup hname
  rw [h.functions_eq] at hmem
  obtain ⟨p, hp, hfound⟩ := mem_filterMap.1 hmem
  rw [Pending.function?] at hfound
  split at hfound
  · rename_i hkind
    cases hfound
    exact ⟨p, hp, hkind, rfl, rfl⟩
  · cases hfound

/-- A method of a record is one of the queue. -/
theorem exists_of_method (hr : d.globals.records.get? owner = some r) (hm : m ∈ r.methods) :
    ∃ p ∈ d.pending, p.kind = .method owner m.name ∧ p.symbol = m.symbol ∧
      p.signature.ty = m.ty := by
  obtain ⟨-, -, -, hmethods⟩ := h.exists_of_get? hr
  rw [hmethods] at hm
  obtain ⟨p, hp, hfound⟩ := mem_filterMap.1 hm
  rw [Pending.methodOf?] at hfound
  split at hfound
  · cases hfound
  · rename_i record name hkind
    split at hfound
    · rename_i howner
      cases hfound
      exact ⟨p, hp, howner ▸ hkind, rfl, rfl⟩
    · cases hfound

end Declared.Entries

/-- **What has been declared after some definitions:** their bodies are queued in order, and all
types are sound. -/
structure Declared.Lists (rs : List RecordDecl) (definitions : List (Typed.Kind × Definition))
    (d : Declared) : Prop extends Declared.Entries rs d where
  table_sound : d.table.Sound
  fields_sound : ∀ r ∈ rs, ∀ x ∈ r.fields, x.ty.Sound d.table.size
  pending_sound : ∀ p ∈ d.pending, p.signature.ty.Sound d.table.size
  follows : List.Forall₂ (fun kd p => p.Follows ⟨rs⟩ kd.1 kd.2) definitions d.pending

namespace Declared.Lists

variable {rs : List RecordDecl} {definitions : List (Typed.Kind × Definition)} {d : Declared}

variable (h : d.Lists rs definitions)
include h

/-- One more definition. What is left to show is that it is entered, and under a new name. -/
theorem enter (hs : Signs d.globals.records kind definition d.table signature t)
    (howner : ∀ owner name, kind = .method owner name → ∃ r ∈ rs, r.name = owner) {globals}
    (hpending : pending = d.pending ++ [⟨definition, kind, definition.symbol kind, signature⟩])
    (hrecords : globals.records.records =
      rs.map fun r => { r with methods := pending.filterMap (Pending.methodOf? r.name) })
    (hfunctions : globals.functions = pending.filterMap Pending.function?)
    (hfresh : (globals.functions.map (·.1)).Nodup)
    (hfresh' : ∀ r ∈ rs, ((pending.filterMap (Pending.methodOf? r.name)).map (·.name)).Nodup) :
    Declared.Lists rs (definitions ++ [(kind, definition)])
      { d with table := t, globals := globals, pending := pending } := by
  have hsame : ∀ name, d.globals.records.contains name = globals.records.contains name :=
    contains_congr (h.names_eq.trans (by rw [hrecords, map_map]; rfl))
  have hnamed := hs.ty_named fun owner name hkind => by
    rw [h.contains_eq]
    exact RecordTable.contains_eq_true.2 (howner owner name hkind)
  subst hpending
  exact
    { records_eq := hrecords
      functions_eq := hfunctions
      functions_nodup := hfresh
      methods_nodup := hfresh'
      owner_declared := forall_mem_append.2
        ⟨h.owner_declared, forall_mem_singleton.2 howner⟩
      signature_named := forall_mem_append.2
        ⟨fun p hp => (h.signature_named p hp).congr hsame,
          forall_mem_singleton.2 (hnamed.congr hsame)⟩
      unbound := hs.opens.binds h.unbound
      table_sound := hs.refines.sound
      fields_sound := fun r hr x hx => (h.fields_sound r hr x hx).mono hs.refines.size_le
      pending_sound := forall_mem_append.2
        ⟨fun p hp => (h.pending_sound p hp).mono hs.refines.size_le,
          forall_mem_singleton.2 hs.ty_sound⟩
      follows := rel_append h.follows (.cons (hs.follows.congr h.contains_eq) .nil) }

theorem declareFunction (herrors : (d.declareFunction definition).errors = []) :
    (d.declareFunction definition).Lists rs (definitions ++ [(.free, definition)]) := by
  obtain ⟨signature, t, hnew, hs, heq⟩ := declareAs_eq .free h.table_sound herrors
  rw [isTaken, Option.isSome_eq_false_iff, Option.isNone_iff_eq_none] at hnew
  rw [declareFunction_eq_declareAs, heq]
  refine h.enter hs nofun rfl ?_ ?_ ?_ fun r hr => ?_
  · simp only [filterMap_methodOf?_free]
    exact h.records_eq
  · simp only [entered, filterMap_append, h.functions_eq]
    rfl
  · refine nodup_map_concat h.functions_nodup fun entry hentry hname => ?_
    exact absurd hname.symm (bne_iff_ne.1 (lookup_eq_none_iff.1 hnew _ hentry))
  · simp only [filterMap_methodOf?_free]
    exact h.methods_nodup r hr

theorem declareMethod (hdistinct : (rs.map (·.name)).Nodup) (howner : ∃ r ∈ rs, r.name = owner)
    (herrors : (d.declareMethod owner definition).errors = []) :
    (d.declareMethod owner definition).Lists rs
      (definitions ++ [(.method owner definition.name.name, definition)]) := by
  obtain ⟨signature, t, hnew, hs, heq⟩ :=
    declareAs_eq (.method owner definition.name.name) h.table_sound herrors
  rw [isTaken, Option.isSome_eq_false_iff, Option.isNone_iff_eq_none] at hnew
  rw [declareMethod_eq_declareAs, heq]
  refine h.enter hs (fun _ _ hkind => by cases hkind; exact howner) rfl ?_ ?_ h.functions_nodup
    fun r hr => ?_
  · simp only [entered, filterMap_methodOf?_method, RecordTable.addMethod, RecordTable.modify,
      h.records_eq, map_map]
    refine map_congr_left fun r _ => ?_
    by_cases hr : r.name = owner
    · simp [hr, Source.Definition.symbol]
    · simp [hr, Ne.symm hr]
  · simp only [entered, filterMap_append, h.functions_eq]
    exact (append_nil _).symm
  · simp only [filterMap_methodOf?_method]
    by_cases hr' : owner = r.name
    · -- a method of that name would have been found
      rw [hr', h.get?_of_mem hdistinct hr, Option.bind_some, RecordDecl.method?,
        find?_eq_none] at hnew
      rw [if_pos hr']
      exact nodup_map_concat (h.methods_nodup r hr) fun m hm hname =>
        hnew m hm (beq_iff_eq.2 hname)
    · rw [if_neg hr', append_nil]
      exact h.methods_nodup r hr

theorem declareItem (hdistinct : (rs.map (·.name)).Nodup)
    (herrors : (d.declareItem item).errors = []) :
    (d.declareItem item).Lists rs (definitions ++ item.definitions) := by
  cases item with
  | record =>
    rw [Item.definitions, append_nil]
    exact h
  | function _ definition => exact h.declareFunction herrors
  | methods _ owner defs =>
    rw [Declared.declareItem] at herrors ⊢
    split at herrors
    · rename_i hrec
      rw [if_pos hrec]
      rw [h.contains_eq] at hrec
      have howner := RecordTable.contains_eq_true.1 hrec
      clear hrec
      induction defs generalizing d definitions with
      | nil =>
        rw [Item.definitions, map_nil, append_nil]
        exact h
      | cons m rest ih =>
        have h1 := no_errors_before (errors_foldl
          (fun d m => errors_declareAs d (.method owner.name _) m) rest _) herrors
        have := ih (h.declareMethod hdistinct howner h1) herrors
        rwa [List.append_assoc] at this
    · exact absurd herrors (report_errors_ne_nil _ _ _)

omit h in
/-- A fold over items declares all their definitions. -/
theorem foldl_declareItem (hdistinct : (rs.map (·.name)).Nodup) : ∀ (items : List Item)
    {definitions d}, d.Lists rs definitions →
    (items.foldl Declared.declareItem d).errors = [] →
      (items.foldl Declared.declareItem d).Lists rs
        (definitions ++ items.flatMap Item.definitions)
  | [], _, _, h, _ => by rwa [flatMap_nil, append_nil]
  | item :: rest, _, d, h, herrors => by
    have h1 := no_errors_before (errors_foldl errors_declareItem rest (d.declareItem item)) herrors
    rw [flatMap_cons, ← List.append_assoc]
    exact foldl_declareItem hdistinct rest (h.declareItem hdistinct h1) herrors

end Declared.Lists

/-- **What a program without errors declares:** its records, with the fields that are written, and
its functions and methods in the order of the queue. -/
theorem declare_lists (h : (declare source).errors = []) :
    ∃ rs, (declare source).Lists rs source.definitions ∧ Apart ⟨rs⟩ ∧
      Forall₂ (RecordFollows ⟨rs⟩) source.recordItems rs ∧
      ∀ r ∈ rs, (r.fields.map (·.name)).Nodup := by
  rw [declare] at h ⊢
  have h2 := Declared.no_errors_before
    (Declared.errors_foldl Declared.errors_declareItem source _) h
  have h1 := Declared.no_errors_before (Declared.foldl_declareFields_stays _ _).errors_grow h2
  have hempty : Apart ({} : Declared).globals.records :=
    ⟨nodup_nil, nofun⟩
  obtain ⟨heq1, hapart⟩ := Declared.declareRecords_eq source hempty h1
  rw [heq1] at h h2 ⊢
  simp only at h h2 ⊢
  obtain ⟨t, filled, heq2, href, hopens, hfollows, hfilled⟩ := Declared.foldl_declareFields_eq
    (source.filterMap Item.record?) [] (d := Declared.withRecords {} _)
    Unify.Table.sound_empty hapart.distinct rfl h2
  -- what is left of the first two steps is the table and the records
  replace heq2 : _ = ({ table := t, globals := { records := ⟨filled⟩ } } : Declared) := heq2
  rw [heq2] at h ⊢
  have hnames : ((source.filterMap Item.record?).map RecordItem.empty).map (·.name) =
      filled.map (·.name) := by
    rw [← forall₂_eq_eq_eq, map_map, forall₂_map_left_iff, forall₂_map_right_iff]
    exact hfollows.imp fun _ _ hf => hf.name_eq.symm
  have hdistinct : (filled.map (·.name)).Nodup := hnames ▸ hapart.distinct
  have hstart : Declared.Lists filled [] { table := t, globals := { records := ⟨filled⟩ } } :=
    { records_eq := by
        refine (map_id filled).symm.trans (map_congr_left fun r hr => ?_)
        rw [id, filterMap_nil, ← (hfilled r hr).1]
      functions_eq := rfl
      functions_nodup := nodup_nil
      methods_nodup := fun _ _ => nodup_nil
      owner_declared := fun p hp => nomatch hp
      signature_named := fun p hp => nomatch hp
      unbound := hopens.binds fun v ty hv => by
        simp [Declared.withRecords, Unify.Table.binding?] at hv
      table_sound := href.sound
      fields_sound := fun r hr => (hfilled r hr).2.1
      pending_sound := fun p hp => nomatch hp
      follows := .nil }
  refine ⟨filled, hstart.foldl_declareItem hdistinct source h, ⟨hdistinct, fun r hr => ?_⟩,
    hfollows.imp fun _ _ hf => hf.congr (Declared.contains_congr hnames),
    fun r hr => (hfilled r hr).2.2⟩
  obtain ⟨r', hr', hname⟩ := mem_map.1 (hnames ▸ mem_map_of_mem hr)
  rw [← hname]
  exact hapart.not_builtin r' hr'

theorem declare_entries (h : (declare source).errors = []) :
    ∃ rs, (declare source).Entries rs ∧ Apart ⟨rs⟩ ∧
      Forall₂ (RecordFollows (declare source).globals.records) source.recordItems rs := by
  obtain ⟨rs, hlists, hapart, hfollows, -⟩ := declare_lists h
  exact ⟨rs, hlists.toEntries, hapart,
    hfollows.imp fun _ _ hf => hf.congr fun name => (hlists.contains_eq name).symm⟩

/-! ## Declared states without errors -/

/-- A body is queued under a kind and a symbol with given types. -/
def Queued (pending : List Pending) (kind : Typed.Kind) (symbol : String) (params : List Ty)
    (ret : Ty) : Prop :=
  ∃ p ∈ pending, p.kind = kind ∧ p.symbol = symbol ∧ p.signature = ⟨params, ret⟩

/-- **Nothing has been reported:** all types are sound, and whatever can be called has its body
in the queue. -/
structure Declared.Fine (d : Declared) : Prop where
  no_errors : d.errors = []
  table_sound : d.table.Sound
  globals_sound : d.globals.Sound d.table.size
  pending_sound : ∀ p ∈ d.pending, p.signature.ty.Sound d.table.size
  function_queued : ∀ name signature, d.globals.function? name = some signature →
    Queued d.pending .free name signature.params signature.ret
  method_queued : ∀ owner r m, d.globals.records.get? owner = some r → m ∈ r.methods →
    ∃ params ret, m.ty = .fn (.record owner :: params) ret ∧
      m.symbol = methodSymbol owner m.name ∧
      Queued d.pending (.method owner m.name) m.symbol (.record owner :: params) ret

namespace Declared.Lists

variable {rs : List RecordDecl} {definitions : List (Typed.Kind × Definition)} {d : Declared}

theorem queued_of_method (h : d.Lists rs definitions) (hr : d.globals.records.get? owner = some r)
    (hm : m ∈ r.methods) :
    ∃ params ret, m.ty = .fn (.record owner :: params) ret ∧
      m.symbol = methodSymbol owner m.name ∧
      Queued d.pending (.method owner m.name) m.symbol (.record owner :: params) ret := by
  obtain ⟨p, hp, hkind, hsymbol, hty⟩ := h.exists_of_method hr hm
  obtain ⟨⟨kind, definition⟩, -, hfollows⟩ := exists_of_forall₂_right h.follows hp
  cases hfollows.kind_eq.symm.trans hkind
  obtain ⟨tys, hparams, -⟩ := hfollows.params_eq
  have hsig : p.signature = ⟨.record owner :: tys, p.signature.ret⟩ := by
    rw [show .record owner :: tys = p.signature.params from hparams.symm]
  refine ⟨tys, p.signature.ret, ?_, hsymbol.symm.trans hfollows.symbol_eq, p, hp, hkind, hsymbol,
    hsig⟩
  rw [← hty, hsig]
  rfl

theorem fine (h : d.Lists rs definitions) (hnodup : ∀ r ∈ rs, (r.fields.map (·.name)).Nodup)
    (herrors : d.errors = []) : d.Fine where
  no_errors := herrors
  table_sound := h.table_sound
  pending_sound := h.pending_sound
  function_queued _ _ hname := h.exists_of_function? hname
  method_queued _ _ _ hr hm := h.queued_of_method hr hm
  globals_sound := by
    refine ⟨fun owner r hr x hx => ?_, fun owner r hr => ?_, fun owner r hr m hm => ?_,
      fun name sig hname => ?_⟩
    · obtain ⟨r0, hr0, hfields, -⟩ := h.exists_of_get? hr
      exact h.fields_sound r0 hr0 x (hfields ▸ hx)
    · obtain ⟨r0, hr0, hfields, -⟩ := h.exists_of_get? hr
      exact hfields ▸ hnodup r0 hr0
    · obtain ⟨p, hp, -, -, hty⟩ := h.exists_of_method hr hm
      exact hty ▸ h.pending_sound p hp
    · obtain ⟨p, hp, -, -, rfl⟩ := h.exists_of_function? hname
      exact h.pending_sound p hp

end Declared.Lists

/-- **Declaring a program without errors** leaves sound types behind, and the bodies of its
definitions queued in order. -/
theorem declare_adds (h : (declare source).errors = []) :
    (declare source).Fine ∧ Forall₂
      (fun kd p => p.Follows (declare source).globals.records kd.1 kd.2)
      source.definitions (declare source).pending := by
  obtain ⟨rs, hlists, -, -, hnodup⟩ := declare_lists h
  exact ⟨hlists.fine hnodup h,
    hlists.follows.imp fun _ _ hp => hp.congr fun name => (hlists.contains_eq name).symm⟩

end Sluice.Infer
