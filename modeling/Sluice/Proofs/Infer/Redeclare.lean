import Sluice.Proofs.Infer.Entries

/-!
# Declaring what was declared

A program that is written back declares the same again: the records with the
fields they had, and the functions and methods in the order they were in. It
needs no variables for that, since every type is spelled out.
-/

namespace Sluice.Infer

open List
open Source (Definition Item Named TypeExpr)
open Typed (Function Local LocalId paramSource prependFunction recordSource)

variable {rs : List RecordDecl} {d : Declared} {f : Function} {q : Pending}
  {done : List Pending}

/-- What declaring records and a queue of bodies leaves behind if no type is left open. -/
def Declared.spelled (rs : List RecordDecl) (pending : List Pending) : Declared where
  globals :=
    { records := ⟨rs.map fun r => { r with methods := pending.filterMap (Pending.methodOf? r.name) }⟩
      functions := pending.filterMap Pending.function? }
  pending := pending

/-- A field as it is written. -/
def fieldSource (d : FieldDecl) : Named TypeExpr :=
  ⟨d.span, ⟨d.name, d.span⟩, d.ty.spelled d.span⟩

namespace Declared

theorem contains_spelled (rs : List RecordDecl) (pending : List Pending) (name : String) :
    (Declared.spelled rs pending).globals.records.contains name =
      RecordTable.contains ⟨rs⟩ name :=
  contains_congr (by rw [map_map]; rfl) name

/-! ## Types that are spelled out -/

theorem annotationType_spelled (hd : NoBuiltin d.globals.records)
    (hty : ty.Spellable d.globals.records) (span : Span) :
    d.annotationType (ty.spelled span) = (ty, d) := by
  rw [annotationType, annotated_spelled hd span d.table hty.closed hty.named]

theorem annotationTypes_spelled (hd : NoBuiltin d.globals.records) : ∀ (ls : List Local),
    (∀ l ∈ ls, l.ty.Spellable d.globals.records) →
    d.annotationTypes (ls.map fun l => l.ty.spelled l.span) = (ls.map (·.ty), d)
  | [], _ => rfl
  | l :: rest, hls => by
    obtain ⟨hl, hrest⟩ := forall_mem_cons.1 hls
    rw [map_cons, annotationTypes, annotationType_spelled hd hl]
    simp only [annotationTypes_spelled hd rest hrest, map_cons]

theorem signature_spelled (hd : NoBuiltin d.globals.records) {definition} {ls : List Local}
    {ret span} (hparams : definition.params.map (·.value) = ls.map fun l => l.ty.spelled l.span)
    (hret : definition.ret = some (ret.spelled span))
    (hls : ∀ l ∈ ls, l.ty.Spellable d.globals.records) (hrs : ret.Spellable d.globals.records)
    (receiver : List Ty) :
    d.signature definition receiver = (⟨receiver ++ ls.map (·.ty), ret⟩, true, d) := by
  rw [signature]
  simp only [hparams, annotationTypes_spelled hd ls hls, hret, annotationType_spelled hd hrs,
    beq_self_eq_true]

/-! ## Records -/

/-- A record before its fields are declared. -/
def blank (r : RecordDecl) : RecordDecl :=
  { r with fields := [], methods := [] }

theorem declareRecords_of_none : ∀ (items : List Item) (d : Declared),
    (∀ item ∈ items, item.record? = none) → d.declareRecords items = ([], d)
  | [], _, _ => rfl
  | .record _ _ _ :: _, _, h => by cases (forall_mem_cons.1 h).1
  | .function _ _ :: rest, d, h | .methods _ _ _ :: rest, d, h =>
    declareRecords_of_none rest d (forall_mem_cons.1 h).2

/-- Records that can be told apart are declared in order. -/
theorem declareRecords_recordSource (hrest : ∀ item ∈ rest, item.record? = none) :
    ∀ (rs done : List RecordDecl), ((done ++ rs).map (·.name)).Nodup →
    (∀ r ∈ rs, isBuiltin r.name = false) →
    (withRecords {} ⟨done⟩).declareRecords (rs.map recordSource ++ rest) =
      (rs.map fun r => (⟨r.name, r.span⟩, r.fields.map fieldSource),
        withRecords {} ⟨done ++ rs.map blank⟩)
  | [], done, _, _ => by
    rw [map_nil, nil_append, declareRecords_of_none rest _ hrest, map_nil, map_nil, append_nil]
  | r :: rs, done, hnodup, hbuiltin => by
    obtain ⟨hr, hrs⟩ := forall_mem_cons.1 hbuiltin
    have hnew : RecordTable.contains ⟨done⟩ r.name = false := by
      rw [← Bool.not_eq_true, RecordTable.contains_eq_true]
      rintro ⟨r', hr', hname⟩
      rw [map_append, nodup_append] at hnodup
      exact hnodup.2.2 _ (mem_map_of_mem hr') _ mem_cons_self hname
    have hdeclared : (withRecords {} ⟨done⟩).declareRecord r.span ⟨r.name, r.span⟩ =
        (true, withRecords {} ⟨done ++ [blank r]⟩) := by
      simp only [declareRecord, withRecords, RecordTable.insert?, hnew, hr]
      rfl
    have hnodup' : ((done ++ [blank r] ++ rs).map (·.name)).Nodup := by
      rw [List.append_assoc, map_append] at *
      exact hnodup
    rw [map_cons, cons_append, recordSource, declareRecords]
    simp only [hdeclared, declareRecords_recordSource hrest rs (done ++ [blank r]) hnodup' hrs,
      if_true, map_cons, List.append_assoc, singleton_append]
    rfl

/-- The fields of a record are declared in order. -/
theorem declareFields_spelled (owner : Source.Ident) : ∀ (fields sofar : List FieldDecl)
    {d : Declared}, NoBuiltin d.globals.records →
    (∀ x ∈ fields, x.ty.Spellable d.globals.records) →
    ((sofar ++ fields).map (·.name)).Nodup →
    d.declareFields owner sofar (fields.map fieldSource) =
      d.withRecords (d.globals.records.modify owner.name fun r => { r with fields := sofar ++ fields })
  | [], sofar, d, _, _, _ => by
    rw [map_nil, declareFields, append_nil]
  | x :: rest, sofar, d, hd, hfields, hnodup => by
    obtain ⟨hx, hrest⟩ := forall_mem_cons.1 hfields
    have hnew : ¬ sofar.any (·.name == x.name) = true := by
      rw [any_eq_true]
      rintro ⟨y, hy, hname⟩
      rw [map_append, nodup_append] at hnodup
      exact hnodup.2.2 _ (mem_map_of_mem hy) _ mem_cons_self (beq_iff_eq.1 hname)
    have happend : sofar ++ x :: rest = sofar ++ [x] ++ rest := by simp
    rw [map_cons, fieldSource, declareFields, if_neg hnew, annotationType_spelled hd hx]
    rw [happend] at hnodup ⊢
    exact declareFields_spelled owner rest (sofar ++ [x]) hd hrest hnodup

/-- The fields of all records are declared in order. -/
theorem foldl_declareFields_spelled : ∀ (rs done : List RecordDecl),
    ((done ++ rs).map (·.name)).Nodup → NoBuiltin ⟨done ++ rs⟩ →
    (∀ r ∈ rs, (∀ x ∈ r.fields, x.ty.Spellable ⟨done ++ rs⟩) ∧ (r.fields.map (·.name)).Nodup) →
    rs.foldl (fun d r => d.declareFields ⟨r.name, r.span⟩ [] (r.fields.map fieldSource))
      (withRecords {} ⟨done ++ rs.map blank⟩) =
    withRecords {} ⟨done ++ rs.map fun r => { r with methods := [] }⟩
  | [], done, _, _, _ => rfl
  | r :: rs, done, hnodup, hbuiltin, hrs => by
    obtain ⟨⟨hfields, hnames⟩, hrest⟩ := forall_mem_cons.1 hrs
    let filled : RecordDecl := { r with methods := [] }
    -- blank or filled, the records have the same names
    have hblank : (done ++ r :: rs).map (·.name) = (done ++ (r :: rs).map blank).map (·.name) := by
      rw [map_append, map_append, map_map]
      rfl
    have hfilled : (done ++ r :: rs).map (·.name) = (done ++ [filled] ++ rs).map (·.name) := by
      simp [filled]
    have hsame := contains_congr hblank
    have hsame' := contains_congr hfilled
    have hfirst := declareFields_spelled ⟨r.name, r.span⟩ r.fields []
      (d := withRecords {} ⟨done ++ (r :: rs).map blank⟩) (hbuiltin.congr hsame)
      (fun x hx => (hfields x hx).congr hsame) hnames
    have hmodify : RecordTable.modify ⟨done ++ (r :: rs).map blank⟩ r.name
        (fun x => { x with fields := [] ++ r.fields }) = ⟨done ++ [filled] ++ rs.map blank⟩ := by
      rw [hblank] at hnodup
      rw [List.append_assoc]
      exact RecordTable.modify_of_distinct hnodup rfl
    have hstep : (withRecords {} ⟨done ++ (r :: rs).map blank⟩).declareFields ⟨r.name, r.span⟩ []
        (r.fields.map fieldSource) = withRecords {} ⟨done ++ [filled] ++ rs.map blank⟩ :=
      hfirst.trans (congrArg (withRecords {}) hmodify)
    have hothers := foldl_declareFields_spelled rs (done ++ [filled]) (hfilled ▸ hnodup)
      (hbuiltin.congr hsame') fun r' hr' =>
        ⟨fun x hx => ((hrest r' hr').1 x hx).congr hsame', (hrest r' hr').2⟩
    rw [foldl_cons, hstep, hothers, map_cons, List.append_assoc, singleton_append]

/-! ## Functions and methods -/

/-- Declares a function or method that is written back. -/
def redeclare (d : Declared) (f : Function) : Declared :=
  match f.kind with
  | .free => d.declareFunction f.source
  | .method owner _ => d.declareMethod owner f.source

theorem redeclare_eq_declareAs (d : Declared) (f : Function) :
    d.redeclare f = d.declareAs f.kind f.source := by
  rw [redeclare]
  split
  · rename_i hkind
    rw [hkind]
    rfl
  · rename_i owner name hkind
    -- a method is written under its own name, not under its symbol
    have hname : f.source.name.name = name := by rw [Typed.Function.source, hkind]
    rw [declareMethod_eq_declareAs, hname, hkind]

theorem globals_queue (d : Declared) (sound : Bool) (p : Pending) :
    (d.queue sound p).globals = d.globals := by
  rw [queue]
  split <;> rfl

/-- No record appears or goes away. -/
theorem contains_redeclare (d : Declared) (f : Function) (name : String) :
    (d.redeclare f).globals.records.contains name = d.globals.records.contains name := by
  rw [redeclare_eq_declareAs, declareAs]
  simp only
  split
  · rfl
  · rw [globals_queue]
    simp only [(d.signature_stays f.source _).2]
    cases f.kind with
    | free => rfl
    | method owner name => exact RecordTable.contains_addMethod _ _ _ _

theorem declareItem_methods (h : d.globals.records.contains owner.name = true) (span : Span)
    (methods : List Definition) : d.declareItem (.methods span owner methods) =
      methods.foldl (fun d m => d.declareMethod owner.name m) d := by
  rw [declareItem, if_pos h]

/-- Putting a function in front declares it first. -/
theorem foldl_prependFunction (items : List Item)
    (h : ∀ owner name, f.kind = .method owner name → d.globals.records.contains owner = true) :
    (prependFunction f items).foldl declareItem d = items.foldl declareItem (d.redeclare f) := by
  rw [prependFunction, redeclare]
  cases hkind : f.kind with
  | free => rfl
  | method owner name =>
    have howner := h owner name hkind
    simp only
    split
    · rename_i span owner' methods rest
      split
      · -- the block that follows takes the method in
        rename_i heq
        have hkept := contains_redeclare d f owner'.name
        rw [redeclare, hkind, heq, howner] at hkept
        rw [foldl_cons, foldl_cons, declareItem_methods howner, foldl_cons,
          declareItem_methods (by rw [heq]; exact hkept), heq]
      · rw [foldl_cons, declareItem_methods howner]
        rfl
    · rw [foldl_cons, declareItem_methods howner]
      rfl

/-- **Items that are written back are declared one by one,** in order. -/
theorem foldl_functions : ∀ (fs : List Function) (d : Declared),
    (∀ f ∈ fs, ∀ owner name, f.kind = .method owner name →
      d.globals.records.contains owner = true) →
    (fs.foldr prependFunction []).foldl declareItem d = fs.foldl redeclare d
  | [], _, _ => rfl
  | f :: rest, d, h => by
    obtain ⟨hf, hrest⟩ := forall_mem_cons.1 h
    rw [foldr_cons, foldl_prependFunction _ hf, foldl_cons]
    exact foldl_functions rest _ fun f' hf' owner name hkind => by
      rw [contains_redeclare]
      exact hrest f' hf' owner name hkind

end Declared

/-- The locals of the parameters that are written: those of a method without the receiver. -/
def writtenParams (f : Function) : List Local :=
  match f.kind with
  | .free => f.params.map (f.locals.getD · default)
  | .method _ _ => f.params.tail.map (f.locals.getD · default)

/-- A function is written back under an entry of the queue. -/
structure Writes (records : RecordTable) (f : Function) (q : Pending) : Prop where
  definition_eq : q.definition = f.source
  kind_eq : q.kind = f.kind
  symbol_eq : q.symbol = f.source.symbol f.kind
  params_eq : q.signature.params =
    (Source.receiver f.kind).map (·.2) ++ (writtenParams f).map (·.ty)
  ret_eq : q.signature.ret = f.ret
  params_spellable : ∀ l ∈ writtenParams f, l.ty.Spellable records
  ret_spellable : f.ret.Spellable records

namespace Writes

variable {records : RecordTable}

theorem values_eq (f : Function) : f.source.params.map (·.value) =
    (writtenParams f).map fun l => l.ty.spelled l.span := by
  rw [Typed.Function.source, writtenParams]
  cases f.kind <;> simp only [map_map] <;> rfl

/-- The signature that is declared is that of the entry. -/
theorem signature_eq (h : Writes records f q) (hrecords : NoBuiltin records)
    (hd : ∀ name, records.contains name = d.globals.records.contains name) :
    d.signature f.source ((Source.receiver f.kind).map (·.2)) = (q.signature, true, d) := by
  rw [Declared.signature_spelled (hrecords.congr hd) (values_eq f) rfl
    (fun l hl => (h.params_spellable l hl).congr hd) (h.ret_spellable.congr hd), ← h.params_eq,
    ← h.ret_eq]

end Writes

namespace Declared

/-- A name that is not taken finds no method. -/
theorem method?_spelled (h : name ∉ (done.filterMap (Pending.methodOf? owner)).map (·.name)) :
    ((spelled rs done).globals.records.get? owner).bind (·.method? name) = none := by
  cases hget : (spelled rs done).globals.records.get? owner with
  | none => rfl
  | some r =>
    have hname := RecordTable.name_of_get? hget
    obtain ⟨r0, -, rfl⟩ := mem_map.1 (RecordTable.mem_of_get? hget)
    subst hname
    rw [Option.bind_some, RecordDecl.method?, find?_eq_none]
    intro m hm heq
    exact h (mem_map.2 ⟨m, hm, beq_iff_eq.1 heq⟩)

/-- A method that is entered is the last one of its record. -/
theorem addMethod_spelled {definition owner name symbol}
    {signature} :
    (spelled rs done).globals.records.addMethod owner
        ⟨definition.span, name, symbol, signature.ty⟩ =
      (spelled rs (done ++ [⟨definition, .method owner name, symbol, signature⟩])).globals.records := by
  simp only [spelled, RecordTable.addMethod, RecordTable.modify, map_map,
    filterMap_methodOf?_method]
  refine congrArg RecordTable.mk (map_congr_left fun r _ => ?_)
  simp only [Function.comp]
  by_cases heq : owner = r.name
  · rw [if_pos heq, if_pos (beq_iff_eq.2 heq.symm)]
  · rw [if_neg heq, if_neg fun h => heq (beq_iff_eq.1 h).symm, append_nil]

/-- A definition that is entered is the last one of the queue. -/
theorem entered_spelled (kind : Typed.Kind) (definition : Definition) (signature : Signature) :
    entered (spelled rs done).globals kind definition signature =
      (spelled rs (done ++ [⟨definition, kind, definition.symbol kind, signature⟩])).globals := by
  cases kind with
  | free =>
    simp only [entered, spelled, filterMap_methodOf?_free]
    rw [filterMap_append]
    rfl
  | method owner name =>
    simp only [entered, addMethod_spelled]
    simp only [spelled]
    rw [filterMap_append]
    exact congrArg _ (append_nil _).symm

/-- **One function more is one entry more,** if its name is not taken. -/
theorem redeclare_spelled (hrecords : NoBuiltin ⟨rs⟩) (hq : Writes ⟨rs⟩ f q)
    (hfunction : (((done ++ [q]).filterMap Pending.function?).map (·.1)).Nodup)
    (hmethod : ∀ owner, (((done ++ [q]).filterMap (Pending.methodOf? owner)).map (·.name)).Nodup) :
    (spelled rs done).redeclare f = spelled rs (done ++ [q]) := by
  have hsig := hq.signature_eq hrecords (d := spelled rs done)
    fun name => (contains_spelled rs done name).symm
  obtain ⟨definition, kind, symbol, signature⟩ := q
  obtain ⟨rfl, rfl, rfl, -, -, -, -⟩ := hq
  have hnew : (spelled rs done).isTaken f.kind f.source.name.name = false := by
    cases hkind : f.kind with
    | free =>
      rw [hkind] at hfunction
      rw [filterMap_append, map_append, nodup_append] at hfunction
      rw [isTaken, Option.isSome_eq_false_iff, Option.isNone_iff_eq_none]
      refine lookup_eq_none_iff.2 fun entry hentry => bne_iff_ne.2 fun heq => ?_
      exact hfunction.2.2 _ (mem_map_of_mem hentry) _ (mem_singleton.2 rfl) heq.symm
    | method owner name =>
      have hown := hmethod owner
      have hname : f.source.name.name = name := by rw [Typed.Function.source, hkind]
      rw [hkind, filterMap_methodOf?_method, if_pos rfl, map_append, nodup_append] at hown
      rw [isTaken, method?_spelled]
      · rfl
      · rw [hname]
        exact fun hmem => hown.2.2 _ hmem _ (mem_singleton.2 rfl) rfl
  rw [redeclare_eq_declareAs, declareAs]
  simp only [hnew, hsig, entered_spelled, queue, Bool.false_eq_true, if_false, if_true]
  rfl

/-- **The functions are entered in order.** -/
theorem foldl_redeclare_spelled (hrecords : NoBuiltin ⟨rs⟩) : ∀ (fs : List Function)
    (qs done : List Pending), Forall₂ (Writes ⟨rs⟩) fs qs →
    (((done ++ qs).filterMap Pending.function?).map (·.1)).Nodup →
    (∀ owner, (((done ++ qs).filterMap (Pending.methodOf? owner)).map (·.name)).Nodup) →
    fs.foldl redeclare (spelled rs done) = spelled rs (done ++ qs)
  | [], _, done, .nil, _, _ => by rw [append_nil]; rfl
  | f :: fs, q :: qs, done, .cons hq hqs, hfunction, hmethod => by
    have happend : done ++ q :: qs = done ++ [q] ++ qs := by simp
    rw [happend] at hfunction hmethod ⊢
    -- what is taken when the first one is entered is taken in the end
    have hfirst : done ++ [q] <+: done ++ [q] ++ qs := prefix_append _ _
    have hstep := redeclare_spelled hrecords hq
      (hfunction.sublist (((hfirst.filterMap _).map _).sublist))
      fun owner => (hmethod owner).sublist (((hfirst.filterMap _).map _).sublist)
    rw [foldl_cons, hstep]
    exact foldl_redeclare_spelled hrecords fs qs (done ++ [q]) hqs hfunction hmethod

end Declared

theorem record?_of_mem_functions : ∀ (fs : List Function),
    ∀ item ∈ fs.foldr prependFunction [], item.record? = none
  | [] => forall_mem_nil _
  | f :: rest => by
    have hrest := record?_of_mem_functions rest
    rw [foldr_cons, prependFunction]
    split
    · exact forall_mem_cons.2 ⟨rfl, hrest⟩
    · split
      · rename_i hitems
        split
        · rw [hitems] at hrest
          exact forall_mem_cons.2 ⟨rfl, (forall_mem_cons.1 hrest).2⟩
        · exact forall_mem_cons.2 ⟨rfl, hrest⟩
      · exact forall_mem_cons.2 ⟨rfl, hrest⟩

theorem foldl_declareItem_records (d : Declared) : ∀ rs : List RecordDecl,
    (rs.map recordSource).foldl Declared.declareItem d = d
  | [] => rfl
  | _ :: rest => foldl_declareItem_records d rest

/-- **A program that is written back declares its records and its queue of bodies.** -/
theorem declare_source {p : Typed.Program}
    (hp : p.records.records.map recordSource = rs.map recordSource) (hapart : Apart ⟨rs⟩)
    (hfields : ∀ r ∈ rs, (∀ x ∈ r.fields, x.ty.Spellable ⟨rs⟩) ∧ (r.fields.map (·.name)).Nodup)
    (hqs : Forall₂ (Writes ⟨rs⟩) p.functions qs)
    (hfunction : ((qs.filterMap Pending.function?).map (·.1)).Nodup)
    (hmethod : ∀ owner, ((qs.filterMap (Pending.methodOf? owner)).map (·.name)).Nodup)
    (howner : ∀ f ∈ p.functions, ∀ owner name, f.kind = .method owner name →
      RecordTable.contains ⟨rs⟩ owner = true) : declare p.source = Declared.spelled rs qs := by
  have hbuiltin := hapart.noBuiltin
  -- records come first, then their fields, and the functions after both
  have hrecords := Declared.declareRecords_recordSource (record?_of_mem_functions p.functions) rs []
    hapart.distinct hapart.not_builtin
  have hfilled := Declared.foldl_declareFields_spelled rs [] hapart.distinct hbuiltin hfields
  have hstart : Declared.withRecords {} ⟨[] ++ rs.map fun r => { r with methods := [] }⟩ =
      Declared.spelled rs [] := rfl
  have hend := Declared.foldl_redeclare_spelled hbuiltin p.functions qs [] hqs hfunction hmethod
  rw [declare, Typed.Program.source, hp]
  rw [show Declared.declareRecords {} _ = _ from hrecords]
  simp only
  rw [foldl_map, hfilled, hstart, foldl_append, foldl_declareItem_records,
    Declared.foldl_functions _ _ fun f hf owner name hkind => ?_, hend, nil_append]
  rw [Declared.contains_spelled]
  exact howner f hf owner name hkind

end Sluice.Infer
