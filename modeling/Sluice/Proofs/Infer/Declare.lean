import Sluice.Infer.Program
import Sluice.Proofs.Infer.Pattern

/-!
# Declarations without errors

What each declaration does where nothing is reported. Errors are only added, so
nothing had been reported before either. An annotation or a signature then
changes the table only, and names types that are sound and declared; a record, a
field, a function or a method adds its entry behind the ones that are there, and
no name is given out twice.
-/

namespace Sluice

open List

/-- A name that is not there yet can be added. -/
theorem nodup_map_concat {name : α → String} (h : (l.map name).Nodup)
    (hnew : ∀ b ∈ l, name b ≠ name a) : ((l ++ [a]).map name).Nodup := by
  rw [map_append, map_singleton, ← concat_eq_append]
  refine h.concat fun hmem => ?_
  obtain ⟨b, hb, heq⟩ := mem_map.1 hmem
  exact hnew b hb heq

/-! ## Records by name -/

namespace RecordTable

theorem name_of_get? {t : RecordTable} (h : t.get? name = some r) : r.name = name := by
  simpa using find?_some h

variable {t : RecordTable} {name : String}

/-- No two records have one name. -/
def Distinct (t : RecordTable) : Prop := (t.records.map (·.name)).Nodup

theorem contains_eq_true : t.contains name = true ↔ ∃ r ∈ t.records, r.name = name := by
  simp [contains]

theorem mem_of_get? (h : t.get? name = some r) : r ∈ t.records :=
  mem_of_find?_eq_some h

theorem get?_of_mem (ht : t.Distinct) {r : RecordDecl} (hr : r ∈ t.records) :
    t.get? r.name = some r := by
  obtain ⟨r', hr'⟩ : ∃ r', t.get? r.name = some r' := by
    rw [← Option.isSome_iff_exists, get?, find?_isSome]
    exact ⟨r, hr, beq_self_eq_true _⟩
  have hname := name_of_get? hr'
  rw [hr', inj_on_of_nodup_map ht (mem_of_get? hr') hr hname]

/-- Only the record of that name changes. -/
theorem modify_of_distinct {f before after r} (ht : Distinct ⟨before ++ r :: after⟩)
    (hname : r.name = name) : modify ⟨before ++ r :: after⟩ name f = ⟨before ++ f r :: after⟩ := by
  subst hname
  rw [Distinct, map_append, map_cons, nodup_append, nodup_cons] at ht
  obtain ⟨-, ⟨hafter, -⟩, hbefore⟩ := ht
  have hother : ∀ rs : List RecordDecl, r.name ∉ rs.map (·.name) →
      rs.map (fun x => if x.name == r.name then f x else x) = rs := by
    intro rs hrs
    refine map_congr_left (g := id) (fun x hx => if_neg ?_) |>.trans (map_id _)
    intro heq
    exact hrs (mem_map.2 ⟨x, hx, beq_iff_eq.1 heq⟩)
  have hnot : r.name ∉ before.map (·.name) := fun hmem =>
    hbefore _ hmem _ mem_cons_self rfl
  simp only [modify, map_append, map_cons, hother _ hnot, hother _ hafter,
    beq_self_eq_true, if_true]

theorem contains_modify (t : RecordTable) (hf : ∀ r, (f r).name = r.name) (other : String) :
    (t.modify name f).contains other = t.contains other := by
  rw [modify, contains, any_map]
  congr 1
  funext r
  simp only [Function.comp]
  split
  · rw [hf]
  · rfl

theorem contains_addMethod (t : RecordTable) (owner : String) (m : MethodDecl) (other : String) :
    (t.addMethod owner m).contains other = t.contains other :=
  contains_modify t (f := fun r => { r with methods := r.methods ++ [m] }) (fun _ => rfl) other

end RecordTable

namespace Source

/-! ## Records of the source -/

/-- A record as it is written. -/
structure RecordItem where
  span : Span
  name : Ident
  fields : List (Named TypeExpr)

/-- The record that an item is. -/
def Item.record? : Item → Option RecordItem
  | .record span name fields => some ⟨span, name, fields⟩
  | .function _ _ | .methods _ _ _ => none

/-- The records of a program, in order. -/
def Program.recordItems (program : Program) : List RecordItem :=
  program.filterMap Item.record?

/-- A record before its fields are declared. -/
def RecordItem.empty (item : RecordItem) : RecordDecl :=
  ⟨item.span, item.name.name, [], []⟩

/-- A declared field is the one that is written. -/
structure FieldFollows (records : RecordTable) (field : Named TypeExpr) (d : FieldDecl) : Prop where
  span_eq : d.span = field.span
  name_eq : d.name = field.name.name
  allowed : ∀ θ, field.value.Allows records (d.ty.subst θ)
  named : d.ty.Named records

/-- A declared record is the one that is written, its methods apart. -/
structure RecordFollows (records : RecordTable) (item : RecordItem) (r : RecordDecl) : Prop where
  span_eq : r.span = item.span
  name_eq : r.name = item.name.name
  fields : List.Forall₂ (FieldFollows records) item.fields r.fields

variable {records records' : RecordTable}

theorem FieldFollows.congr (h : ∀ name, records.contains name = records'.contains name)
    (hd : FieldFollows records field d) : FieldFollows records' field d :=
  ⟨hd.span_eq, hd.name_eq, fun θ => (TypeExpr.allows_congr h).1 (hd.allowed θ), hd.named.congr h⟩

theorem RecordFollows.congr (h : ∀ name, records.contains name = records'.contains name)
    (hr : RecordFollows records item r) : RecordFollows records' item r :=
  ⟨hr.span_eq, hr.name_eq, hr.fields.imp fun _ _ hd => hd.congr h⟩

end Source

namespace Infer

open Source (Definition FieldFollows Item Named RecordFollows RecordItem TypeExpr)
open Unify (Table)

variable {d : Declared} {definition : Definition}

/-- Records that can be told apart, from each other and from built-in types. -/
structure Apart (t : RecordTable) : Prop where
  distinct : t.Distinct
  not_builtin : ∀ r ∈ t.records, Declared.isBuiltin r.name = false

theorem Apart.noBuiltin (h : Apart t) : NoBuiltin t := by
  intro name hname
  obtain ⟨r, hr, rfl⟩ := RecordTable.contains_eq_true.1 hname
  exact h.not_builtin r hr

namespace Declared

/-! ## Definitions

Functions and methods are declared in the same way but for where they are entered. -/

/-- Whether the name of a definition is taken. -/
def isTaken (d : Declared) (kind : Typed.Kind) (name : String) : Bool :=
  match kind with
  | .free => (d.globals.function? name).isSome
  | .method record _ => ((d.globals.records.get? record).bind (·.method? name)).isSome

/-- Enters a definition where callers look for it. -/
def entered (g : Globals) (kind : Typed.Kind) (definition : Definition) (signature : Signature) :
    Globals :=
  match kind with
  | .free => { g with functions := g.functions ++ [(definition.name.name, signature)] }
  | .method record name => { g with
      records := g.records.addMethod record
        ⟨definition.span, name, methodSymbol record name, signature.ty⟩ }

/-- Declares a definition as a function or as a method. -/
def declareAs (d : Declared) (kind : Typed.Kind) (definition : Definition) : Declared :=
  let name := definition.name
  if d.isTaken kind name.name then
    d.report name.span (.duplicateDefinition name.name)
  else
    let (signature, sound, d) := d.signature definition ((Source.receiver kind).map (·.2))
    { d with globals := entered d.globals kind definition signature }.queue sound
      ⟨definition, kind, definition.symbol kind, signature⟩

theorem declareFunction_eq_declareAs (d : Declared) (definition : Definition) :
    d.declareFunction definition = d.declareAs .free definition :=
  rfl

theorem declareMethod_eq_declareAs (d : Declared) (record : String) (definition : Definition) :
    d.declareMethod record definition =
      d.declareAs (.method record definition.name.name) definition :=
  rfl

/-! ## Errors are only added -/

/-- Errors are only added, and the queue stays. -/
structure Stays (d d' : Declared) : Prop where
  errors_grow : d.errors <+: d'.errors
  pending_eq : d'.pending = d.pending

theorem Stays.refl (d : Declared) : Stays d d :=
  ⟨prefix_refl _, rfl⟩

theorem Stays.trans (h : Stays d d1) (h' : Stays d1 d2) : Stays d d2 :=
  ⟨h.errors_grow.trans h'.errors_grow, h'.pending_eq.trans h.pending_eq⟩

theorem stays_report (d : Declared) (span : Span) (fault : Fault) : Stays d (d.report span fault) :=
  ⟨prefix_append _ _, rfl⟩

theorem report_errors_ne_nil (d : Declared) (span : Span) (fault : Fault) :
    (d.report span fault).errors ≠ [] := by
  simp [report]

theorem annotationType_stays (d : Declared) (a : TypeExpr) :
    Stays d (d.annotationType a).2 ∧ (d.annotationType a).2.globals = d.globals := by
  rw [annotationType]
  split
  · exact ⟨⟨prefix_refl _, rfl⟩, rfl⟩
  · exact ⟨⟨prefix_append _ _, rfl⟩, rfl⟩

theorem annotationTypes_stays : ∀ as d,
    Stays d (d.annotationTypes as).2 ∧ (d.annotationTypes as).2.globals = d.globals
  | [], d => ⟨.refl d, rfl⟩
  | a :: rest, d => by
    obtain ⟨h, hglobals⟩ := d.annotationType_stays a
    obtain ⟨h', hglobals'⟩ := annotationTypes_stays rest (d.annotationType a).2
    exact ⟨h.trans h', hglobals'.trans hglobals⟩

theorem signature_stays (d : Declared) (definition : Definition) (receiver : List Ty) :
    Stays d (d.signature definition receiver).2.2 ∧
      (d.signature definition receiver).2.2.globals = d.globals := by
  obtain ⟨h, hglobals⟩ := annotationTypes_stays (definition.params.map (·.value)) d
  rw [signature]
  cases definition.ret with
  | none => exact ⟨⟨h.errors_grow, h.pending_eq⟩, hglobals⟩
  | some a =>
    obtain ⟨h', hglobals'⟩ := annotationType_stays _ a
    exact ⟨h.trans h', hglobals'.trans hglobals⟩

theorem errors_queue (d : Declared) (sound : Bool) (p : Pending) :
    (d.queue sound p).errors = d.errors := by
  rw [queue]
  split <;> rfl

theorem errors_declareAs (d : Declared) (kind : Typed.Kind) (definition : Definition) :
    d.errors <+: (d.declareAs kind definition).errors := by
  rw [declareAs]
  split
  · exact (stays_report d _ _).errors_grow
  · rw [errors_queue]
    exact (d.signature_stays definition ((Source.receiver kind).map (·.2))).1.errors_grow

/-- A fold whose steps only add errors only adds errors. -/
theorem errors_foldl {step} (hstep : ∀ d x, d.errors <+: (step d x).errors) :
    ∀ (xs : List α) (d : Declared), d.errors <+: (xs.foldl step d).errors
  | [], _ => prefix_refl _
  | x :: rest, d => (hstep d x).trans (errors_foldl hstep rest (step d x))

theorem errors_declareItem (d : Declared) (item : Item) :
    d.errors <+: (d.declareItem item).errors := by
  cases item with
  | record => exact prefix_refl _
  | function _ definition => exact errors_declareAs d .free definition
  | methods _ record defs =>
    rw [declareItem]
    split
    · exact errors_foldl (fun d m => errors_declareAs d (.method record.name _) m) defs d
    · exact (stays_report d _ _).errors_grow

theorem declareFields_stays (record : Source.Ident) : ∀ (fields : List (Named TypeExpr))
    (sofar : List FieldDecl) (d : Declared), Stays d (d.declareFields record sofar fields)
  | [], _, _ => ⟨prefix_refl _, rfl⟩
  | ⟨_, _, a⟩ :: rest, sofar, d => by
    rw [declareFields]
    split
    · exact (stays_report d _ _).trans (declareFields_stays record rest sofar _)
    · exact (d.annotationType_stays a).1.trans (declareFields_stays record rest _ _)

theorem foldl_declareFields_stays : ∀ (records : List (Source.Ident × List (Named TypeExpr)))
    (d : Declared), Stays d (records.foldl (fun d (name, fields) => d.declareFields name [] fields) d)
  | [], d => .refl d
  | (name, fields) :: rest, d =>
    (declareFields_stays name fields [] d).trans (foldl_declareFields_stays rest _)

theorem declareRecord_stays (d : Declared) (span : Span) (name : Source.Ident) :
    Stays d (d.declareRecord span name).2 := by
  rw [declareRecord]
  split
  · split
    · exact stays_report d _ _
    · exact ⟨prefix_refl _, rfl⟩
  · exact stays_report d _ _

theorem declareRecords_stays : ∀ items d,
    Stays d (d.declareRecords items).2
  | [], d => .refl d
  | .record span name _ :: rest, d =>
    (declareRecord_stays d span name).trans (declareRecords_stays rest _)
  | .function _ _ :: rest, d | .methods _ _ _ :: rest, d => declareRecords_stays rest d

/-- If nothing has been reported after a step, nothing had been before. -/
theorem no_errors_before {errors errors' : List TypeError} (h : errors <+: errors')
    (h' : errors' = []) : errors = [] :=
  prefix_nil.1 (h' ▸ h)

/-! ## Annotations and signatures -/

theorem annotationType_eq (ht : d.table.Sound) (h : (d.annotationType a).2.errors = []) : ∃ ty t,
      d.annotationType a = (ty, { d with table := t }) ∧
        Annotates d.globals.records a d.table ty t := by
  unfold annotationType at h ⊢
  split at h
  · rename_i ty t hty
    exact ⟨ty, t, rfl, annotated_annotates a ht hty⟩
  · simp at h

theorem annotationTypes_eq : ∀ (as : List TypeExpr) {d : Declared}, d.table.Sound →
    (d.annotationTypes as).2.errors = [] → ∃ tys t,
      d.annotationTypes as = (tys, { d with table := t }) ∧
        AnnotatesList d.globals.records as d.table tys t
  | [], d, ht, _ => ⟨[], d.table, rfl, .nil ht⟩
  | a :: rest, d, ht, h => by
    have h1 := no_errors_before (annotationTypes_stays rest (d.annotationType a).2).1.errors_grow h
    obtain ⟨ty, t1, heq1, hty⟩ := annotationType_eq ht h1
    rw [annotationTypes] at h ⊢
    simp only [heq1] at h ⊢
    obtain ⟨tys, t2, heq2, htys⟩ := annotationTypes_eq rest hty.refines.sound h
    exact ⟨ty :: tys, t2, by rw [heq2], .cons hty htys⟩

/-- What a signature without error leaves behind. The types of the parameters that are written
stand behind the receiver. -/
structure Signs (records : RecordTable) (kind : Typed.Kind) (definition : Definition) (t : Table)
    (signature : Signature) (t' : Table) : Prop where
  refines : t.Refines t'
  opens : Opens t t'
  params_eq : ∃ tys, signature.params = (Source.receiver kind).map (·.2) ++ tys ∧
    (∀ ty ∈ tys, ty.Sound t'.size ∧ ty.Named records) ∧
    ∀ θ, TypeExpr.AllowsList records (definition.params.map (·.value)) (Ty.substList θ tys)
  ret_sound : signature.ret.Sound t'.size
  ret_named : signature.ret.Named records
  ret_allowed : ∀ a, definition.ret = some a → ∀ θ, a.Allows records (signature.ret.subst θ)

theorem signature_eq (kind : Typed.Kind) (ht : d.table.Sound)
    (h : (d.signature definition ((Source.receiver kind).map (·.2))).2.2.errors = []) :
    ∃ signature t, d.signature definition ((Source.receiver kind).map (·.2)) =
        (signature, true, { d with table := t }) ∧
      Signs d.globals.records kind definition d.table signature t := by
  have hnone := no_errors_before (signature_stays d definition _).1.errors_grow h
  unfold signature at h ⊢
  cases hret : definition.ret with
  | none =>
    simp only [hret] at h ⊢
    obtain ⟨tys, t, heq, htys⟩ := annotationTypes_eq _ ht h
    have hsound := htys.refines.sound
    have hnew := Unify.Table.refines_newVariable hsound
    simp only [heq, hnone]
    exact ⟨_, _, rfl, htys.refines.trans hnew, htys.opens.trans (.newVariable hsound), ⟨tys, rfl,
      fun ty hty => ⟨(htys.sound ty hty).mono hnew.size_le, htys.named ty hty⟩, htys.allowed⟩,
      .of_var (newVariable_lt _), trivial, fun a ha => by cases hret.symm.trans ha⟩
  | some a =>
    simp only [hret] at h ⊢
    have h1 := no_errors_before (annotationType_stays _ a).1.errors_grow h
    obtain ⟨tys, t, heq, htys⟩ := annotationTypes_eq _ ht h1
    simp only [heq] at h ⊢
    obtain ⟨ty, t', heq', hty⟩ :=
      annotationType_eq (d := { d with table := t }) htys.refines.sound h
    rw [heq']
    simp only [hnone]
    refine ⟨_, _, rfl, htys.refines.trans hty.refines, htys.opens.trans hty.opens, ⟨tys, rfl,
      fun ty' hty' => ⟨(htys.sound ty' hty').mono hty.refines.size_le, htys.named ty' hty'⟩,
        htys.allowed⟩, hty.sound, hty.named, fun a' ha' => ?_⟩
    cases hret.symm.trans ha'
    exact hty.allowed

/-! ## Records -/

theorem declareRecord_eq (hd : Apart d.globals.records) {span name}
    (h : (d.declareRecord span name).2.errors = []) :
    d.declareRecord span name =
        (true, d.withRecords ⟨d.globals.records.records ++ [⟨span, name.name, [], []⟩]⟩) ∧
      Apart ⟨d.globals.records.records ++ [⟨span, name.name, [], []⟩]⟩ := by
  unfold declareRecord RecordTable.insert? at h ⊢
  by_cases hold : d.globals.records.contains name.name = true
  · rw [if_pos hold] at h
    exact absurd h (report_errors_ne_nil _ _ _)
  rw [if_neg hold] at h ⊢
  by_cases hbuiltin : isBuiltin name.name = true
  · simp only [if_pos hbuiltin] at h
    exact absurd h (report_errors_ne_nil _ _ _)
  refine ⟨if_neg hbuiltin, ?_, fun r hr => ?_⟩
  · exact nodup_map_concat hd.distinct fun r hr hname =>
      hold (RecordTable.contains_eq_true.2 ⟨r, hr, hname⟩)
  · rcases mem_append.1 hr with hr | hr
    · exact hd.not_builtin r hr
    · rw [mem_singleton.1 hr]
      exact Bool.eq_false_iff.2 hbuiltin

/-- **All records of a program are declared**, without their fields. -/
theorem declareRecords_eq : ∀ (items : List Item) {d : Declared}, Apart d.globals.records →
    (d.declareRecords items).2.errors = [] →
      d.declareRecords items = ((items.filterMap Item.record?).map fun i => (i.name, i.fields),
        d.withRecords ⟨d.globals.records.records ++
          (items.filterMap Item.record?).map RecordItem.empty⟩) ∧
      Apart ⟨d.globals.records.records ++ (items.filterMap Item.record?).map RecordItem.empty⟩
  | [], d, hd, _ => by
    rw [filterMap_nil, map_nil, map_nil, append_nil]
    exact ⟨rfl, hd⟩
  | .record span name fields :: rest, d, hd, h => by
    have h1 := no_errors_before (declareRecords_stays rest (d.declareRecord span name).2).errors_grow h
    obtain ⟨heq, hapart⟩ := declareRecord_eq hd h1
    rw [declareRecords] at h ⊢
    simp only [heq] at h ⊢
    obtain ⟨heq', hapart'⟩ := declareRecords_eq rest hapart h
    have hcons : List.filterMap Item.record? (.record span name fields :: rest) =
        ⟨span, name, fields⟩ :: List.filterMap Item.record? rest := rfl
    simp only [heq', if_true, hcons]
    simp only [map_cons, withRecords, List.append_assoc, singleton_append] at hapart' ⊢
    exact ⟨rfl, hapart'⟩
  | .function _ _ :: rest, _, hd, h | .methods _ _ _ :: rest, _, hd, h =>
    declareRecords_eq rest hd h

/-- **The fields of a record**, in the order they are written. -/
theorem declareFields_eq (owner : Source.Ident) : ∀ (fields : List (Named TypeExpr))
    {sofar : List FieldDecl} {d : Declared}, d.table.Sound → (sofar.map (·.name)).Nodup →
    (d.declareFields owner sofar fields).errors = [] → ∃ t declared,
      d.declareFields owner sofar fields = { d with table := t }.withRecords
        (d.globals.records.modify owner.name fun r => { r with fields := sofar ++ declared }) ∧
      d.table.Refines t ∧ Opens d.table t ∧
      Forall₂ (FieldFollows d.globals.records) fields declared ∧
      (∀ x ∈ declared, x.ty.Sound t.size) ∧ ((sofar ++ declared).map (·.name)).Nodup
  | [], sofar, d, hd, hsofar, _ =>
    ⟨d.table, [], by rw [append_nil]; rfl, .refl hd, .refl _, .nil, nofun, by rwa [append_nil]⟩
  | ⟨span, name, a⟩ :: rest, sofar, d, hd, hsofar, h => by
    rw [declareFields] at h ⊢
    split at h
    · exact absurd (no_errors_before (declareFields_stays owner rest sofar _).errors_grow h)
        (report_errors_ne_nil _ _ _)
    · rename_i hnew
      rw [if_neg hnew]
      have h1 := no_errors_before (declareFields_stays owner rest _ _).errors_grow h
      obtain ⟨ty, t, heq, hty⟩ := annotationType_eq hd h1
      rw [heq] at h ⊢
      have hnodup : ((sofar ++ [(⟨span, name.name, ty⟩ : FieldDecl)]).map (·.name)).Nodup :=
        nodup_map_concat hsofar fun f hf hname =>
          hnew (any_eq_true.2 ⟨f, hf, beq_iff_eq.2 hname⟩)
      obtain ⟨t', declared, heq', href, hopens, hfollows, hsound, hnodup'⟩ :=
        declareFields_eq owner rest (d := { d with table := t }) hty.refines.sound hnodup h
      rw [List.append_assoc] at heq' hnodup'
      exact ⟨t', ⟨span, name.name, ty⟩ :: declared, heq', hty.refines.trans href,
        hty.opens.trans hopens, .cons ⟨rfl, rfl, hty.allowed, hty.named⟩ hfollows,
        forall_mem_cons.2 ⟨hty.sound.mono href.size_le, hsound⟩, hnodup'⟩

theorem contains_congr (h : rs.map (·.name) = rs'.map (·.name))
    (name : String) : RecordTable.contains ⟨rs⟩ name = RecordTable.contains ⟨rs'⟩ name := by
  have hany : ∀ rs : List RecordDecl, RecordTable.contains ⟨rs⟩ name =
      (rs.map (·.name)).any (· == name) := by
    intro rs
    rw [any_map]
    rfl
  rw [hany, hany, h]

/-- **The fields of all records.** -/
theorem foldl_declareFields_eq : ∀ items (done : List RecordDecl)
    {d : Declared}, d.table.Sound → d.globals.records.Distinct →
    d.globals.records.records = done ++ items.map RecordItem.empty →
    ((items.map fun i => (i.name, i.fields)).foldl
      (fun d (name, fields) => d.declareFields name [] fields) d).errors = [] →
    ∃ t filled, (items.map fun i => (i.name, i.fields)).foldl
        (fun d (name, fields) => d.declareFields name [] fields) d =
          { d with table := t }.withRecords ⟨done ++ filled⟩ ∧
      d.table.Refines t ∧ Opens d.table t ∧
      Forall₂ (RecordFollows d.globals.records) items filled ∧
      ∀ r ∈ filled, r.methods = [] ∧ (∀ x ∈ r.fields, x.ty.Sound t.size) ∧
        (r.fields.map (·.name)).Nodup
  | [], done, d, hd, _, hrecords, _ => by
    refine ⟨d.table, [], ?_, .refl hd, .refl _, .nil, nofun⟩
    rw [map_nil] at hrecords
    rw [← hrecords]
    rfl
  | item :: rest, done, d, hd, hdistinct, hrecords, h => by
    rw [map_cons, foldl_cons] at h ⊢
    have h1 := no_errors_before (foldl_declareFields_stays _ _).errors_grow h
    have hnil : (([] : List FieldDecl).map (·.name)).Nodup := nodup_nil
    obtain ⟨t, declared, heq, href, hopens, hfields, hsound, hnodup⟩ :=
      declareFields_eq item.name item.fields hd hnil h1
    -- the step fills the first record that is still empty
    have htable : d.globals.records = ⟨done ++ item.empty :: rest.map RecordItem.empty⟩ := by
      rw [← map_cons, ← hrecords]
    let filled : RecordDecl := { item.empty with fields := declared }
    have hmodify : d.globals.records.modify item.name.name
        (fun r => { r with fields := [] ++ declared }) =
          ⟨(done ++ [filled]) ++ rest.map RecordItem.empty⟩ := by
      rw [htable] at hdistinct ⊢
      refine (RecordTable.modify_of_distinct hdistinct rfl).trans ?_
      rw [List.append_assoc]
      rfl
    rw [hmodify] at heq
    have hnames : d.globals.records.records.map (·.name) =
        ((done ++ [filled]) ++ rest.map RecordItem.empty).map (·.name) := by
      rw [htable]
      simp [filled]
    have hcontains := contains_congr hnames
    simp only [heq] at h ⊢
    obtain ⟨t', others, heq', href', hopens', hfollows, hothers⟩ := foldl_declareFields_eq rest
      (done ++ [filled])
      (d := { d with table := t }.withRecords ⟨(done ++ [filled]) ++ rest.map RecordItem.empty⟩)
      href.sound (by rw [RecordTable.Distinct, hnames] at hdistinct; exact hdistinct) rfl h
    refine ⟨t', filled :: others, ?_, href.trans href', hopens.trans hopens',
      .cons ⟨rfl, rfl, hfields⟩ (hfollows.imp fun _ _ hf => hf.congr fun name => ?_),
      forall_mem_cons.2 ⟨⟨rfl, fun x hx => (hsound x hx).mono href'.size_le, hnodup⟩, hothers⟩⟩
    · rw [heq']
      simp only [withRecords, List.append_assoc, singleton_append]
    · exact (hcontains name).symm

/-! ## Functions and methods -/

theorem declareAs_eq (kind : Typed.Kind) (hd : d.table.Sound)
    (h : (d.declareAs kind definition).errors = []) : ∃ signature t,
      d.isTaken kind definition.name.name = false ∧
      Signs d.globals.records kind definition d.table signature t ∧
      d.declareAs kind definition = { d with
        table := t
        globals := entered d.globals kind definition signature
        pending := d.pending ++ [⟨definition, kind, definition.symbol kind, signature⟩] } := by
  unfold declareAs at h ⊢
  simp only at h ⊢
  split at h
  · exact absurd h (report_errors_ne_nil _ _ _)
  · rename_i hnew
    rw [errors_queue] at h
    obtain ⟨signature, t, heq, hs⟩ := signature_eq kind hd h
    rw [if_neg hnew, heq]
    exact ⟨signature, t, Bool.eq_false_iff.2 hnew, hs, rfl⟩

end Declared

end Infer

end Sluice
