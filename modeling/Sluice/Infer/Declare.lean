import Sluice.Infer.Basic

/-!
# Declarations

Before any body is looked at, the items of a program are declared: records
first, so that fields and signatures can name records from further down, then
the fields of the records, then functions and methods. A declaration that is
wrong is reported and leaves the error type behind, so that what depends on it
stays silent.
-/

namespace Sluice.Infer

open Source (Definition Ident Item Named TypeExpr)

/-- A body that is still to be checked. -/
structure Pending where
  definition : Definition
  kind : Typed.Kind
  symbol : String
  signature : Signature

/-- What declaring the items of a program leaves behind. -/
structure Declared where
  table : Unify.Table := {}
  globals : Globals := {}
  errors : List TypeError := []
  pending : List Pending := []

namespace Declared

/-- Reports an error in a declaration. -/
def report (d : Declared) (span : Span) (fault : Fault) : Declared :=
  { d with errors := d.errors ++ [⟨span, .declaration, fault⟩] }

/-- Changes the record table. -/
def withRecords (d : Declared) (records : RecordTable) : Declared :=
  { d with globals := { d.globals with records } }

/-- The type an annotation names; if it names none, that is reported. -/
def annotationType (d : Declared) (a : TypeExpr) : Ty × Declared :=
  match annotated d.globals.records a d.table with
  | .ok ty table => (ty, { d with table })
  | .error e table => (.error, { d with table, errors := d.errors ++ [e] })

/-- The types of several annotations. -/
def annotationTypes (d : Declared) : List TypeExpr → List Ty × Declared
  | [] => ([], d)
  | a :: rest =>
    let (ty, d) := d.annotationType a
    let (tys, d) := d.annotationTypes rest
    (ty :: tys, d)

/-- Whether a name belongs to a built-in type. -/
def isBuiltin (name : String) : Bool :=
  name == "list" || (Prim.ofText? name).isSome

/-- Declares a record without its fields, and says whether that succeeded. -/
def declareRecord (d : Declared) (span : Span) (name : Ident) : Bool × Declared :=
  match d.globals.records.insert? ⟨span, name.name, [], []⟩ with
  | some records =>
    if isBuiltin name.name then
      (false, d.report name.span (.duplicateDefinition name.name))
    else
      (true, d.withRecords records)
  | none => (false, d.report name.span (.duplicateDefinition name.name))

/-- Declares the records of a program. The result lists those that were declared. -/
def declareRecords (d : Declared) : List Item → List (Ident × List (Named TypeExpr)) × Declared
  | [] => ([], d)
  | .record span name fields :: rest =>
    let (declared, d) := d.declareRecord span name
    let (others, d) := d.declareRecords rest
    (if declared then (name, fields) :: others else others, d)
  | _ :: rest => d.declareRecords rest

/-- Declares the fields of a record, given the ones declared so far. A field named again is
reported and left out. -/
def declareFields (d : Declared) (record : Ident) (sofar : List FieldDecl) :
    List (Named TypeExpr) → Declared
  | [] =>
    d.withRecords (d.globals.records.modify record.name fun r => { r with fields := sofar })
  | ⟨span, name, a⟩ :: rest =>
    if sofar.any (·.name == name.name) then
      (d.report name.span (.duplicateField record.name name.name)).declareFields record sofar rest
    else
      let (ty, d) := d.annotationType a
      d.declareFields record (sofar ++ [⟨span, name.name, ty⟩]) rest

/-- The signature of a definition, and whether it is free of errors. A missing result type is
left to inference. -/
def signature (d : Declared) (definition : Definition) (receiver : List Ty) :
    Signature × Bool × Declared :=
  let before := d.errors.length
  let (params, d) := d.annotationTypes (definition.params.map (·.value))
  let (ret, d) :=
    match definition.ret with
    | some a => d.annotationType a
    | none =>
      let (v, table) := d.table.newVariable
      (.var v, { d with table })
  (⟨receiver ++ params, ret⟩, d.errors.length == before, d)

/-- Queues a body, if its signature is sound. -/
def queue (d : Declared) (sound : Bool) (body : Pending) : Declared :=
  if sound then { d with pending := d.pending ++ [body] } else d

/-- Declares a free function. Callers see its signature even if it is wrong. -/
def declareFunction (d : Declared) (definition : Definition) : Declared :=
  let name := definition.name
  if (d.globals.function? name.name).isSome then
    d.report name.span (.duplicateDefinition name.name)
  else
    let (signature, sound, d) := d.signature definition []
    let globals :=
      { d.globals with functions := d.globals.functions ++ [(name.name, signature)] }
    { d with globals }.queue sound ⟨definition, .free, name.name, signature⟩

/-- Declares a method of a record. -/
def declareMethod (d : Declared) (record : String) (definition : Definition) : Declared :=
  let name := definition.name
  if ((d.globals.records.get? record).bind (·.method? name.name)).isSome then
    d.report name.span (.duplicateDefinition name.name)
  else
    let (signature, sound, d) := d.signature definition [.record record]
    let symbol := methodSymbol record name.name
    let method : MethodDecl := ⟨definition.span, name.name, symbol, signature.ty⟩
    (d.withRecords (d.globals.records.addMethod record method)).queue sound
      ⟨definition, .method record name.name, symbol, signature⟩

/-- Declares a function or a block of methods; records are declared before. -/
def declareItem (d : Declared) : Item → Declared
  | .record _ _ _ => d
  | .function _ definition => d.declareFunction definition
  | .methods _ record methods =>
    if d.globals.records.contains record.name then
      methods.foldl (fun d m => d.declareMethod record.name m) d
    else
      d.report record.span (.unknownRecord record.name)

end Declared

/-- Declares a whole program. -/
def declare (program : Source.Program) : Declared :=
  let (records, d) := Declared.declareRecords {} program
  let d := records.foldl (fun d (name, fields) => d.declareFields name [] fields) d
  program.foldl Declared.declareItem d

end Sluice.Infer
