import Sluice.Infer.Declare
import Sluice.Infer.Expr
import Sluice.Typed.Sites

/-!
# Checking programs

After the declarations, bodies are checked one by one. A body stops at its
first error; what it did to the unification table is rolled back and the
result type it was to have becomes the error type, so that it cannot disturb
the bodies after it. In the end the types of the bodies that passed are read
through the table, and a type that is still not known is an error.
-/

namespace Sluice.Infer

/-- The names and types of the parameters of a body. A method's receiver is called `self`. -/
def Pending.params (p : Pending) : List (Source.Ident × Ty) :=
  let names := p.definition.params.map (·.name)
  match p.kind with
  | .free => names.zip p.signature.params
  | .method _ _ => (⟨"self", p.definition.span⟩ :: names).zip p.signature.params

/-- Declares parameters and brings their names into scope. -/
def declareParams (scope : Scope) :
    List (Source.Ident × Ty) → Check (List Typed.LocalId × Scope)
  | [] => return ([], scope)
  | (name, ty) :: rest => do
    let id ← declareLocal name ty
    let (ids, scope) ← declareParams ((name.name, id) :: scope) rest
    return (id :: ids, scope)

/-- Checks a body and puts the typed function together. -/
def checkBody (g : Globals) (p : Pending) : Check Typed.Function := do
  let (params, scope) ← declareParams [] p.params
  let body ← checkExpr g scope p.definition.body
  require p.signature.ret body.ty p.definition.body.span .functionReturn
  let s ← get
  return {
    span := p.definition.span
    name := p.symbol
    kind := p.kind
    params
    locals := s.locals
    ret := p.signature.ret
    matchCount := s.matchCount
    body }

/-- What checking some of the bodies leaves behind. -/
structure Progress where
  table : Unify.Table
  functions : List Typed.Function := []
  errors : List TypeError := []

/-- Checks the next body. -/
def Progress.step (g : Globals) (progress : Progress) (p : Pending) : Progress :=
  let (mark, table) := progress.table.snapshot
  match checkBody g p { table } with
  | .ok f s => { progress with table := s.table.commit, functions := progress.functions ++ [f] }
  | .error e s =>
    { progress with
      table := (s.table.rollback mark).poison p.signature.ret
      errors := progress.errors ++ [e] }

/-- What became of a function when its types were read through the table. -/
inductive Outcome where
  | known (f : Typed.Function)
  | unknown (e : TypeError)
  | silent

/-- Reads the types of a function through the table. A type with a free variable and without the
error type is an error at its place, the first one counts; otherwise a function that holds the
error type is dropped, since that has been reported. -/
def finish (table : Unify.Table) (f : Typed.Function) : Outcome :=
  let f := f.mapTy table.resolve
  match f.sites.find? fun site => site.ty.isUnresolved && !site.ty.hasError with
  | some site => .unknown ⟨site.span, .expression, .cannotInfer site.ty⟩
  | none => if f.sites.any (·.ty.hasError) then .silent else .known f

/-- The result of checking a program: what is sound, and what is wrong with the rest. -/
structure Checked where
  program : Typed.Program
  errors : List TypeError

/-- **Checks a program.** -/
def check (source : Source.Program) : Checked :=
  let d := declare source
  let progress := d.pending.foldl (Progress.step d.globals) { table := d.table }
  let outcomes := progress.functions.map (finish progress.table)
  { program := {
      records := d.globals.records.mapTy progress.table.resolve
      functions := outcomes.filterMap fun
        | .known f => some f
        | _ => none }
    errors := d.errors ++ progress.errors ++ outcomes.filterMap fun
      | .unknown e => some e
      | _ => none }

/-- The typed form of a program without type errors, or the errors. -/
def infer (source : Source.Program) : Except (List TypeError) Typed.Program :=
  let checked := check source
  if checked.errors.isEmpty then .ok checked.program else .error checked.errors

end Sluice.Infer
