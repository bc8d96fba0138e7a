import Sluice.Infer.Error
import Sluice.Source
import Sluice.Typed.Tree

/-!
# The state of inference

While a body is checked the state holds the unification table, the locals
declared so far and the number of matches seen. The names in scope are not
state: they are passed down.
-/

namespace Sluice.Infer

open Source (TypeExpr Ident)

/-- The declared type of a function or method; a method has its receiver first. -/
structure Signature where
  params : List Ty
  ret : Ty
  deriving DecidableEq, Repr

/-- A signature as a function type. -/
def Signature.ty (s : Signature) : Ty :=
  .fn s.params s.ret

/-- What bodies can refer to. -/
structure Globals where
  records : RecordTable := {}
  functions : List (String × Signature) := []
  deriving DecidableEq, Repr

/-- The signature of a free function. -/
def Globals.function? (g : Globals) (name : String) : Option Signature :=
  g.functions.lookup name

/-- The state of a body being checked. -/
structure State where
  table : Unify.Table
  locals : List Typed.Local := []
  matchCount : Nat := 0

/-- A computation that can end in a type error. What it did before the error stays. -/
abbrev Check := EStateM TypeError State

/-- Names in scope, innermost first. -/
abbrev Scope := List (String × Typed.LocalId)

/-- Fails in an expression. -/
def fail {α : Type} (span : Span) (fault : Fault) : Check α :=
  throw ⟨span, .expression, fault⟩

/-- A new type variable. -/
def fresh : Check Ty := fun s =>
  let (v, table) := s.table.newVariable
  .ok (.var v) { s with table }

/-- A type with its outermost constructor known. -/
def shallow (ty : Ty) : Check Ty := do
  return (← get).table.shallow ty

/-- A type with all bindings applied. -/
def resolve (ty : Ty) : Check Ty := do
  return (← get).table.resolve ty

/-- Requires a type where another was found. -/
def require (expected found : Ty) (span : Span) (boundary : Boundary) : Check Unit := fun s =>
  match Unify.unify expected found s.table with
  | .ok _ table => .ok () { s with table }
  | .error clash table => .error ⟨span, boundary, .clash clash⟩ { s with table }

/-- Declares a local. -/
def declareLocal (name : Ident) (ty : Ty) : Check Typed.LocalId := fun s =>
  .ok s.locals.length { s with locals := s.locals ++ [⟨name.span, name.name, ty⟩] }

/-- The type of a local. -/
def localType (id : Typed.LocalId) : Check Ty := do
  return (← get).locals[id]?.elim .error (·.ty)

/-- The number of the next match. -/
def nextMatch : Check Typed.MatchId := fun s =>
  .ok s.matchCount { s with matchCount := s.matchCount + 1 }

/-! ## Annotations -/

mutual

/-- The type an annotation names. A list without element type gets a fresh one. -/
def annotated (records : RecordTable) : TypeExpr → EStateM TypeError Unify.Table Ty
  | .named _ name => fun t =>
    if name.name = "list" then
      let (v, t) := t.newVariable
      .ok (.list (.var v)) t
    else
      match Prim.ofText? name.name with
      | some p => .ok (.prim p) t
      | none =>
        if records.contains name.name then
          .ok (.record name.name) t
        else
          .error ⟨name.span, .declaration, .unknownType name.name⟩ t
  | .list _ elem => do
    return .list (← annotated records elem)
  | .bareList _ => fun t =>
    let (v, t) := t.newVariable
    .ok (.list (.var v)) t
  | .fn _ params ret => do
    let params ← annotatedList records params
    let ret ← annotated records ret
    return .fn params ret

/-- The types several annotations name. -/
def annotatedList (records : RecordTable) :
    List TypeExpr → EStateM TypeError Unify.Table (List Ty)
  | [] => return []
  | a :: rest => do
    let ty ← annotated records a
    return ty :: (← annotatedList records rest)

end

/-- The type an annotation in a body names. -/
def annotatedType (records : RecordTable) (a : TypeExpr) : Check Ty := fun s =>
  match annotated records a s.table with
  | .ok ty table => .ok ty { s with table }
  | .error e table => .error e { s with table }

end Sluice.Infer
