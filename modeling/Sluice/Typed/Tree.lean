import Sluice.Record

/-!
# Typed programs

The program after checking: every expression and pattern has a type, names
are resolved to locals, functions and fields, and calls are split by what
they call.
-/

namespace Sluice.Typed

/-- A parameter, `let` or pattern binding, numbered within its function. -/
abbrev LocalId := Nat

/-- A `match`, numbered within its function. -/
abbrev MatchId := Nat

/-- What every node carries. -/
structure Info where
  span : Span
  ty : Ty
  deriving DecidableEq, Repr

/-- Something given for a field of a record, with the field's index. -/
structure Field (α : Type) where
  span : Span
  name : String
  index : Nat
  value : α
  deriving DecidableEq, Repr

/-- A pattern. Only the fields named in the source are listed. -/
inductive Pattern where
  | wildcard (info : Info)
  | binding (info : Info) (id : LocalId)
  | literal (info : Info) (value : Literal)
  | record (info : Info) (name : String) (fields : List (Field Pattern))

/-- One arm of a match. -/
structure Arm (ε : Type) where
  span : Span
  pattern : Pattern
  guard : Option ε
  body : ε

/-- An expression. Field initializers are in source order, the order they are evaluated in. The
first argument of a method call is the receiver. -/
inductive Expr where
  | literal (info : Info) (value : Literal)
  | var (info : Info) (id : LocalId)
  | function (info : Info) (name : String)
  | letIn (info : Info) (id : LocalId) (value body : Expr)
  | block (info : Info) (items : List Expr)
  | ifThen (info : Info) (condition positive : Expr)
  | ifElse (info : Info) (condition positive negative : Expr)
  | record (info : Info) (name : String) (fields : List (Field Expr))
  | field (info : Info) (target : Expr) (name : String) (index : Nat)
  | callFunction (info : Info) (symbol : String) (args : List Expr)
  | callMethod (info : Info) (record method symbol : String) (args : List Expr)
  | callValue (info : Info) (callee : Expr) (args : List Expr)
  | cases (info : Info) (id : MatchId) (scrutinee : Expr) (arms : List (Arm Expr))
  | list (info : Info) (elems : List Expr)
  | binary (info : Info) (op : BinaryOp) (lhs rhs : Expr)
  | unary (info : Info) (op : UnaryOp) (operand : Expr)

/-- Span and type of a pattern. -/
def Pattern.info : Pattern → Info
  | wildcard info | binding info _ | literal info _ | record info _ _ => info

/-- Whether a pattern is a wildcard or a binding, which match every value. -/
def Pattern.isIrrefutable : Pattern → Bool
  | wildcard _ | binding _ _ => true
  | literal _ _ | record _ _ _ => false

/-- Span and type of an expression. -/
def Expr.info : Expr → Info
  | literal info _ | var info _ | function info _ | letIn info _ _ _ | block info _
  | ifThen info _ _ | ifElse info _ _ _ | record info _ _ | field info _ _ _
  | callFunction info _ _ | callMethod info _ _ _ _ | callValue info _ _ | cases info _ _ _
  | list info _ | binary info _ _ _ | unary info _ _ => info

/-- The type of an expression. -/
abbrev Expr.ty (e : Expr) : Ty := e.info.ty

/-- The span of an expression. -/
abbrev Expr.span (e : Expr) : Span := e.info.span

/-- A local of a function. -/
structure Local where
  span : Span
  name : String
  ty : Ty
  deriving DecidableEq, Repr, Inhabited

/-- How a function was declared. -/
inductive Kind where
  | free
  | method (record method : String)
  deriving DecidableEq, Repr

/-- A checked function. Its matches are numbered below `matchCount`; a method's first parameter
is the receiver. -/
structure Function where
  span : Span
  name : String
  kind : Kind
  params : List LocalId
  locals : List Local
  ret : Ty
  matchCount : Nat
  body : Expr

/-- A checked program, free functions and methods in the order of declaration. -/
structure Program where
  records : RecordTable
  functions : List Function

/-- The types of a function's parameters. -/
def Function.paramTypes (f : Function) : List Ty :=
  f.params.filterMap fun id => f.locals[id]?.map (·.ty)

/-- The first function of that name. -/
def Program.function? (p : Program) (name : String) : Option Function :=
  p.functions.find? (·.name == name)

end Sluice.Typed
