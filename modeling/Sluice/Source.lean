import Sluice.Literal
import Sluice.Operator
import Sluice.Span

/-!
# Source programs

The program as it is read: names are plain strings, nothing is checked, and
every node carries the span it came from.
-/

namespace Sluice.Source

/-- A name with the place it was written at. -/
structure Ident where
  name : String
  span : Span
  deriving DecidableEq, Repr

/-- Something written behind a name: a field's type, a parameter's type, a field's value or a
field's pattern. -/
structure Named (α : Type) where
  span : Span
  name : Ident
  value : α
  deriving DecidableEq, Repr

/-- A type as it is written. A bare list leaves its element type to inference. -/
inductive TypeExpr where
  | named (span : Span) (name : Ident)
  | list (span : Span) (elem : TypeExpr)
  | bareList (span : Span)
  | fn (span : Span) (params : List TypeExpr) (ret : TypeExpr)

/-- A pattern. Fields a record pattern leaves out match anything. -/
inductive Pattern where
  | wildcard (span : Span)
  | binding (span : Span) (name : Ident)
  | literal (span : Span) (value : Literal)
  | record (span : Span) (name : Ident) (fields : List (Named Pattern))

/-- One arm of a match. -/
structure Arm (ε : Type) where
  span : Span
  pattern : Pattern
  guard : Option ε
  body : ε

/-- An expression. The value of a block is that of its last expression. -/
inductive Expr where
  | literal (span : Span) (value : Literal)
  | ident (span : Span) (name : Ident)
  | letIn (span : Span) (name : Ident) (declared : Option TypeExpr) (value body : Expr)
  | block (span : Span) (items : List Expr)
  | ifThen (span : Span) (condition positive : Expr)
  | ifElse (span : Span) (condition positive negative : Expr)
  | record (span : Span) (name : Ident) (fields : List (Named Expr))
  | field (span : Span) (target : Expr) (name : Ident)
  | call (span : Span) (target : Expr) (args : List Expr)
  | methodCall (span : Span) (receiver : Expr) (method : Ident) (args : List Expr)
  | cases (span : Span) (scrutinee : Expr) (arms : List (Arm Expr))
  | list (span : Span) (elems : List Expr)
  | binary (span : Span) (op : BinaryOp) (lhs rhs : Expr)
  | unary (span : Span) (op : UnaryOp) (operand : Expr)

/-- The span of a pattern. -/
def Pattern.span : Pattern → Span
  | wildcard span | binding span _ | literal span _ | record span _ _ => span

/-- The span of an expression. -/
def Expr.span : Expr → Span
  | literal span _ | ident span _ | letIn span _ _ _ _ | block span _ | ifThen span _ _
  | ifElse span _ _ _ | record span _ _ | field span _ _ | call span _ _
  | methodCall span _ _ _ | cases span _ _ | list span _ | binary span _ _ _
  | unary span _ _ => span

/-- A function or method definition. -/
structure Definition where
  span : Span
  name : Ident
  params : List (Named TypeExpr)
  ret : Option TypeExpr
  body : Expr

/-- A top-level item: a record type, a free function, or methods for a record. -/
inductive Item where
  | record (span : Span) (name : Ident) (fields : List (Named TypeExpr))
  | function (span : Span) (definition : Definition)
  | methods (span : Span) (record : Ident) (methods : List Definition)

/-- A program, its items in the order of declaration. -/
abbrev Program := List Item

end Sluice.Source
