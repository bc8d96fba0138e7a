/-!
# Operators

The operators of expressions, their spelling, and the class of types a
binary one works on.
-/

namespace Sluice

/-- The binary operators. -/
inductive BinaryOp where
  | add
  | sub
  | mul
  | div
  | mod
  | eq
  | ne
  | lt
  | le
  | gt
  | ge
  | and
  | or
  deriving DecidableEq, Repr

/-- What a binary operator does, as far as types are concerned. -/
inductive OpClass where
  | arithmetic
  | comparison
  | logical
  | equality
  deriving DecidableEq, Repr

namespace BinaryOp

/-- The class of an operator. -/
def opClass : BinaryOp → OpClass
  | add | sub | mul | div | mod => .arithmetic
  | lt | le | gt | ge => .comparison
  | and | or => .logical
  | eq | ne => .equality

/-- The spelling of an operator. -/
def text : BinaryOp → String
  | add => "+"
  | sub => "-"
  | mul => "*"
  | div => "/"
  | mod => "%"
  | eq => "=="
  | ne => "!="
  | lt => "<"
  | le => "<="
  | gt => ">"
  | ge => ">="
  | and => "and"
  | or => "or"

/-- All binary operators. -/
def all : List BinaryOp :=
  [add, sub, mul, div, mod, eq, ne, lt, le, gt, ge, and, or]

/-- The operator with a spelling. -/
def ofText? (s : String) : Option BinaryOp :=
  all.find? fun op => op.text == s

end BinaryOp

/-- The unary operators. -/
inductive UnaryOp where
  | not
  | neg
  deriving DecidableEq, Repr

namespace UnaryOp

/-- The spelling of an operator. -/
def text : UnaryOp → String
  | not => "not"
  | neg => "-"

/-- The operator with a spelling. -/
def ofText? (s : String) : Option UnaryOp :=
  [not, neg].find? fun op => op.text == s

end UnaryOp

end Sluice
