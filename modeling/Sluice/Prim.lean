import Sluice.Literal
import Sluice.Operator

/-!
# Primitive types

The four built-in types, their spellings, the operators they support and
the constants that belong to them.
-/

namespace Sluice

/-- A primitive type. -/
inductive Prim where
  | int
  | bool
  | str
  | unit
  deriving DecidableEq, Repr

namespace Prim

/-- All primitive types. -/
def all : List Prim :=
  [int, bool, str, unit]

/-- The name of a primitive type. -/
def text : Prim → String
  | int => "int"
  | bool => "bool"
  | str => "str"
  | unit => "unit"

/-- The primitive type with a spelling; `none` is a second spelling of the unit type. -/
def ofText? : String → Option Prim
  | "int" => some int
  | "bool" => some bool
  | "str" => some str
  | "unit" => some unit
  | "none" => some unit
  | _ => none

/-- Whether an operator works on two values of the type. -/
def supports (p : Prim) (op : BinaryOp) : Bool :=
  match op.opClass with
  | .arithmetic | .comparison => p == int
  | .logical => p == bool
  | .equality => true

/-- Whether the type has so few values that a match can list them all. -/
def isFinite : Prim → Bool
  | bool | unit => true
  | int | str => false

end Prim

/-- The primitive type of a constant. -/
def Literal.prim : Literal → Prim
  | int _ => .int
  | bool _ => .bool
  | str _ => .str
  | unit => .unit

end Sluice
