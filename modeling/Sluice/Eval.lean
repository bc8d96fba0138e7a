import Sluice.Literal
import Sluice.Operator

/-!
# Operators on literals

What an operator gives on known values. Integers have 64 bits and wrap
around. A division by zero, and the one quotient that has no 64-bit value,
are left undefined here, like every operator on values it is not meant for.
-/

namespace Sluice

namespace BinaryOp

/-- The quotient or remainder of two integers, where it is defined. -/
def divide? (f : Int64 → Int64 → Int64) (a b : Int64) : Option Literal :=
  if b = 0 ∨ (a = Int64.minValue ∧ b = -1) then none else some (.int (f a b))

/-- An operator on two integers. -/
def evalInt? (op : BinaryOp) (a b : Int64) : Option Literal :=
  match op with
  | add => some (.int (a + b))
  | sub => some (.int (a - b))
  | mul => some (.int (a * b))
  | div => divide? (· / ·) a b
  | mod => divide? (· % ·) a b
  | eq => some (.bool (decide (a = b)))
  | ne => some (.bool (decide (a ≠ b)))
  | lt => some (.bool (decide (a < b)))
  | le => some (.bool (decide (a ≤ b)))
  | gt => some (.bool (decide (b < a)))
  | ge => some (.bool (decide (b ≤ a)))
  | and | or => none

/-- An operator on two truth values. -/
def evalBool? (op : BinaryOp) (a b : Bool) : Option Literal :=
  match op with
  | and => some (.bool (a && b))
  | or => some (.bool (a || b))
  | eq => some (.bool (a == b))
  | ne => some (.bool (a != b))
  | _ => none

/-- An operator that only asks whether its operands are the same. -/
def evalSame? (op : BinaryOp) (same : Bool) : Option Literal :=
  match op with
  | eq => some (.bool same)
  | ne => some (.bool !same)
  | _ => none

/-- **A binary operator on two literals**, where it is defined. -/
def eval? (op : BinaryOp) : Literal → Literal → Option Literal
  | .int a, .int b => op.evalInt? a b
  | .bool a, .bool b => op.evalBool? a b
  | .str a, .str b => op.evalSame? (a == b)
  | .unit, .unit => op.evalSame? true
  | _, _ => none

end BinaryOp

/-- **A unary operator on a literal**, where it is defined. -/
def UnaryOp.eval? : UnaryOp → Literal → Option Literal
  | not, .bool a => some (.bool !a)
  | neg, .int a => some (.int (-a))
  | _, _ => none

end Sluice
