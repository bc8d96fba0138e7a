import Sluice.Text.Quoted

/-!
# Literals

The constants of the language: 64-bit integers, booleans, strings and the
unit value. The same constants stand in source text, in patterns and as
immediate operands of instructions.
-/

namespace Sluice

/-- A constant. -/
inductive Literal where
  | int (value : Int64)
  | bool (value : Bool)
  | str (value : String)
  | unit
  deriving DecidableEq, Repr

namespace Literal

/-- A constant as it is written. -/
def text : Literal → String
  | int value => toString value.toInt
  | bool true => "true"
  | bool false => "false"
  | str value => Text.quoted value
  | unit => "()"

end Literal

end Sluice
