import Sluice.Span
import Sluice.Unify.Solve

/-!
# Type errors

What can be wrong with the types of a program, where in the program's grammar
it was noticed, and the wording of the message.
-/

namespace Sluice

namespace Infer

/-- The rule that asked for a type. -/
inductive Boundary where
  | declaration
  | expression
  | letType
  | functionArgument
  | functionReturn
  | ifCondition
  | ifBranches
  | ifWithoutElse
  | recordField
  | listElement
  | binaryOperand
  | unaryOperand
  | matchPattern
  | matchGuard
  | matchArm
  deriving DecidableEq, Repr

/-- How a message names the rule, where it does. -/
def Boundary.description? : Boundary → Option String
  | declaration => none
  | expression => none
  | letType => some "let binding"
  | functionArgument => some "function argument"
  | functionReturn => some "function return value"
  | ifCondition => some "if condition"
  | ifBranches => some "if branches"
  | ifWithoutElse => some "if without else"
  | recordField => some "record field"
  | listElement => some "list element"
  | binaryOperand => some "binary operation"
  | unaryOperand => some "unary operation"
  | matchPattern => some "match pattern"
  | matchGuard => some "match guard"
  | matchArm => some "match arm"

/-- What is wrong. -/
inductive Fault where
  | clash (clash : Unify.Clash)
  | unknownName (name : String)
  | unknownType (name : String)
  | unknownRecord (name : String)
  | unknownField (record field : String)
  | unknownMember (record member : String)
  | missingField (record field : String)
  | duplicateField (record field : String)
  | duplicateDefinition (name : String)
  | duplicateBinding (name : String)
  | arityMismatch (expected found : Nat)
  | notCallable (ty : Ty)
  | notARecord (ty : Ty)
  | unknownReceiver
  | unsupportedOperator (op : BinaryOp) (ty : Ty)
  | cannotInfer (ty : Ty)
  deriving DecidableEq, Repr

/-- Text between back quotes. -/
def ticked (s : String) : String :=
  "`" ++ s ++ "`"

/-- The wording of a fault. -/
def Fault.message : Fault → String
  | clash (.mismatch expected found) =>
    "mismatched types: expected " ++ ticked expected.text ++ ", found " ++ ticked found.text
  | clash (.infinite v ty) =>
    "cannot construct the infinite type " ++ ticked (Ty.var v).text ++ " = " ++ ticked ty.text
  | unknownName name => "cannot find value " ++ ticked name ++ " in this scope"
  | unknownType name => "cannot find type " ++ ticked name
  | unknownRecord name => "cannot find record " ++ ticked name
  | unknownField record field =>
    "record " ++ ticked record ++ " has no field " ++ ticked field
  | unknownMember record member =>
    "record " ++ ticked record ++ " has no field or method named " ++ ticked member
  | missingField record field =>
    "missing field " ++ ticked field ++ " in initializer of " ++ ticked record
  | duplicateField record field =>
    "field " ++ ticked field ++ " of " ++ ticked record ++ " is specified more than once"
  | duplicateDefinition name => "the name " ++ ticked name ++ " is defined multiple times"
  | duplicateBinding name =>
    "identifier " ++ ticked name ++ " is bound more than once in the same pattern"
  | arityMismatch expected found =>
    "expected " ++ toString expected ++ " arguments, found " ++ toString found
  | notCallable ty => "expected a function, found " ++ ticked ty.text
  | notARecord ty => "type " ++ ticked ty.text ++ " is not a record and has no members"
  | unknownReceiver => "the type of this value must be known before accessing its members"
  | unsupportedOperator op ty =>
    "cannot apply " ++ ticked op.text ++ " to values of type " ++ ticked ty.text
  | cannotInfer ty => "type annotations needed: could not infer " ++ ticked ty.text

end Infer

/-- A type error: what is wrong, where, and under which rule. -/
structure TypeError where
  span : Span
  boundary : Infer.Boundary
  fault : Infer.Fault
  deriving DecidableEq, Repr

/-- The message of a type error. -/
def TypeError.message (e : TypeError) : String :=
  match e.boundary.description? with
  | none => e.fault.message
  | some rule => e.fault.message ++ " in " ++ rule

end Sluice
