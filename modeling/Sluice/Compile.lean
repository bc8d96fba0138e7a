import Sluice.Flow.Lower
import Sluice.Flow.Verify
import Sluice.Infer.Program
import Sluice.Optimize
import Sluice.Place.Allocate

/-!
# Compiling programs

All functions are checked before anything is reported, so that one run lists
every problem of a program. Only a program without problems is compiled,
function by function.
-/

namespace Sluice

open Text (paint)

/-! ## Problems of the program -/

/-- A problem of the program that is compiled. -/
structure Diagnostic where
  message : String
  span : Span
  deriving DecidableEq, Repr

/-- A problem as it is shown. -/
def Diagnostic.text (coloured : Bool) (d : Diagnostic) : String :=
  paint coloured .boldRed "error" ++ paint coloured .bold ":" ++ " "
    ++ paint coloured .bold d.message ++ " "
    ++ paint coloured .brightBlack ("(" ++ d.span.text ++ ")")

/-- Why a program was not compiled. Only the first is the fault of the program. -/
inductive CompileError where
  | diagnostics (problems : List Diagnostic)
  | flow (function : String) (cause : Flow.Fault)
  | place (function : String) (cause : PlaceError)

/-- The wording of an error. -/
def CompileError.message (coloured : Bool) : CompileError → String
  | diagnostics problems => "\n".intercalate (problems.map (·.text coloured))
  | flow function cause => "internal compiler error: " ++ cause.message function
  | place function cause => "internal compiler error: " ++ cause.message function

/-- The problems of a program: those of its types, then those of its matches. -/
def Infer.Checked.diagnostics (c : Infer.Checked) : List Diagnostic :=
  (c.errors.map fun e => { message := e.message, span := e.span })
    ++ c.program.functions.flatMap fun f =>
      (Decision.functionErrors c.program.records f).map fun e =>
        { message := e.message, span := e.span }

/-! ## Compilation -/

/-- What the user can choose. -/
structure Options where
  registers : Nat := 8
  strategy : Strategy := .linearScan
  optimize : Bool := true

/-- Improves a function, if that is wanted, and checks it again. -/
def improve (wanted : Bool) (f : Flow.Function Flow.Reg) :
    Except Flow.Fault (Flow.Function Flow.Reg) :=
  if wanted then do
    let (_, g) ← Sluice.optimize f
    Flow.verify g
    return g
  else
    return f

/-- The flow function of a typed function, checked and, if that is wanted, improved. -/
def flowOf (wanted : Bool) (f : Typed.Function) : Except Flow.Fault (Flow.Function Flow.Reg) := do
  let g ← Flow.lower f (Decision.decisions f)
  Flow.verify g
  improve wanted g

/-- Compiles a function that was checked. -/
def compileFunction (o : Options) (f : Typed.Function) : Except CompileError Placed := do
  let g ← (flowOf o.optimize f).mapError (.flow f.name)
  (allocate o.strategy o.registers g).mapError (.place f.name)

/-- **Compiles a program.** -/
def compile (o : Options) (p : Source.Program) : Except CompileError (List Placed) :=
  let checked := Infer.check p
  match checked.diagnostics with
  | [] => checked.program.functions.mapM (compileFunction o)
  | problems => .error (.diagnostics problems)

/-- The first compiled function with a name. -/
def functionNamed? (name : String) (functions : List Placed) : Option Placed :=
  functions.find? fun p => p.function.name == name

end Sluice
