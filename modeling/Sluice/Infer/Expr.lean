import Sluice.Infer.Pattern

/-!
# Checking expressions

An expression is checked from the inside out. Wherever two types have to
agree they are unified at once, so the first disagreement is reported at the
node that caused it.
-/

namespace Sluice.Infer

open Source (Named)

/-- The record that a member is accessed on. The receiver's type must be known by now; a receiver
whose type is the error type gives nothing. -/
def receiverRecord (ty : Ty) (span : Span) : Check (Option String) := do
  match ← shallow ty with
  | .record name => return some name
  | .error => return none
  | .var _ => fail span .unknownReceiver
  | ty => fail span (.notARecord (← resolve ty))

/-- What a name stands for behind a receiver. -/
inductive Member where
  | field (index : Nat) (ty : Ty)
  | method (symbol : String) (ty : Ty)

/-- Looks a member up; a field hides a method of the same name. -/
def member (g : Globals) (record : String) (name : Source.Ident) : Check Member :=
  match g.records.get? record with
  | none => fail name.span (.unknownRecord record)
  | some r =>
    match r.field? name.name with
    | some (index, f) => return .field index f.ty
    | none =>
      match r.method? name.name with
      | some m => return .method m.symbol m.ty
      | none => fail name.span (.unknownMember record name.name)

/-- Requires of every expression the type that stands at its place. -/
def requireEach (boundary : Boundary) : List Ty → List Typed.Expr → Check Unit
  | ty :: tys, e :: es => do
    require ty e.ty e.span boundary
    requireEach boundary tys es
  | _, _ => return ()

/-- The type of a call of something with a given type. -/
def callType (callee : Ty) (args : List Typed.Expr) (span : Span) : Check Ty := do
  match ← shallow callee with
  | .fn params ret =>
    if params.length = args.length then
      requireEach .functionArgument params args
      return ret
    else
      fail span (.arityMismatch params.length args.length)
  | .var v =>
    let ret ← fresh
    require (.var v) (.fn (args.map (·.ty)) ret) span .expression
    return ret
  | .error => return .error
  | ty => fail span (.notCallable (← resolve ty))

/-- The function that a call by name reaches directly: a free function that no local hides. -/
def directCallee? (g : Globals) (scope : Scope) : Source.Expr → Option (String × Signature)
  | .ident _ name =>
    if (scope.lookup name.name).isSome then none
    else (g.function? name.name).map (name.name, ·)
  | _ => none

/-- Operand and result type of an operator, equality apart. -/
def operatorTypes? : OpClass → Option (Ty × Ty)
  | .arithmetic => some (.int, .int)
  | .comparison => some (.int, .bool)
  | .logical => some (.bool, .bool)
  | .equality => none

/-- Whether values of a type can be compared for equality, as far as the type is known. -/
def comparable : Ty → Bool
  | .prim _ | .var _ | .error => true
  | .list _ | .record _ | .fn _ _ => false

/-- The type of a binary operation. -/
def binaryType (op : BinaryOp) (lhs rhs : Typed.Expr) : Check Ty :=
  match operatorTypes? op.opClass with
  | some (operand, result) => do
    require operand lhs.ty lhs.span .binaryOperand
    require operand rhs.ty rhs.span .binaryOperand
    return result
  | none => do
    require lhs.ty rhs.ty rhs.span .binaryOperand
    let shared ← shallow lhs.ty
    if comparable shared then
      return .bool
    else
      fail (lhs.span.join rhs.span) (.unsupportedOperator op (← resolve shared))

/-- Operand and result type of a unary operator. -/
def unaryType : UnaryOp → Ty
  | .not => .bool
  | .neg => .int

/-- The type of a block: that of its last expression. -/
def blockType (items : List Typed.Expr) : Ty :=
  items.getLast?.elim .unit (·.ty)

mutual

/-- **Checks an expression** and gives its typed form. -/
def checkExpr (g : Globals) (scope : Scope) : Source.Expr → Check Typed.Expr
  | .literal span value => return .literal ⟨span, value.ty⟩ value
  | .ident span name =>
    match scope.lookup name.name with
    | some id => return .var ⟨span, ← localType id⟩ id
    | none =>
      match g.function? name.name with
      | some signature => return .function ⟨span, signature.ty⟩ name.name
      | none => fail name.span (.unknownName name.name)
  | .letIn span name none value body => do
    let value ← checkExpr g scope value
    let id ← declareLocal name value.ty
    let body ← checkExpr g ((name.name, id) :: scope) body
    return .letIn ⟨span, body.ty⟩ id value body
  | .letIn span name (some a) value body => do
    let value ← checkExpr g scope value
    let ty ← annotatedType g.records a
    require ty value.ty value.span .letType
    let id ← declareLocal name ty
    let body ← checkExpr g ((name.name, id) :: scope) body
    return .letIn ⟨span, body.ty⟩ id value body
  | .block span items => do
    let items ← checkList g scope items
    return .block ⟨span, blockType items⟩ items
  | .ifThen span condition positive => do
    let condition ← checkExpr g scope condition
    require .bool condition.ty condition.span .ifCondition
    let positive ← checkExpr g scope positive
    require .unit positive.ty positive.span .ifWithoutElse
    return .ifThen ⟨span, .unit⟩ condition positive
  | .ifElse span condition positive negative => do
    let condition ← checkExpr g scope condition
    require .bool condition.ty condition.span .ifCondition
    let positive ← checkExpr g scope positive
    let negative ← checkExpr g scope negative
    require positive.ty negative.ty negative.span .ifBranches
    return .ifElse ⟨span, positive.ty⟩ condition positive negative
  | .record span name fields => do
    let some record := g.records.get? name.name
      | fail name.span (.unknownRecord name.name)
    let fields ← checkFields g scope record [] fields
    match record.fields.find? fun d => !fields.any (·.name == d.name) with
    | some missing => fail span (.missingField name.name missing.name)
    | none => return .record ⟨span, .record name.name⟩ name.name fields
  | .field span target name => do
    let target ← checkExpr g scope target
    match ← receiverRecord target.ty target.span with
    | none => return .field ⟨span, .error⟩ target name.name 0
    | some record =>
      match (g.records.get? record).bind (·.field? name.name) with
      | some (index, f) => return .field ⟨span, f.ty⟩ target name.name index
      | none => fail name.span (.unknownField record name.name)
  | .call span target args =>
    match directCallee? g scope target with
    | some (symbol, signature) => do
      let args ← checkList g scope args
      let ty ← callType signature.ty args span
      return .callFunction ⟨span, ty⟩ symbol args
    | none => do
      let callee ← checkExpr g scope target
      let args ← checkList g scope args
      let ty ← callType callee.ty args span
      return .callValue ⟨span, ty⟩ callee args
  | .methodCall span receiver name args => do
    let receiver ← checkExpr g scope receiver
    match ← receiverRecord receiver.ty receiver.span with
    | none =>
      let args ← checkList g scope args
      return .callValue ⟨span, .error⟩ receiver args
    | some record =>
      match ← member g record name with
      | .field index ty =>
        let callee := .field ⟨receiver.span.join name.span, ty⟩ receiver name.name index
        let args ← checkList g scope args
        let result ← callType ty args span
        return .callValue ⟨span, result⟩ callee args
      | .method symbol ty =>
        let args ← checkList g scope args
        let result ← callType ty (receiver :: args) span
        return .callMethod ⟨span, result⟩ record name.name symbol (receiver :: args)
  | .cases span scrutinee arms => do
    let scrutinee ← checkExpr g scope scrutinee
    let ty ← fresh
    let arms ← checkArms g scope scrutinee.ty ty arms
    let id ← nextMatch
    return .cases ⟨span, ty⟩ id scrutinee arms
  | .list span elems => do
    let elem ← fresh
    let elems ← checkList g scope elems
    requireEach .listElement (elems.map fun _ => elem) elems
    return .list ⟨span, .list elem⟩ elems
  | .binary span op lhs rhs => do
    let lhs ← checkExpr g scope lhs
    let rhs ← checkExpr g scope rhs
    let ty ← binaryType op lhs rhs
    return .binary ⟨span, ty⟩ op lhs rhs
  | .unary span op operand => do
    let operand ← checkExpr g scope operand
    require (unaryType op) operand.ty operand.span .unaryOperand
    return .unary ⟨span, unaryType op⟩ op operand

/-- Checks expressions from left to right. -/
def checkList (g : Globals) (scope : Scope) : List Source.Expr → Check (List Typed.Expr)
  | [] => return []
  | e :: rest => do
    let e ← checkExpr g scope e
    return e :: (← checkList g scope rest)

/-- Checks the initializers of a record expression. `seen` are the fields named so far. -/
def checkFields (g : Globals) (scope : Scope) (record : RecordDecl) (seen : List String) :
    List (Named Source.Expr) → Check (List (Typed.Field Typed.Expr))
  | [] => return []
  | ⟨span, name, value⟩ :: rest => do
    let (index, declared) ← namedField record seen name
    let value ← checkExpr g scope value
    require declared.ty value.ty value.span .recordField
    let rest ← checkFields g scope record (name.name :: seen) rest
    return ⟨span, name.name, index, value⟩ :: rest

/-- Checks the arms of a match, whose scrutinee and result have the given types. -/
def checkArms (g : Globals) (scope : Scope) (scrutinee result : Ty) :
    List (Source.Arm Source.Expr) → Check (List (Typed.Arm Typed.Expr))
  | [] => return []
  | ⟨span, pattern, none, body⟩ :: rest => do
    let (pattern, bound) ← checkPattern g scrutinee [] pattern
    let body ← checkExpr g (bound ++ scope) body
    require result body.ty body.span .matchArm
    return ⟨span, pattern, none, body⟩ :: (← checkArms g scope scrutinee result rest)
  | ⟨span, pattern, some guard, body⟩ :: rest => do
    let (pattern, bound) ← checkPattern g scrutinee [] pattern
    let guard ← checkExpr g (bound ++ scope) guard
    require .bool guard.ty guard.span .matchGuard
    let body ← checkExpr g (bound ++ scope) body
    require result body.ty body.span .matchArm
    return ⟨span, pattern, some guard, body⟩ :: (← checkArms g scope scrutinee result rest)

end

end Sluice.Infer
