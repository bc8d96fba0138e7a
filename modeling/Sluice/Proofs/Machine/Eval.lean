import Mathlib.Logic.Function.Basic
import Sluice.Proofs.Machine.World
import Sluice.Typed.Tree

/-!
# Direct evaluation of typed bodies

What a typed body means, read off its tree: arguments are evaluated before a
call and from left to right, the callee of a call through a value before its
arguments, the initializers of a record in source order before its one
allocation. A match takes the first arm whose pattern accepts the scrutinee
and whose guard, with the pattern's locals bound, is true. Patterns look at the
scrutinee as it was when the match began.

Bodies have no loops, so evaluation follows the tree.
-/

namespace Sluice.Typed

open Machine

/-! ## Patterns -/

mutual

/-- Whether a pattern accepts a value. -/
def Pattern.accepts (h : Heap) (v : Value) : Pattern → Bool
  | .wildcard _ | .binding _ _ => true
  | .literal _ value => decide (v = .lit value)
  | .record _ _ fields => Pattern.acceptsFields h v fields

/-- Whether field patterns accept the fields of a value. -/
def Pattern.acceptsFields (h : Heap) (v : Value) : List (Field Pattern) → Bool
  | [] => true
  | ⟨_, _, index, p⟩ :: rest => p.accepts h (h.load v index) && Pattern.acceptsFields h v rest

end

mutual

/-- What a pattern binds its locals to, from left to right. -/
def Pattern.binds (h : Heap) (v : Value) : Pattern → List (LocalId × Value)
  | .wildcard _ | .literal _ _ => []
  | .binding _ id => [(id, v)]
  | .record _ _ fields => Pattern.bindsFields h v fields

/-- What field patterns bind their locals to. -/
def Pattern.bindsFields (h : Heap) (v : Value) : List (Field Pattern) → List (LocalId × Value)
  | [] => []
  | ⟨_, _, index, p⟩ :: rest => p.binds h (h.load v index) ++ Pattern.bindsFields h v rest

end

/-! ## Expressions -/

/-- The values of locals. -/
abbrev Env := LocalId → Value

/-- Gives values to locals, one after the other. -/
def Env.bind (env : Env) (bindings : List (LocalId × Value)) : Env :=
  bindings.foldl (fun env (id, v) => Function.update env id v) env

/-- An evaluation: it works on the world, and stops or gives a value. -/
abbrev Eval := EStateM Stop World

/-- Calls a function. -/
def invoke (calls : Calls) (callee : Value) (args : List Value) : Eval Value := fun w =>
  match w.call calls callee args with
  | (some v, w) => .ok v w
  | (none, w) => .error .lost w

/-- Applies a binary operator. -/
def applyBinary (op : BinaryOp) (a b : Value) : Eval Value := fun w =>
  match op.apply a b with
  | some v => .ok v w
  | none => .error .trap w

/-- Makes an object and fills in its fields. -/
def construct (shape : Flow.Shape) (fields : List (Nat × Value)) : Eval Value := fun w =>
  .ok (w.alloc shape).1
    (fields.foldl (fun w' (index, v) => w'.store (w.alloc shape).1 index v) (w.alloc shape).2)

/-- The heap as it is now. -/
def currentHeap : Eval Heap := fun w => .ok w.heap w

/-- Numbers values from zero. -/
def numbered (values : List Value) : List (Nat × Value) :=
  values.zipIdx.map fun (v, i) => (i, v)

mutual

/-- **The value of an expression.** -/
def Expr.eval (calls : Calls) (env : Env) : Expr → Eval Value
  | .literal _ value => return .lit value
  | .var _ id => return env id
  | .function _ name => return .function name
  | .letIn _ id value body => do
    let v ← value.eval calls env
    body.eval calls (Function.update env id v)
  | .block _ items => Expr.evalBlock calls env .unit items
  | .ifThen _ condition positive => do
    let c ← condition.eval calls env
    if c.isTrue then
      let _ ← positive.eval calls env
      return .unit
    else
      return .unit
  | .ifElse _ condition positive negative => do
    let c ← condition.eval calls env
    if c.isTrue then positive.eval calls env else negative.eval calls env
  | .record _ name fields => do
    let values ← Expr.evalFields calls env fields
    construct (.record name fields.length) values
  | .field _ target _ index => do
    let v ← target.eval calls env
    return (← currentHeap).load v index
  | .callFunction _ symbol args => do
    let values ← Expr.evalList calls env args
    invoke calls (.function symbol) values
  | .callMethod _ _ _ symbol args => do
    let values ← Expr.evalList calls env args
    invoke calls (.function symbol) values
  | .callValue _ callee args => do
    let v ← callee.eval calls env
    let values ← Expr.evalList calls env args
    invoke calls v values
  | .cases _ _ scrutinee arms => do
    let v ← scrutinee.eval calls env
    Expr.evalArms calls env (← currentHeap) v arms
  | .list _ elems => do
    let values ← Expr.evalList calls env elems
    construct (.list elems.length) (numbered values)
  | .binary _ .and lhs rhs => do
    let a ← lhs.eval calls env
    if a.isTrue then rhs.eval calls env else return .bool false
  | .binary _ .or lhs rhs => do
    let a ← lhs.eval calls env
    if a.isTrue then return .bool true else rhs.eval calls env
  | .binary _ op lhs rhs => do
    let a ← lhs.eval calls env
    let b ← rhs.eval calls env
    applyBinary op a b
  | .unary _ op operand => do
    let a ← operand.eval calls env
    return op.apply a

/-- The values of expressions, from left to right. -/
def Expr.evalList (calls : Calls) (env : Env) : List Expr → Eval (List Value)
  | [] => return []
  | e :: rest => do
    let v ← e.eval calls env
    return v :: (← Expr.evalList calls env rest)

/-- The value of the last expression of a block, given the one before. -/
def Expr.evalBlock (calls : Calls) (env : Env) (last : Value) : List Expr → Eval Value
  | [] => return last
  | e :: rest => do
    let v ← e.eval calls env
    Expr.evalBlock calls env v rest

/-- The values of field initializers, in source order. -/
def Expr.evalFields (calls : Calls) (env : Env) : List (Field Expr) → Eval (List (Nat × Value))
  | [] => return []
  | ⟨_, _, index, e⟩ :: rest => do
    let v ← e.eval calls env
    return (index, v) :: (← Expr.evalFields calls env rest)

/-- The value of the first arm that takes a scrutinee, given the heap it is looked up in. -/
def Expr.evalArms (calls : Calls) (env : Env) (h : Heap) (v : Value) :
    List (Arm Expr) → Eval Value
  | [] => throw .unmatched
  | ⟨_, p, none, body⟩ :: rest =>
    if p.accepts h v then body.eval calls (env.bind (p.binds h v))
    else Expr.evalArms calls env h v rest
  | ⟨_, p, some guard, body⟩ :: rest =>
    if p.accepts h v then do
      let g ← guard.eval calls (env.bind (p.binds h v))
      if g.isTrue then body.eval calls (env.bind (p.binds h v))
      else Expr.evalArms calls env h v rest
    else Expr.evalArms calls env h v rest

end

/-- **What a call of a typed function evaluates to.** -/
def Function.eval (calls : Calls) (f : Function) (args : List Value) : Eval Value :=
  f.body.eval calls (Env.bind (fun _ => .unit) (f.params.zip args))

/-- How an evaluation ends. -/
def Ends (r : EStateM.Result Stop World Value) (e : Ending) (w : World) : Prop :=
  match r with
  | .ok v w' => e = .value v ∧ w = w'
  | .error s w' => e = .stopped s ∧ w = w'

/-- An evaluation ends. -/
theorem exists_ends (r : EStateM.Result Stop World Value) : ∃ e w, Ends r e w := by
  cases r with
  | ok v w => exact ⟨.value v, w, rfl, rfl⟩
  | error s w => exact ⟨.stopped s, w, rfl, rfl⟩

end Sluice.Typed
