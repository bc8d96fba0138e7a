import Mathlib.Algebra.Group.Int.Defs
import Sluice.Flow.Instr

/-!
# Values, heaps and the world outside

What a running program works on. A value is a constant, an object by its
address, or a function by its symbol. Objects live in a heap. The world is the
heap together with everything that happened so far: calls, allocations and
stores, which is all that can be seen of a run from outside.

What called functions do is a parameter. A call is given the whole world and
answers with a value and a heap, or not at all, so nothing is assumed about
what it reads, keeps or changes.

Every operation is total. Where its operands are not of the kind it is meant
for it gives the unit value, except for a division, which traps.
-/

namespace Sluice

open Flow (Shape)

/-- The number of fields of a new object. -/
def Flow.Shape.size : Shape → Nat
  | .record _ fields => fields
  | .list length => length

namespace Machine

/-- A value. -/
inductive Value where
  | lit (l : Literal)
  | object (address : Nat)
  | function (symbol : String)
  deriving DecidableEq, Repr

namespace Value

/-- The unit value. -/
abbrev unit : Value := .lit .unit

/-- A truth value. -/
abbrev bool (b : Bool) : Value := .lit (.bool b)

/-- Whether a value is the constant for truth. -/
def isTrue (v : Value) : Bool :=
  decide (v = .bool true)

end Value

/-! ## The heap -/

/-- An object: the shape it was made with, and its fields. -/
structure Object where
  shape : Shape
  fields : List Value
  deriving DecidableEq, Repr

/-- The objects of a run. The address of an object is its position. -/
structure Heap where
  objects : List Object
  deriving DecidableEq, Repr

namespace Heap

/-- The object at a value, if the value is the address of one. -/
def object? (h : Heap) : Value → Option Object
  | .object a => h.objects[a]?
  | _ => none

/-- A field of an object. -/
def load (h : Heap) (v : Value) (index : Nat) : Value :=
  ((h.object? v).bind fun o => o.fields[index]?).getD .unit

/-- Writes a field of an object. -/
def store (h : Heap) (v : Value) (index : Nat) (field : Value) : Heap :=
  match v with
  | .object a =>
    ⟨h.objects.modify a fun o => { o with fields := o.fields.set index field }⟩
  | _ => h

/-- Makes an object whose fields are all unit, and gives its address. -/
def alloc (h : Heap) (shape : Shape) : Value × Heap :=
  (.object h.objects.length, ⟨h.objects ++ [⟨shape, List.replicate shape.size .unit⟩]⟩)

/-- The part of a value at the end of a path of field indices. -/
def part (h : Heap) (v : Value) (path : List Nat) : Value :=
  path.foldl h.load v

end Heap

/-! ## What is seen from outside -/

/-- Something a run does that can be seen from outside. -/
inductive Event where
  | call (callee : Value) (args : List Value)
  | alloc (shape : Shape)
  | store (object : Value) (index : Nat) (value : Value)
  deriving DecidableEq, Repr

/-- The heap, and what happened so far, the latest first. -/
structure World where
  heap : Heap
  trace : List Event := []
  deriving DecidableEq, Repr

/-- What called functions do: the value and the heap they return with, unless they never
return. -/
abbrev Calls := Value → List Value → World → Option (Value × Heap)

namespace World

/-- Adds an event. -/
def happens (w : World) (e : Event) : World :=
  { w with trace := e :: w.trace }

/-- Makes an object. -/
def alloc (w : World) (shape : Shape) : Value × World :=
  ((w.heap.alloc shape).1, { (w.happens (.alloc shape)) with heap := (w.heap.alloc shape).2 })

/-- Writes a field of an object. -/
def store (w : World) (object : Value) (index : Nat) (value : Value) : World :=
  { (w.happens (.store object index value)) with heap := w.heap.store object index value }

/-- Calls a function. The call is seen even if it never returns. -/
def call (calls : Calls) (w : World) (callee : Value) (args : List Value) :
    Option Value × World :=
  let w := w.happens (.call callee args)
  match calls callee args w with
  | some (v, heap) => (some v, { w with heap })
  | none => (none, w)

end World

/-- Why a run stops without a value: a division that has no result, a call that never returns, or
a match without an arm for its scrutinee. -/
inductive Stop where
  | trap
  | lost
  | unmatched
  deriving DecidableEq, Repr

/-- How a run ends. -/
inductive Ending where
  | value (v : Value)
  | stopped (s : Stop)
  deriving DecidableEq, Repr

end Machine

/-! ## Operators on values -/

open Machine (Value)

/-- A quotient or remainder. It has no value for a zero divisor, nor where the quotient is too
large for 64 bits. -/
def BinaryOp.quotient (f : Int → Int → Int) (a b : Int64) : Option Value :=
  if b.toInt = 0 ∨ (a.toInt = -2 ^ 63 ∧ b.toInt = -1) then none
  else some (.lit (.int (.ofInt (f a.toInt b.toInt))))

/-- **What a binary operator gives**, unless it traps. Sums, differences and products are exact up
to a multiple of `2 ^ 64`. Equality is asked of any two values, objects being compared by
address. -/
def BinaryOp.apply : BinaryOp → Value → Value → Option Value
  | .add, .lit (.int a), .lit (.int b) => some (.lit (.int (.ofInt (a.toInt + b.toInt))))
  | .sub, .lit (.int a), .lit (.int b) => some (.lit (.int (.ofInt (a.toInt - b.toInt))))
  | .mul, .lit (.int a), .lit (.int b) => some (.lit (.int (.ofInt (a.toInt * b.toInt))))
  | .div, .lit (.int a), .lit (.int b) => quotient Int.tdiv a b
  | .mod, .lit (.int a), .lit (.int b) => quotient Int.tmod a b
  | .lt, .lit (.int a), .lit (.int b) => some (.bool (decide (a.toInt < b.toInt)))
  | .le, .lit (.int a), .lit (.int b) => some (.bool (decide (a.toInt ≤ b.toInt)))
  | .gt, .lit (.int a), .lit (.int b) => some (.bool (decide (b.toInt < a.toInt)))
  | .ge, .lit (.int a), .lit (.int b) => some (.bool (decide (b.toInt ≤ a.toInt)))
  | .and, .lit (.bool a), .lit (.bool b) => some (.bool (a && b))
  | .or, .lit (.bool a), .lit (.bool b) => some (.bool (a || b))
  | .eq, a, b => some (.bool (decide (a = b)))
  | .ne, a, b => some (.bool (decide (a ≠ b)))
  | .div, _, _ | .mod, _, _ => none
  | _, _, _ => some .unit

/-- **What a unary operator gives.** -/
def UnaryOp.apply : UnaryOp → Value → Value
  | .not, .lit (.bool a) => .bool !a
  | .neg, .lit (.int a) => .lit (.int (.ofInt (-a.toInt)))
  | _, _ => .unit

end Sluice
