import Sluice.Literal
import Sluice.Operator

/-!
# Instructions

Straight-line operations on registers, and the three instructions that end a
block. What names a value is a parameter: numbered registers while a function
is built and improved, places of the machine once it is allocated.

An instruction's registers can be looked at in several ways (what it defines,
what it uses, what it mentions at all), and each way of changing registers
follows one of them.
-/

namespace Sluice.Flow

/-- A register, numbered within its function. -/
abbrev Reg := Nat

/-- A block, numbered within its function. -/
abbrev Label := Nat

/-- A stack slot. -/
abbrev Slot := Nat

/-- Something an instruction reads. -/
inductive Operand (ρ : Type) where
  | imm (value : Literal)
  | reg (r : ρ)
  deriving DecidableEq, Repr

/-- What a call reaches. -/
inductive Callee (ρ : Type) where
  | direct (symbol : String)
  | indirect (r : ρ)
  deriving DecidableEq, Repr

/-- The shape of a new object. -/
inductive Shape where
  | record (name : String) (fields : Nat)
  | list (length : Nat)
  deriving DecidableEq, Repr

/-- An instruction. `alloc` lists the registers whose values are still needed after it. -/
inductive Instr (ρ : Type) where
  | move (dst : ρ) (src : Operand ρ)
  | unary (op : UnaryOp) (dst : ρ) (operand : Operand ρ)
  | binary (op : BinaryOp) (dst : ρ) (lhs rhs : Operand ρ)
  | call (dst : ρ) (callee : Callee ρ) (args : List (Operand ρ))
  | address (dst : ρ) (function : String)
  | alloc (dst : ρ) (shape : Shape) (live : List ρ)
  | store (object : ρ) (index : Nat) (value : Operand ρ)
  | load (dst : ρ) (object : ρ) (index : Nat)
  | spillStore (slot : Slot) (src : ρ)
  | spillLoad (dst : ρ) (slot : Slot)
  | jump (target : Label)
  | branch (condition : Operand ρ) (positive negative : Label)
  | ret (value : Operand ρ)
  deriving DecidableEq, Repr

variable {ρ σ ε : Type}

namespace Operand

/-- The register an operand reads, if it is one. -/
def reg? : Operand ρ → Option ρ
  | imm _ => none
  | reg r => some r

/-- Renames the register of an operand. -/
def map (f : ρ → σ) : Operand ρ → Operand σ
  | imm value => imm value
  | reg r => reg (f r)

/-- Renames the register of an operand, if it has a new name. -/
def tryMap (f : ρ → Except ε σ) : Operand ρ → Except ε (Operand σ)
  | imm value => .ok (imm value)
  | reg r => reg <$> f r

end Operand

namespace Callee

/-- The register a call goes through. -/
def reg? : Callee ρ → Option ρ
  | direct _ => none
  | indirect r => some r

/-- Renames the register a call goes through. -/
def map (f : ρ → σ) : Callee ρ → Callee σ
  | direct symbol => direct symbol
  | indirect r => indirect (f r)

/-- Renames the register a call goes through, if it has a new name. -/
def tryMap (f : ρ → Except ε σ) : Callee ρ → Except ε (Callee σ)
  | direct symbol => .ok (direct symbol)
  | indirect r => indirect <$> f r

end Callee

namespace Instr

/-! ## What an instruction does -/

/-- Whether an instruction ends a block. -/
def isTerminator : Instr ρ → Bool
  | jump _ | branch _ _ _ | ret _ => true
  | _ => false

/-- The blocks control can go to. -/
def successors : Instr ρ → List Label
  | jump target => [target]
  | branch _ positive negative => [positive, negative]
  | _ => []

/-- Whether an instruction leaves the function. -/
def isRet : Instr ρ → Bool
  | ret _ => true
  | _ => false

/-- The register an instruction writes. -/
def def? : Instr ρ → Option ρ
  | move dst _ | unary _ dst _ | binary _ dst _ _ | call dst _ _ | address dst _
  | alloc dst _ _ | load dst _ _ | spillLoad dst _ => some dst
  | store _ _ _ | spillStore _ _ | jump _ | branch _ _ _ | ret _ => none

/-- The registers an instruction reads, in the order of its operands. -/
def uses : Instr ρ → List ρ
  | move _ src => src.reg?.toList
  | unary _ _ operand => operand.reg?.toList
  | binary _ _ lhs rhs => lhs.reg?.toList ++ rhs.reg?.toList
  | call _ callee args => callee.reg?.toList ++ args.filterMap Operand.reg?
  | store object _ value => object :: value.reg?.toList
  | load _ object _ => [object]
  | spillStore _ src => [src]
  | branch condition _ _ => condition.reg?.toList
  | ret value => value.reg?.toList
  | address _ _ | alloc _ _ _ | spillLoad _ _ | jump _ => []

/-- Whether an instruction does nothing but write its register. Division can fail, so it does
more. -/
def isPure : Instr ρ → Bool
  | binary .div _ _ _ | binary .mod _ _ _ => false
  | move _ _ | unary _ _ _ | binary _ _ _ _ | address _ _ | load _ _ _ => true
  | _ => false

/-! ## Changing registers -/

/-- Changes the operands that can be registers or constants. -/
def mapOperands (f : Operand ρ → Operand ρ) : Instr ρ → Instr ρ
  | move dst src => move dst (f src)
  | unary op dst operand => unary op dst (f operand)
  | binary op dst lhs rhs => binary op dst (f lhs) (f rhs)
  | call dst callee args => call dst callee (args.map f)
  | store object index value => store object index (f value)
  | branch condition positive negative => branch (f condition) positive negative
  | ret value => ret (f value)
  | i => i

/-- Renames the registers an instruction reads. -/
def mapUses (f : ρ → ρ) : Instr ρ → Instr ρ
  | move dst src => move dst (src.map f)
  | unary op dst operand => unary op dst (operand.map f)
  | binary op dst lhs rhs => binary op dst (lhs.map f) (rhs.map f)
  | call dst callee args => call dst (callee.map f) (args.map (·.map f))
  | store object index value => store (f object) index (value.map f)
  | load dst object index => load dst (f object) index
  | spillStore slot src => spillStore slot (f src)
  | branch condition positive negative => branch (condition.map f) positive negative
  | ret value => ret (value.map f)
  | i => i

/-- Changes the register an instruction writes. -/
def mapDef (f : ρ → ρ) : Instr ρ → Instr ρ
  | move dst src => move (f dst) src
  | unary op dst operand => unary op (f dst) operand
  | binary op dst lhs rhs => binary op (f dst) lhs rhs
  | call dst callee args => call (f dst) callee args
  | address dst function => address (f dst) function
  | alloc dst shape live => alloc (f dst) shape live
  | load dst object index => load (f dst) object index
  | spillLoad dst slot => spillLoad (f dst) slot
  | i => i

/-- Renames all registers of an instruction. -/
def map (f : ρ → σ) : Instr ρ → Instr σ
  | move dst src => move (f dst) (src.map f)
  | unary op dst operand => unary op (f dst) (operand.map f)
  | binary op dst lhs rhs => binary op (f dst) (lhs.map f) (rhs.map f)
  | call dst callee args => call (f dst) (callee.map f) (args.map (·.map f))
  | address dst function => address (f dst) function
  | alloc dst shape live => alloc (f dst) shape (live.map f)
  | store object index value => store (f object) index (value.map f)
  | load dst object index => load (f dst) (f object) index
  | spillStore slot src => spillStore slot (f src)
  | spillLoad dst slot => spillLoad (f dst) slot
  | jump target => jump target
  | branch condition positive negative => branch (condition.map f) positive negative
  | ret value => ret (value.map f)

/-- Renames all registers of an instruction, or stops at the first without a new name. The
register written comes first, except in a call, where it comes last. -/
def tryMap (f : ρ → Except ε σ) : Instr ρ → Except ε (Instr σ)
  | move dst src => return move (← f dst) (← src.tryMap f)
  | unary op dst operand => return unary op (← f dst) (← operand.tryMap f)
  | binary op dst lhs rhs => return binary op (← f dst) (← lhs.tryMap f) (← rhs.tryMap f)
  | call dst callee args => do
    let callee ← callee.tryMap f
    let args ← args.mapM (·.tryMap f)
    return call (← f dst) callee args
  | address dst function => return address (← f dst) function
  | alloc dst shape live => return alloc (← f dst) shape (← live.mapM f)
  | store object index value => return store (← f object) index (← value.tryMap f)
  | load dst object index => return load (← f dst) (← f object) index
  | spillStore slot src => return spillStore slot (← f src)
  | spillLoad dst slot => return spillLoad (← f dst) slot
  | jump target => return jump target
  | branch condition positive negative =>
    return branch (← condition.tryMap f) positive negative
  | ret value => return ret (← value.tryMap f)

end Instr

end Sluice.Flow
