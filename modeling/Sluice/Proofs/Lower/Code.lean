import Sluice.Flow.Lower

/-!
# The code of an expression

What a finished function looks like where an expression was lowered, said
without reference to the builder. Code is a relation: it leads from one spot of
a function to another and gives something, such as the operand that holds the
value of an expression. A spot is the instructions still to come in a block,
with the number of registers used so far; where branches meet again, the next
spot is at the start of another block.

Registers come in two kinds. A local has its own for the whole function; every
other register is a temporary, and is used by one piece of code only.
-/

namespace Sluice.Flow

open Decision (Binding Occurrence Tree)
open Typed (Arm Expr Info LocalId)

/-- A finished function: the types of its registers, its blocks, and the registers of its
locals. -/
structure Layout where
  registers : List Ty
  blocks : List (List (Instr Reg))
  reg? : LocalId → Option Reg

/-- A spot in a block: the number of registers used before it, and the instructions after it. -/
structure Spot where
  next : Nat
  rest : List (Instr Reg)

/-- **Code** that leads from one spot to another and gives something. At the second spot at least as
many registers are used as at the first. -/
structure Code (α : Type) where
  rel : Layout → Spot → α → Spot → Prop
  steady : ∀ {K p a q}, rel K p a q → p.next ≤ q.next

/-- Code that does not lead on but leaves for other blocks in the end. It uses registers up to a
number, from the one it starts at. -/
structure Tail where
  rel : Layout → Spot → Nat → Prop
  steady : ∀ {K p n}, rel K p n → p.next ≤ n

instance {α : Type} : CoeFun (Code α) fun _ => Layout → Spot → α → Spot → Prop := ⟨Code.rel⟩

instance : CoeFun Tail fun _ => Layout → Spot → Nat → Prop := ⟨Tail.rel⟩

/-- No code at all. -/
def Tail.none : Tail := ⟨fun _ _ _ => False, False.elim⟩

namespace Code

/-- Pieces of code can be put together. -/
instance : Monad Code where
  pure a := ⟨fun _ p b q => b = a ∧ q = p, fun h => Nat.le_of_eq (congrArg Spot.next h.2.symm)⟩
  bind x f :=
    { rel := fun K p b q => ∃ a r, x K p a r ∧ f a K r b q
      steady := by
        rintro K p b q ⟨a, r, hx, hf⟩
        exact Nat.le_trans (x.steady hx) ((f a).steady hf) }

/-- Code, and then a tail. -/
def andThen {α : Type} (x : Code α) (t : α → Tail) : Tail where
  rel K p n := ∃ a q, x K p a q ∧ t a K q n
  steady := by
    rintro K p n ⟨a, q, hx, ht⟩
    exact Nat.le_trans (x.steady hx) ((t a).steady ht)

/-- No code, where there is something. -/
def given {α : Type} (a? : Option α) : Code α where
  rel _ p a q := a? = some a ∧ p = q
  steady h := Nat.le_of_eq (congrArg Spot.next h.2)

/-- An instruction. -/
def emit (i : Instr Reg) : Code Unit where
  rel _ p _ q := p.rest = i :: q.rest ∧ q.next = p.next
  steady h := Nat.le_of_eq h.2.symm

/-- A new temporary. -/
def temp (ty : Ty) : Code Reg where
  rel K p r q := r = p.next ∧ q.next = p.next + 1 ∧ q.rest = p.rest ∧
    K.registers[r]? = some ty ∧ ∀ id, K.reg? id ≠ some r
  steady h := h.2.1 ▸ Nat.le_succ _

/-- The register of a local. -/
def ofLocal (id : LocalId) : Code Reg where
  rel K p r q := K.reg? id = some r ∧ p = q
  steady h := Nat.le_of_eq (congrArg Spot.next h.2)

/-- The register of a local, which may be used here for the first time. -/
def bindLocal (id : LocalId) : Code Reg where
  rel K p r q := K.reg? id = some r ∧ p.next ≤ q.next ∧ q.rest = p.rest
  steady h := h.2.1

/-- An operand in a register. -/
def inRegister (ty : Ty) : Operand Reg → Code Reg
  | .reg r => return r
  | .imm value => do
    let r ← temp ty
    emit (.move r (.imm value))
    return r

/-- An object, made and filled in. -/
def object (ty : Ty) (shape : Shape) (values : List (Nat × Operand Reg)) : Code (Operand Reg) := do
  let r ← temp ty
  emit (.alloc r shape [])
  values.forM fun (index, value) => emit (.store r index value)
  return .reg r

/-! ## Branches -/

/-- Code that is passed through or not. The instruction in front goes to its block or to the block
after it. -/
def detour (enter : Label → Label → Instr Reg) (x : Code Unit) : Code Unit where
  rel K p _ q := ∃ second meeting p1 q1, p.rest = [enter second meeting] ∧
    K.blocks[second]? = some p1.rest ∧ p1.next = p.next ∧ x K p1 () q1 ∧
    q1.rest = [.jump meeting] ∧ K.blocks[meeting]? = some q.rest ∧ q.next = q1.next
  steady := by
    rintro K p _ q ⟨second, meeting, p1, q1, -, -, hp1, hx, -, -, hq⟩
    rw [hq, ← hp1]
    exact x.steady hx

/-- Two pieces of code one of which is passed through. -/
def fork (condition : Operand Reg) (x y : Code Unit) : Code Unit where
  rel K p _ q := ∃ yes no meeting p1 q1 p2 q2, p.rest = [.branch condition yes no] ∧
    K.blocks[yes]? = some p1.rest ∧ p1.next = p.next ∧ x K p1 () q1 ∧
    q1.rest = [.jump meeting] ∧
    K.blocks[no]? = some p2.rest ∧ p2.next = q1.next ∧ y K p2 () q2 ∧
    q2.rest = [.jump meeting] ∧ K.blocks[meeting]? = some q.rest ∧ q.next = q2.next
  steady := by
    rintro K p _ q ⟨yes, no, meeting, p1, q1, p2, q2, -, -, hp1, hx, -, -, hp2, hy, -, -, hq⟩
    rw [hq, ← hp1]
    exact Nat.le_trans (hp2 ▸ x.steady hx) (y.steady hy)

/-! ## Matches -/

/-- The loads of parts of a scrutinee. -/
def loads (root : Reg) (types : List (Occurrence × Ty)) (parts : Parts) :
    List Occurrence → Code Parts
  | [] => return parts
  | o :: rest =>
    match o.parent?, o.lastIndex? with
    | some parent, some index => do
      let object ← given (parts.lookup parent)
      let r ← temp (← given (types.lookup o))
      emit (.load r object index)
      loads root types ((o, r) :: parts) rest
    | _, _ => loads root types ((o, root) :: parts) rest

/-- The moves of parts into the registers of locals bound to them. -/
def binds (parts : Parts) (bindings : List Binding) : Code Unit :=
  bindings.forM fun b => do
    let src ← given (parts.lookup b.occurrence)
    let dst ← bindLocal b.id
    emit (.move dst (.reg src))

/-- The jump to the block of an arm. -/
def enterArm (targets : ArmBlocks) (arm : Nat) : Tail where
  rel _ p n := ∃ l, targets[arm]?.join = some l ∧ p.rest = [.jump l] ∧ n = p.next
  steady := by
    rintro K p n ⟨l, -, -, rfl⟩
    exact Nat.le.refl

/-- A branch to the block of an arm or else to a tail. -/
def branchArm (targets : ArmBlocks) (arm : Nat) (condition : Operand Reg) (others : Tail) :
    Tail where
  rel K p n := ∃ l next p1, targets[arm]?.join = some l ∧ p.rest = [.branch condition l next] ∧
    K.blocks[next]? = some p1.rest ∧ p1.next = p.next ∧ others K p1 n
  steady := by
    rintro K p n ⟨l, next, p1, -, -, -, hp1, hn⟩
    exact hp1 ▸ others.steady hn

/-- A branch to one of two tails. -/
def branchTails (condition : Operand Reg) (x y : Tail) : Tail where
  rel K p n := ∃ yes no p1 p2, p.rest = [.branch condition yes no] ∧
    K.blocks[yes]? = some p1.rest ∧ p1.next = p.next ∧ x K p1 p2.next ∧
    K.blocks[no]? = some p2.rest ∧ y K p2 n
  steady := by
    rintro K p n ⟨yes, no, p1, p2, -, -, hp1, hx, -, hy⟩
    exact Nat.le_trans (hp1 ▸ x.steady hx) (y.steady hy)

/-- A comparison of a part with a literal, and what follows for both outcomes. -/
def compare (part : Reg) (value : Literal) (x y : Tail) : Tail :=
  andThen (do
    let condition ← temp .bool
    emit (.binary .eq condition (.reg part) (.imm value))
    return condition) fun condition => branchTails (.reg condition) x y

/-- What the nodes of a decision tree share: the parts, the code of guards, and the blocks of
arms. -/
structure Ways where
  parts : Parts
  guards : List (Option (Code (Operand Reg)))
  targets : ArmBlocks

mutual

/-- **The code of a decision tree.** There is none for failure. -/
def choose (c : Ways) : Tree → Tail
  | .leaf arm bindings => (binds c.parts bindings).andThen fun _ => enterArm c.targets arm
  | .guard arm bindings fallback =>
    (binds c.parts bindings).andThen fun _ =>
      match c.guards[arm]?.join with
      | none => enterArm c.targets arm
      | some guard => guard.andThen fun o => branchArm c.targets arm o (choose c fallback)
  | .test o branches none =>
    (given (c.parts.lookup o)).andThen fun part => chooseLast c part branches
  | .test o branches (some default) =>
    (given (c.parts.lookup o)).andThen fun part => chooseAmong c part (choose c default) branches
  | .fail => .none

/-- The code of the branches of a test, given what follows if none of them applies. -/
def chooseAmong (c : Ways) (part : Reg) (others : Tail) : List (Literal × Tree) → Tail
  | [] => others
  | (value, tree) :: rest => compare part value (choose c tree) (chooseAmong c part others rest)

/-- The code of the branches of a test one of which must apply. -/
def chooseLast (c : Ways) (part : Reg) : List (Literal × Tree) → Tail
  | [] => .none
  | [(_, tree)] => choose c tree
  | (value, tree) :: next :: rest =>
    compare part value (choose c tree) (chooseLast c part (next :: rest))

end

/-- The code of the bodies of the arms that have a block. Each leaves its value in a register and
goes to the block where they meet. -/
def armBodies (K : Layout) (dst : Reg) (meeting : Label) :
    List (Code (Operand Reg)) → ArmBlocks → Nat → Nat → Prop
  | body :: bodies, some l :: blocks, n, n' =>
    ∃ p o q, K.blocks[l]? = some p.rest ∧ p.next = n ∧ body K p o q ∧
      q.rest = [.move dst o, .jump meeting] ∧ armBodies K dst meeting bodies blocks q.next n'
  | _ :: bodies, none :: blocks, n, n' => armBodies K dst meeting bodies blocks n n'
  | _, _, n, n' => n' = n

theorem le_of_armBodies :
    ∀ {bodies blocks n n'}, armBodies K dst meeting bodies blocks n n' → n ≤ n'
  | body :: bodies, some l :: blocks, n, n', h => by
    obtain ⟨p, o, q, -, rfl, hbody, -, hrest⟩ := h
    exact Nat.le_trans (body.steady hbody) (le_of_armBodies hrest)
  | _ :: bodies, none :: blocks, n, n', h => by
    have hrest : armBodies K dst meeting bodies blocks n n' := h
    exact le_of_armBodies hrest
  | [], [], n, n', h | [], _ :: _, n, n', h | _ :: _, [], n, n', h => Nat.le_of_eq h.symm

/-- The code of a tree and of the arms it leads to. -/
def arms (parts : Parts) (guards : List (Option (Code (Operand Reg))))
    (bodies : List (Code (Operand Reg))) (dst : Reg) (tree : Tree) : Code Unit where
  rel K p _ q := ∃ meeting targets n, choose ⟨parts, guards, targets⟩ tree K p n ∧
    armBodies K dst meeting bodies targets n q.next ∧ K.blocks[meeting]? = some q.rest
  steady := by
    rintro K p _ q ⟨meeting, targets, n, htree, hbodies, -⟩
    exact Nat.le_trans ((choose _ tree).steady htree) (le_of_armBodies hbodies)

/-- The code of a match, given that of its scrutinee, guards and bodies. -/
def ofMatch (info : Info) (scrutineeTy : Ty) (scrutinee : Code (Operand Reg))
    (patterns : List Typed.Pattern) (guards : List (Option (Code (Operand Reg))))
    (bodies : List (Code (Operand Reg))) (tree : Tree) : Code (Operand Reg) := do
  let root ← inRegister scrutineeTy (← scrutinee)
  let parts ← loads root ((.root, scrutineeTy) :: patterns.flatMap (patternTypes .root)) []
    tree.occurrences
  let dst ← temp info.ty
  arms parts guards bodies dst tree
  return .reg dst

/-! ## Expressions -/

mutual

/-- **The code of an expression.** It gives the operand that holds the value. -/
def ofExpr : Expr → Code (Operand Reg)
  | .literal _ value => return .imm value
  | .var _ id => return .reg (← ofLocal id)
  | .function info name => do
    let r ← temp info.ty
    emit (.address r name)
    return .reg r
  | .letIn _ id value body => do
    let src ← ofExpr value
    let dst ← bindLocal id
    emit (.move dst src)
    ofExpr body
  | .block _ items => ofBlock (.imm .unit) items
  | .ifThen _ condition positive => do
    let condition ← ofExpr condition
    detour (fun yes meeting => .branch condition yes meeting) do
      let _ ← ofExpr positive
    return .imm .unit
  | .ifElse info condition positive negative => do
    let condition ← ofExpr condition
    let dst ← temp info.ty
    fork condition (do emit (.move dst (← ofExpr positive)))
      (do emit (.move dst (← ofExpr negative)))
    return .reg dst
  | .record info name fields => do
    let values ← ofFields fields
    object info.ty (.record name fields.length) values
  | .field info target _ index => do
    let object ← inRegister target.ty (← ofExpr target)
    let r ← temp info.ty
    emit (.load r object index)
    return .reg r
  | .callFunction info symbol args => do
    let args ← ofList args
    let r ← temp info.ty
    emit (.call r (.direct symbol) args)
    return .reg r
  | .callMethod info _ _ symbol args => do
    let args ← ofList args
    let r ← temp info.ty
    emit (.call r (.direct symbol) args)
    return .reg r
  | .callValue info callee args => do
    let callee ← inRegister callee.ty (← ofExpr callee)
    let args ← ofList args
    let r ← temp info.ty
    emit (.call r (.indirect callee) args)
    return .reg r
  | .cases info _ scrutinee arms =>
    ofMatch info scrutinee.ty (ofExpr scrutinee) (arms.map (·.pattern)) (ofGuards arms)
      (ofBodies arms) (Decision.compile arms)
  | .list info elems => do
    let values ← ofList elems
    object info.ty (.list elems.length) (indexed values)
  | .binary _ .and lhs rhs => do
    let lhs ← ofExpr lhs
    let dst ← temp .bool
    emit (.move dst lhs)
    detour (fun second meeting => .branch lhs second meeting) do
      emit (.move dst (← ofExpr rhs))
    return .reg dst
  | .binary _ .or lhs rhs => do
    let lhs ← ofExpr lhs
    let dst ← temp .bool
    emit (.move dst lhs)
    detour (fun second meeting => .branch lhs meeting second) do
      emit (.move dst (← ofExpr rhs))
    return .reg dst
  | .binary info op lhs rhs => do
    let lhs ← ofExpr lhs
    let rhs ← ofExpr rhs
    let r ← temp info.ty
    emit (.binary op r lhs rhs)
    return .reg r
  | .unary info op operand => do
    let operand ← ofExpr operand
    let r ← temp info.ty
    emit (.unary op r operand)
    return .reg r

/-- The code of expressions, from left to right. -/
def ofList : List Expr → Code (List (Operand Reg))
  | [] => return []
  | e :: rest => do
    let value ← ofExpr e
    return value :: (← ofList rest)

/-- The code of the expressions of a block. -/
def ofBlock (last : Operand Reg) : List Expr → Code (Operand Reg)
  | [] => return last
  | e :: rest => do
    let value ← ofExpr e
    ofBlock value rest

/-- The code of field initializers, in source order. -/
def ofFields : List (Typed.Field Expr) → Code (List (Nat × Operand Reg))
  | [] => return []
  | ⟨_, _, index, e⟩ :: rest => do
    let value ← ofExpr e
    return (index, value) :: (← ofFields rest)

/-- The code of guards. -/
def ofGuards : List (Arm Expr) → List (Option (Code (Operand Reg)))
  | [] => []
  | ⟨_, _, none, _⟩ :: rest => none :: ofGuards rest
  | ⟨_, _, some guard, _⟩ :: rest => some (ofExpr guard) :: ofGuards rest

/-- The code of bodies. -/
def ofBodies : List (Arm Expr) → List (Code (Operand Reg))
  | [] => []
  | ⟨_, _, _, body⟩ :: rest => ofExpr body :: ofBodies rest

end

end Code

end Sluice.Flow
