import Sluice.Decision.Check
import Sluice.Flow.Error

/-!
# From typed bodies to flow functions

Every local has one register for its whole life, and every expression with a
value gets a new one. Where branches meet, each has moved its value into one
shared register. A match loads the parts its decision tree looks at once, in
front, then the tree becomes a cascade of comparisons, and every arm that can
be reached gets one block.
-/

namespace Sluice.Flow

open Decision (Binding Decisions Occurrence)
open Typed (LocalId MatchId)

/-- A function under construction. -/
structure Builder where
  registers : List Ty := []
  blocks : List (List (Instr Reg)) := []
  current : Label := 0
  locals : List (LocalId × Reg) := []

/-- A computation that builds a function, or finds a fault. -/
abbrev Build := StateT Builder (Except Fault)

namespace Build

/-- Fails with a fault. -/
def fault {α : Type} (e : Fault) : Build α := fun _ => .error e

/-- A new register. -/
def newRegister (ty : Ty) : Build Reg := fun b =>
  .ok (b.registers.length, { b with registers := b.registers ++ [ty] })

/-- A new, empty block. -/
def newBlock : Build Label := fun b =>
  .ok (b.blocks.length, { b with blocks := b.blocks ++ [[]] })

/-- Adds an instruction to the current block. -/
def emit (i : Instr Reg) : Build Unit := fun b =>
  .ok ((), { b with blocks := b.blocks.modify b.current (· ++ [i]) })

/-- Goes on in another block. -/
def switchTo (l : Label) : Build Unit := fun b =>
  .ok ((), { b with current := l })

/-- The register of a local, made when it is first bound. -/
def bindLocal (f : Typed.Function) (id : LocalId) : Build Reg := fun b =>
  match b.locals.lookup id with
  | some r => .ok (r, b)
  | none =>
    match f.locals[id]? with
    | none => .error (.undeclaredLocal id)
    | some l =>
      let r := b.registers.length
      .ok (r, { b with registers := b.registers ++ [l.ty], locals := (id, r) :: b.locals })

/-- The register of a local that is bound. -/
def readLocal (id : LocalId) : Build Reg := fun b =>
  match b.locals.lookup id with
  | some r => .ok (r, b)
  | none => .error (.unknownLocal id)

/-- Puts an operand into a register, if it is not in one. -/
def inRegister (ty : Ty) : Operand Reg → Build Reg
  | .reg r => return r
  | .imm value => do
    let r ← newRegister ty
    emit (.move r (.imm value))
    return r

/-- Makes an object and fills in its fields. -/
def object (ty : Ty) (shape : Shape) (values : List (Nat × Operand Reg)) :
    Build (Operand Reg) := do
  let r ← newRegister ty
  emit (.alloc r shape [])
  values.forM fun (index, value) => emit (.store r index value)
  return .reg r

/-- Moves a value to where branches meet and goes there. -/
def join (dst : Reg) (meeting : Label) (value : Operand Reg) : Build Unit := do
  emit (.move dst value)
  emit (.jump meeting)

end Build

open Build

/-! ## Matches -/

mutual

/-- The types of the parts a pattern looks into, inner parts first. -/
def patternTypes (o : Occurrence) : Typed.Pattern → List (Occurrence × Ty)
  | .wildcard info | .binding info _ | .literal info _ => [(o, info.ty)]
  | .record info _ fields => fieldTypes o fields ++ [(o, info.ty)]

/-- The types of the parts that field patterns look into. -/
def fieldTypes (o : Occurrence) : List (Typed.Field Typed.Pattern) → List (Occurrence × Ty)
  | [] => []
  | ⟨_, _, index, p⟩ :: rest => patternTypes (o.child index) p ++ fieldTypes o rest

end

/-- The registers that hold parts of a scrutinee. -/
abbrev Parts := List (Occurrence × Reg)

/-- Loads parts of a scrutinee, each from the part it lies in. -/
def loadParts (id : MatchId) (root : Reg) (types : List (Occurrence × Ty)) (parts : Parts) :
    List Occurrence → Build Parts
  | [] => return parts
  | o :: rest =>
    match o.parent?, o.lastIndex? with
    | some parent, some index =>
      match parts.lookup parent, types.lookup o with
      | some object, some ty => do
        let r ← newRegister ty
        emit (.load r object index)
        loadParts id root types ((o, r) :: parts) rest
      | _, _ => fault (.unknownOccurrence id o)
    | _, _ => loadParts id root types ((o, root) :: parts) rest

/-- What the nodes of a decision tree share. An arm's guard is a computation, since it is built
once for every place that tries it. -/
structure Choice where
  function : Typed.Function
  id : MatchId
  parts : Parts
  guards : List (Option (Build (Operand Reg)))

/-- The blocks that arms have been given so far. -/
abbrev ArmBlocks := List (Option Label)

/-- The block of an arm, made when the arm is first reached. -/
def armBlock (arm : Nat) (blocks : ArmBlocks) : Build (Label × ArmBlocks) :=
  match blocks[arm]?.join with
  | some l => return (l, blocks)
  | none => do
    let l ← newBlock
    return (l, blocks.set arm (some l))

/-- The register of a part. -/
def Choice.part (c : Choice) (o : Occurrence) : Build Reg :=
  match c.parts.lookup o with
  | some r => return r
  | none => fault (.unknownOccurrence c.id o)

/-- Moves parts into the registers of the locals bound to them. -/
def Choice.bind (c : Choice) (bindings : List Binding) : Build Unit :=
  bindings.forM fun b => do
    let src ← c.part b.occurrence
    let dst ← bindLocal c.function b.id
    emit (.move dst (.reg src))

/-- Goes to the block of an arm. -/
def enterArm (arm : Nat) (blocks : ArmBlocks) : Build ArmBlocks := do
  let (l, blocks) ← armBlock arm blocks
  emit (.jump l)
  return blocks

/-- Compares a part with a literal, and gives the blocks for both outcomes. -/
def compareWith (part : Reg) (value : Literal) : Build (Label × Label) := do
  let condition ← newRegister .bool
  emit (.binary .eq condition (.reg part) (.imm value))
  let equal ← newBlock
  let other ← newBlock
  emit (.branch (.reg condition) equal other)
  return (equal, other)

mutual

/-- Builds a decision tree from the current block on. -/
def choose (c : Choice) (blocks : ArmBlocks) : Decision.Tree → Build ArmBlocks
  | .leaf arm bindings => do
    c.bind bindings
    enterArm arm blocks
  | .guard arm bindings fallback => do
    c.bind bindings
    match c.guards[arm]?.join with
    | none => enterArm arm blocks
    | some guard =>
      let condition ← guard
      let (body, blocks) ← armBlock arm blocks
      let next ← newBlock
      emit (.branch condition body next)
      switchTo next
      choose c blocks fallback
  | .test o branches none => do
    let part ← c.part o
    chooseLast c part blocks branches
  | .test o branches (some default) => do
    let part ← c.part o
    let blocks ← chooseAmong c part blocks branches
    choose c blocks default
  | .fail => fault .matchFailure

/-- Builds the branches of a test, and ends where none of them applies. -/
def chooseAmong (c : Choice) (part : Reg) (blocks : ArmBlocks) :
    List (Literal × Decision.Tree) → Build ArmBlocks
  | [] => return blocks
  | (value, tree) :: rest => do
    let (equal, other) ← compareWith part value
    switchTo equal
    let blocks ← choose c blocks tree
    switchTo other
    chooseAmong c part blocks rest

/-- Builds the branches of a test one of which must apply: the last one needs no comparison. -/
def chooseLast (c : Choice) (part : Reg) (blocks : ArmBlocks) :
    List (Literal × Decision.Tree) → Build ArmBlocks
  | [] => return blocks
  | [(_, tree)] => choose c blocks tree
  | (value, tree) :: rest => do
    let (equal, other) ← compareWith part value
    switchTo equal
    let blocks ← choose c blocks tree
    switchTo other
    chooseLast c part blocks rest

end

/-- Builds the bodies of the arms that have a block. -/
def armBodies (dst : Reg) (meeting : Label) :
    List (Build (Operand Reg)) → ArmBlocks → Build Unit
  | body :: bodies, some l :: blocks => do
    switchTo l
    join dst meeting (← body)
    armBodies dst meeting bodies blocks
  | _ :: bodies, none :: blocks => armBodies dst meeting bodies blocks
  | _, _ => return ()

/-- Builds a match, given its scrutinee and how to build its guards and bodies. -/
def buildMatch (f : Typed.Function) (decisions : Decisions) (info : Typed.Info) (id : MatchId)
    (scrutineeTy : Ty) (scrutinee : Build (Operand Reg)) (patterns : List Typed.Pattern)
    (guards : List (Option (Build (Operand Reg)))) (bodies : List (Build (Operand Reg))) :
    Build (Operand Reg) :=
  match decisions.lookup id with
  | none => fault (.missingTree id)
  | some tree => do
    let root ← inRegister scrutineeTy (← scrutinee)
    let types := (.root, scrutineeTy) :: patterns.flatMap (patternTypes .root)
    let parts ← loadParts id root types [] tree.occurrences
    let dst ← newRegister info.ty
    let meeting ← newBlock
    let choice : Choice := { function := f, id, parts, guards }
    let blocks ← choose choice (patterns.map fun _ => none) tree
    armBodies dst meeting bodies blocks
    switchTo meeting
    return .reg dst

/-! ## Expressions -/

/-- Numbers values from zero. -/
def indexed (values : List (Operand Reg)) : List (Nat × Operand Reg) :=
  values.zipIdx.map fun (v, i) => (i, v)

mutual

/-- **Builds an expression** and gives its value. -/
def build (f : Typed.Function) (decisions : Decisions) : Typed.Expr → Build (Operand Reg)
  | .literal _ value => return .imm value
  | .var _ id => return .reg (← readLocal id)
  | .function info name => do
    let r ← newRegister info.ty
    emit (.address r name)
    return .reg r
  | .letIn _ id value body => do
    let src ← build f decisions value
    let dst ← bindLocal f id
    emit (.move dst src)
    build f decisions body
  | .block _ items => buildBlock f decisions (.imm .unit) items
  | .ifThen _ condition positive => do
    let condition ← build f decisions condition
    let yes ← newBlock
    let meeting ← newBlock
    emit (.branch condition yes meeting)
    switchTo yes
    let _ ← build f decisions positive
    emit (.jump meeting)
    switchTo meeting
    return .imm .unit
  | .ifElse info condition positive negative => do
    let condition ← build f decisions condition
    let dst ← newRegister info.ty
    let yes ← newBlock
    let no ← newBlock
    let meeting ← newBlock
    emit (.branch condition yes no)
    switchTo yes
    join dst meeting (← build f decisions positive)
    switchTo no
    join dst meeting (← build f decisions negative)
    switchTo meeting
    return .reg dst
  | .record info name fields => do
    let values ← buildFields f decisions fields
    object info.ty (.record name fields.length) values
  | .field info target _ index => do
    let value ← build f decisions target
    let object ← inRegister target.ty value
    let r ← newRegister info.ty
    emit (.load r object index)
    return .reg r
  | .callFunction info symbol args => do
    let args ← buildList f decisions args
    let r ← newRegister info.ty
    emit (.call r (.direct symbol) args)
    return .reg r
  | .callMethod info _ _ symbol args => do
    let args ← buildList f decisions args
    let r ← newRegister info.ty
    emit (.call r (.direct symbol) args)
    return .reg r
  | .callValue info callee args => do
    let value ← build f decisions callee
    let callee ← inRegister callee.ty value
    let args ← buildList f decisions args
    let r ← newRegister info.ty
    emit (.call r (.indirect callee) args)
    return .reg r
  | .cases info id scrutinee arms =>
    buildMatch f decisions info id scrutinee.ty (build f decisions scrutinee)
      (arms.map (·.pattern)) (buildGuards f decisions arms) (buildBodies f decisions arms)
  | .list info elems => do
    let values ← buildList f decisions elems
    object info.ty (.list elems.length) (indexed values)
  | .binary _ .and lhs rhs => do
    let lhs ← build f decisions lhs
    let dst ← newRegister .bool
    emit (.move dst lhs)
    let second ← newBlock
    let meeting ← newBlock
    emit (.branch lhs second meeting)
    switchTo second
    join dst meeting (← build f decisions rhs)
    switchTo meeting
    return .reg dst
  | .binary _ .or lhs rhs => do
    let lhs ← build f decisions lhs
    let dst ← newRegister .bool
    emit (.move dst lhs)
    let second ← newBlock
    let meeting ← newBlock
    emit (.branch lhs meeting second)
    switchTo second
    join dst meeting (← build f decisions rhs)
    switchTo meeting
    return .reg dst
  | .binary info op lhs rhs => do
    let lhs ← build f decisions lhs
    let rhs ← build f decisions rhs
    let r ← newRegister info.ty
    emit (.binary op r lhs rhs)
    return .reg r
  | .unary info op operand => do
    let operand ← build f decisions operand
    let r ← newRegister info.ty
    emit (.unary op r operand)
    return .reg r

/-- Builds expressions from left to right. -/
def buildList (f : Typed.Function) (decisions : Decisions) :
    List Typed.Expr → Build (List (Operand Reg))
  | [] => return []
  | e :: rest => do
    let value ← build f decisions e
    return value :: (← buildList f decisions rest)

/-- Builds the expressions of a block and gives the value of the last one. -/
def buildBlock (f : Typed.Function) (decisions : Decisions) (last : Operand Reg) :
    List Typed.Expr → Build (Operand Reg)
  | [] => return last
  | e :: rest => do
    let value ← build f decisions e
    buildBlock f decisions value rest

/-- Builds field initializers in source order. -/
def buildFields (f : Typed.Function) (decisions : Decisions) :
    List (Typed.Field Typed.Expr) → Build (List (Nat × Operand Reg))
  | [] => return []
  | ⟨_, _, index, e⟩ :: rest => do
    let value ← build f decisions e
    return (index, value) :: (← buildFields f decisions rest)

/-- How to build the guards of arms. -/
def buildGuards (f : Typed.Function) (decisions : Decisions) :
    List (Typed.Arm Typed.Expr) → List (Option (Build (Operand Reg)))
  | [] => []
  | ⟨_, _, none, _⟩ :: rest => none :: buildGuards f decisions rest
  | ⟨_, _, some guard, _⟩ :: rest =>
    some (build f decisions guard) :: buildGuards f decisions rest

/-- How to build the bodies of arms. -/
def buildBodies (f : Typed.Function) (decisions : Decisions) :
    List (Typed.Arm Typed.Expr) → List (Build (Operand Reg))
  | [] => []
  | ⟨_, _, _, body⟩ :: rest => build f decisions body :: buildBodies f decisions rest

end

/-- Builds a whole body, with its parameters bound and its value returned. -/
def buildBody (f : Typed.Function) (decisions : Decisions) : Build (List Reg) := do
  let first ← newBlock
  switchTo first
  let params ← f.params.mapM (bindLocal f)
  let value ← build f decisions f.body
  emit (.ret value)
  return params

/-- **The flow function of a typed function**, given the trees of its matches. -/
def lower (f : Typed.Function) (decisions : Decisions) : Except Fault (Function Reg) := do
  let (params, b) ← buildBody f decisions {}
  match b.registers.find? Ty.isUnresolved with
  | some ty => throw (.unresolvedType ty)
  | none =>
    let blocks := b.blocks.map fun instrs => { instrs, preds := ∅ }
    let g : Function Reg := { name := f.name, params, registers := b.registers, blocks }
    return g.withPredecessors

end Sluice.Flow
