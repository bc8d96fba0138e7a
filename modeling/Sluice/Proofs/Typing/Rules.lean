import Mathlib.Data.List.Nodup
import Sluice.Proofs.Typing.Values
import Sluice.Source
import Sluice.Typed.Sites

/-!
# Typing rules

What it means for a typed program to be well typed, one rule for each form of
expression and pattern, and what it means for a typed expression to be a typed
form of a source expression. Nothing here says how types are found.

Rules are read in a program, which gives the records and the functions to call,
under the locals of the function at hand and the locals in scope.
-/

namespace Sluice

namespace Typed

/-! ## Binders and matches -/

mutual

/-- The locals a pattern binds, from left to right. -/
def Pattern.binders : Pattern → List LocalId
  | .wildcard _ | .literal _ _ => []
  | .binding _ id => [id]
  | .record _ _ fields => Pattern.fieldBinders fields

/-- The locals that the patterns of some fields bind. -/
def Pattern.fieldBinders : List (Field Pattern) → List LocalId
  | [] => []
  | ⟨_, _, _, p⟩ :: rest => p.binders ++ Pattern.fieldBinders rest

end

mutual

/-- The locals bound in an expression, in the order they are met. -/
def Expr.binders : Expr → List LocalId
  | .literal _ _ | .var _ _ | .function _ _ => []
  | .letIn _ id value body => value.binders ++ id :: body.binders
  | .block _ items | .list _ items => Expr.listBinders items
  | .ifThen _ c p => c.binders ++ p.binders
  | .ifElse _ c p n => c.binders ++ (p.binders ++ n.binders)
  | .record _ _ fields => Expr.fieldBinders fields
  | .field _ target _ _ => target.binders
  | .callFunction _ _ args | .callMethod _ _ _ _ args => Expr.listBinders args
  | .callValue _ callee args => callee.binders ++ Expr.listBinders args
  | .cases _ _ scrutinee arms => scrutinee.binders ++ Expr.armBinders arms
  | .binary _ _ lhs rhs => lhs.binders ++ rhs.binders
  | .unary _ _ operand => operand.binders

/-- The locals bound in several expressions. -/
def Expr.listBinders : List Expr → List LocalId
  | [] => []
  | e :: rest => e.binders ++ Expr.listBinders rest

/-- The locals bound in field initializers. -/
def Expr.fieldBinders : List (Field Expr) → List LocalId
  | [] => []
  | ⟨_, _, _, e⟩ :: rest => e.binders ++ Expr.fieldBinders rest

/-- The locals bound in match arms. -/
def Expr.armBinders : List (Arm Expr) → List LocalId
  | [] => []
  | ⟨_, p, none, body⟩ :: rest => p.binders ++ (body.binders ++ Expr.armBinders rest)
  | ⟨_, p, some guard, body⟩ :: rest =>
    p.binders ++ (guard.binders ++ (body.binders ++ Expr.armBinders rest))

end

mutual

/-- The matches in an expression, an inner one before the one it is part of. -/
def Expr.matchIds : Expr → List MatchId
  | .literal _ _ | .var _ _ | .function _ _ => []
  | .letIn _ _ value body => value.matchIds ++ body.matchIds
  | .block _ items | .list _ items => Expr.listMatchIds items
  | .ifThen _ c p => c.matchIds ++ p.matchIds
  | .ifElse _ c p n => c.matchIds ++ (p.matchIds ++ n.matchIds)
  | .record _ _ fields => Expr.fieldMatchIds fields
  | .field _ target _ _ => target.matchIds
  | .callFunction _ _ args | .callMethod _ _ _ _ args => Expr.listMatchIds args
  | .callValue _ callee args => callee.matchIds ++ Expr.listMatchIds args
  | .cases _ id scrutinee arms => scrutinee.matchIds ++ (Expr.armMatchIds arms ++ [id])
  | .binary _ _ lhs rhs => lhs.matchIds ++ rhs.matchIds
  | .unary _ _ operand => operand.matchIds

/-- The matches in several expressions. -/
def Expr.listMatchIds : List Expr → List MatchId
  | [] => []
  | e :: rest => e.matchIds ++ Expr.listMatchIds rest

/-- The matches in field initializers. -/
def Expr.fieldMatchIds : List (Field Expr) → List MatchId
  | [] => []
  | ⟨_, _, _, e⟩ :: rest => e.matchIds ++ Expr.fieldMatchIds rest

/-- The matches in match arms. -/
def Expr.armMatchIds : List (Arm Expr) → List MatchId
  | [] => []
  | ⟨_, _, none, body⟩ :: rest => body.matchIds ++ Expr.armMatchIds rest
  | ⟨_, _, some guard, body⟩ :: rest =>
    guard.matchIds ++ (body.matchIds ++ Expr.armMatchIds rest)

end

/-! ## Uses of names -/

/-- A name in an expression, as what it was taken for: a local where it is bound, a local or a free
function. With these come the locals whose binders enclose the place, the closest first. -/
inductive Use where
  | binder (id : LocalId)
  | var (enclosing : List LocalId) (id : LocalId)
  | function (enclosing : List LocalId) (name : String)
  deriving DecidableEq, Repr

/-- **What a name stands for,** given the names of all locals: a local is bound under its name, it is
the closest one of that name, and a function is meant only where no enclosing local has the name. -/
def Use.StandsFor (names : List String) (name : String) : Use → Prop
  | .binder id => names[id]? = some name
  | .var enclosing id => ∃ closer farther, enclosing = closer ++ id :: farther ∧
      names[id]? = some name ∧ ∀ i ∈ closer, names[i]? ≠ some name
  | .function enclosing symbol => symbol = name ∧ ∀ i ∈ enclosing, names[i]? ≠ some name

mutual

/-- The names in an expression, in the order they are met. A direct call uses the name of the
function it calls. -/
def Expr.uses (enclosing : List LocalId) : Expr → List Use
  | .literal _ _ => []
  | .var _ id => [.var enclosing id]
  | .function _ name => [.function enclosing name]
  | .letIn _ id value body => value.uses enclosing ++ .binder id :: body.uses (id :: enclosing)
  | .block _ items | .list _ items | .callMethod _ _ _ _ items => Expr.listUses enclosing items
  | .ifThen _ c p => c.uses enclosing ++ p.uses enclosing
  | .ifElse _ c p n => c.uses enclosing ++ (p.uses enclosing ++ n.uses enclosing)
  | .record _ _ fields => Expr.fieldUses enclosing fields
  | .field _ target _ _ => target.uses enclosing
  | .callFunction _ symbol args => .function enclosing symbol :: Expr.listUses enclosing args
  | .callValue _ callee args => callee.uses enclosing ++ Expr.listUses enclosing args
  | .cases _ _ scrutinee arms => scrutinee.uses enclosing ++ Expr.armUses enclosing arms
  | .binary _ _ lhs rhs => lhs.uses enclosing ++ rhs.uses enclosing
  | .unary _ _ operand => operand.uses enclosing

/-- The names used in several expressions. -/
def Expr.listUses (enclosing : List LocalId) : List Expr → List Use
  | [] => []
  | e :: rest => e.uses enclosing ++ Expr.listUses enclosing rest

/-- The names used in field initializers. -/
def Expr.fieldUses (enclosing : List LocalId) : List (Field Expr) → List Use
  | [] => []
  | ⟨_, _, _, e⟩ :: rest => e.uses enclosing ++ Expr.fieldUses enclosing rest

/-- The names used in match arms. Guard and body are enclosed by the binders of the pattern. -/
def Expr.armUses (enclosing : List LocalId) : List (Arm Expr) → List Use
  | [] => []
  | ⟨_, p, none, body⟩ :: rest => p.binders.map .binder ++
      (body.uses (p.binders.reverse ++ enclosing) ++ Expr.armUses enclosing rest)
  | ⟨_, p, some guard, body⟩ :: rest => p.binders.map .binder ++
      (guard.uses (p.binders.reverse ++ enclosing) ++
        (body.uses (p.binders.reverse ++ enclosing) ++ Expr.armUses enclosing rest))

end

/-! ## Patterns -/

/-- A local has a type. -/
def HasLocal (locals : List Local) (id : LocalId) (ty : Ty) : Prop :=
  ∃ l, locals[id]? = some l ∧ l.ty = ty

/-- A declared field of a record stands at an index. -/
def IsField (r : RecordDecl) (name : String) (index : Nat) (d : FieldDecl) : Prop :=
  r.fields[index]? = some d ∧ d.name = name

mutual

/-- **A pattern is well typed** for the values of a type. -/
def Pattern.WellTyped (records : RecordTable) (locals : List Local) (ty : Ty) : Pattern → Prop
  | .wildcard info => info.ty = ty
  | .binding info id => info.ty = ty ∧ HasLocal locals id ty
  | .literal info value => info.ty = ty ∧ ty = value.ty
  | .record info name fields => info.ty = ty ∧ ty = .record name ∧
      (fields.map (·.index)).Nodup ∧
      ∃ r, records.get? name = some r ∧ Pattern.WellTypedFields records locals r fields

/-- Field patterns are at declared fields and well typed for their types. -/
def Pattern.WellTypedFields (records : RecordTable) (locals : List Local) (r : RecordDecl) :
    List (Field Pattern) → Prop
  | [] => True
  | ⟨_, name, index, p⟩ :: rest =>
    (∃ d, IsField r name index d ∧ p.WellTyped records locals d.ty) ∧
      Pattern.WellTypedFields records locals r rest

end

/-! ## Expressions -/

/-- A function that can be called: the one of a kind and symbol. -/
def Program.Declares (p : Program) (kind : Kind) (symbol : String) (params : List Ty) (ret : Ty) :
    Prop :=
  ∃ f ∈ p.functions, f.kind = kind ∧ f.name = symbol ∧ f.paramTypes = params ∧ f.ret = ret

/-- The types an operator takes and gives. -/
def BinaryRule (op : BinaryOp) (lhs rhs result : Ty) : Prop :=
  match op.opClass with
  | .arithmetic => lhs = .int ∧ rhs = .int ∧ result = .int
  | .comparison => lhs = .int ∧ rhs = .int ∧ result = .bool
  | .logical => lhs = .bool ∧ rhs = .bool ∧ result = .bool
  | .equality => lhs = rhs ∧ result = .bool

/-- The type a unary operator takes and gives. -/
def UnaryRule (op : UnaryOp) (operand result : Ty) : Prop :=
  match op with
  | .not => operand = .bool ∧ result = .bool
  | .neg => operand = .int ∧ result = .int

mutual

/-- **An expression is well typed** where some locals are in scope. -/
def Expr.WellTyped (p : Program) (locals : List Local) : List LocalId → Expr → Prop
  | _, .literal info value => info.ty = value.ty
  | scope, .var info id => id ∈ scope ∧ HasLocal locals id info.ty
  | _, .function info name =>
    ∃ params ret, p.Declares .free name params ret ∧ info.ty = .fn params ret
  | scope, .letIn info id value body =>
    HasLocal locals id value.ty ∧ info.ty = body.ty ∧ value.WellTyped p locals scope ∧
      body.WellTyped p locals (id :: scope)
  | scope, .block info items =>
    info.ty = items.getLast?.elim .unit (·.ty) ∧ Expr.WellTypedList p locals scope items
  | scope, .ifThen info c a =>
    info.ty = .unit ∧ c.ty = .bool ∧ a.ty = .unit ∧ c.WellTyped p locals scope ∧
      a.WellTyped p locals scope
  | scope, .ifElse info c a b =>
    c.ty = .bool ∧ a.ty = info.ty ∧ b.ty = info.ty ∧ c.WellTyped p locals scope ∧
      a.WellTyped p locals scope ∧ b.WellTyped p locals scope
  | scope, .record info name fields =>
    info.ty = .record name ∧ ∃ r, p.records.get? name = some r ∧
      (fields.map (·.index)).Perm (List.range r.fields.length) ∧
      Expr.WellTypedFields p locals scope r fields
  | scope, .field info target name index =>
    (∃ owner r d, target.ty = .record owner ∧ p.records.get? owner = some r ∧
      IsField r name index d ∧ info.ty = d.ty) ∧ target.WellTyped p locals scope
  | scope, .callFunction info symbol args =>
    p.Declares .free symbol (args.map (·.ty)) info.ty ∧ Expr.WellTypedList p locals scope args
  | scope, .callMethod info owner method symbol args =>
    symbol = methodSymbol owner method ∧ (args.head?.map (·.ty) = some (.record owner)) ∧
      p.Declares (.method owner method) symbol (args.map (·.ty)) info.ty ∧
      Expr.WellTypedList p locals scope args
  | scope, .callValue info callee args =>
    callee.ty = .fn (args.map (·.ty)) info.ty ∧ callee.WellTyped p locals scope ∧
      Expr.WellTypedList p locals scope args
  | scope, .cases info _ scrutinee arms =>
    scrutinee.WellTyped p locals scope ∧
      Expr.WellTypedArms p locals scope scrutinee.ty info.ty arms
  | scope, .list info elems =>
    (∃ elem, info.ty = .list elem ∧ ∀ ty ∈ elems.map (·.ty), ty = elem) ∧
      Expr.WellTypedList p locals scope elems
  | scope, .binary info op lhs rhs =>
    BinaryRule op lhs.ty rhs.ty info.ty ∧ lhs.WellTyped p locals scope ∧
      rhs.WellTyped p locals scope
  | scope, .unary info op operand =>
    UnaryRule op operand.ty info.ty ∧ operand.WellTyped p locals scope

/-- Several expressions are well typed. -/
def Expr.WellTypedList (p : Program) (locals : List Local) : List LocalId → List Expr → Prop
  | _, [] => True
  | scope, e :: rest => e.WellTyped p locals scope ∧ Expr.WellTypedList p locals scope rest

/-- Field initializers are at declared fields and have their types. -/
def Expr.WellTypedFields (p : Program) (locals : List Local) :
    List LocalId → RecordDecl → List (Field Expr) → Prop
  | _, _, [] => True
  | scope, r, ⟨_, name, index, e⟩ :: rest =>
    (∃ d, IsField r name index d ∧ e.ty = d.ty) ∧ e.WellTyped p locals scope ∧
      Expr.WellTypedFields p locals scope r rest

/-- Match arms are well typed for a type of scrutinee and of result. Guard and body see the
locals of the pattern. -/
def Expr.WellTypedArms (p : Program) (locals : List Local) :
    List LocalId → Ty → Ty → List (Arm Expr) → Prop
  | _, _, _, [] => True
  | scope, ty, result, ⟨_, pattern, none, body⟩ :: rest =>
    pattern.WellTyped p.records locals ty ∧ body.ty = result ∧
      body.WellTyped p locals (pattern.binders ++ scope) ∧
      Expr.WellTypedArms p locals scope ty result rest
  | scope, ty, result, ⟨_, pattern, some guard, body⟩ :: rest =>
    pattern.WellTyped p.records locals ty ∧ guard.ty = .bool ∧ body.ty = result ∧
      guard.WellTyped p locals (pattern.binders ++ scope) ∧
      body.WellTyped p locals (pattern.binders ++ scope) ∧
      Expr.WellTypedArms p locals scope ty result rest

end

/-- The patterns of well typed arms are well typed. -/
theorem Expr.WellTypedArms.pattern {p scope ty result a locals} : ∀ {arms},
      Expr.WellTypedArms p locals scope ty result arms → a ∈ arms →
      a.pattern.WellTyped p.records locals ty
  | [], _, ha => nomatch ha
  | ⟨_, _, none, _⟩ :: rest, h, ha => by
    rcases List.mem_cons.1 ha with rfl | ha
    · exact h.1
    · exact pattern h.2.2.2 ha
  | ⟨_, _, some _, _⟩ :: rest, h, ha => by
    rcases List.mem_cons.1 ha with rfl | ha
    · exact h.1
    · exact pattern h.2.2.2.2.2 ha

/-- **A function is well typed:** all its types are known, its locals are its parameters and what
its body binds, each once and in order, its matches are numbered, and the body is well typed
under the parameters and has the result type. -/
structure Function.WellTyped (p : Program) (f : Function) : Prop where
  resolved : ∀ site ∈ f.sites, site.ty.isUnresolved = false
  locals_eq : f.params ++ f.body.binders = List.range f.locals.length
  matches_eq : f.body.matchIds = List.range f.matchCount
  body_typed : f.body.WellTyped p f.locals f.params
  body_ty : f.body.ty = f.ret

end Typed

/-! ## Typed forms of source -/

namespace Source

open Typed (Local HasLocal)

mutual

/-- **An annotation allows a type:** it names it, or leaves the element type of a list open. -/
def TypeExpr.Allows (records : RecordTable) : TypeExpr → Ty → Prop
  | .named _ name, ty =>
    if name.name = "list" then
      ∃ elem, ty = .list elem
    else
      match Prim.ofText? name.name with
      | some p => ty = .prim p
      | none => records.contains name.name = true ∧ ty = .record name.name
  | .list _ a, ty => ∃ elem, ty = .list elem ∧ a.Allows records elem
  | .bareList _, ty => ∃ elem, ty = .list elem
  | .fn _ params result, ty =>
    ∃ tys ret, ty = .fn tys ret ∧ TypeExpr.AllowsList records params tys ∧
      result.Allows records ret

/-- Several annotations allow several types. -/
def TypeExpr.AllowsList (records : RecordTable) : List TypeExpr → List Ty → Prop
  | [], tys => tys = []
  | a :: rest, tys =>
    ∃ ty others, tys = ty :: others ∧ a.Allows records ty ∧ TypeExpr.AllowsList records rest others

end

/-- A local was declared under a name. -/
def Names (locals : List Local) (id : Typed.LocalId) (name : String) : Prop :=
  ∃ l, locals[id]? = some l ∧ l.name = name

mutual

/-- A typed pattern is a typed form of a source pattern. -/
def Pattern.TypedAs (locals : List Local) : Pattern → Typed.Pattern → Prop
  | .wildcard _, .wildcard _ => True
  | .binding _ name, .binding _ id => Names locals id name.name
  | .literal _ value, .literal _ value' => value' = value
  | .record _ name fields, .record _ name' fields' =>
    name' = name.name ∧ Pattern.TypedAsFields locals fields fields'
  | _, _ => False

/-- Field patterns have typed forms, one each. -/
def Pattern.TypedAsFields (locals : List Local) :
    List (Named Pattern) → List (Typed.Field Typed.Pattern) → Prop
  | [], [] => True
  | ⟨_, name, p⟩ :: rest, ⟨_, name', _, p'⟩ :: rest' =>
    name' = name.name ∧ p.TypedAs locals p' ∧ Pattern.TypedAsFields locals rest rest'
  | _, _ => False

end

mutual

/-- **A typed expression is a typed form of a source expression:** it has the same shape and
names, and an annotated `let` has a type that its annotation allows. -/
def Expr.TypedAs (records : RecordTable) (locals : List Local) : Expr → Typed.Expr → Prop
  | .literal _ value, .literal _ value' => value' = value
  | .ident _ name, .var _ id => Names locals id name.name
  | .ident _ name, .function _ name' => name' = name.name
  | .letIn _ name annotation value body, .letIn _ id value' body' =>
    Names locals id name.name ∧
      (∀ a, annotation = some a → ∃ ty, HasLocal locals id ty ∧ a.Allows records ty) ∧
      value.TypedAs records locals value' ∧ body.TypedAs records locals body'
  | .block _ items, .block _ items' => Expr.TypedAsList records locals items items'
  | .ifThen _ c a, .ifThen _ c' a' => c.TypedAs records locals c' ∧ a.TypedAs records locals a'
  | .ifElse _ c a b, .ifElse _ c' a' b' =>
    c.TypedAs records locals c' ∧ a.TypedAs records locals a' ∧ b.TypedAs records locals b'
  | .record _ name fields, .record _ name' fields' =>
    name' = name.name ∧ Expr.TypedAsFields records locals fields fields'
  | .field _ target name, .field _ target' name' _ =>
    name' = name.name ∧ target.TypedAs records locals target'
  | .call _ target args, .callFunction _ symbol args' =>
    (∃ span name, target = .ident span name ∧ name.name = symbol) ∧
      Expr.TypedAsList records locals args args'
  | .call _ target args, .callValue _ callee args' =>
    target.TypedAs records locals callee ∧ Expr.TypedAsList records locals args args'
  | .methodCall _ receiver name args, .callMethod _ _ method _ (receiver' :: args') =>
    method = name.name ∧ receiver.TypedAs records locals receiver' ∧
      Expr.TypedAsList records locals args args'
  | .methodCall _ receiver name args, .callValue _ (.field _ receiver' member _) args' =>
    member = name.name ∧ receiver.TypedAs records locals receiver' ∧
      Expr.TypedAsList records locals args args'
  | .cases _ scrutinee arms, .cases _ _ scrutinee' arms' =>
    scrutinee.TypedAs records locals scrutinee' ∧ Expr.TypedAsArms records locals arms arms'
  | .list _ elems, .list _ elems' => Expr.TypedAsList records locals elems elems'
  | .binary _ op lhs rhs, .binary _ op' lhs' rhs' =>
    op' = op ∧ lhs.TypedAs records locals lhs' ∧ rhs.TypedAs records locals rhs'
  | .unary _ op operand, .unary _ op' operand' =>
    op' = op ∧ operand.TypedAs records locals operand'
  | _, _ => False

/-- Expressions have typed forms, one each. -/
def Expr.TypedAsList (records : RecordTable) (locals : List Local) :
    List Expr → List Typed.Expr → Prop
  | [], [] => True
  | e :: rest, e' :: rest' =>
    e.TypedAs records locals e' ∧ Expr.TypedAsList records locals rest rest'
  | _, _ => False

/-- Field initializers have typed forms, one each. -/
def Expr.TypedAsFields (records : RecordTable) (locals : List Local) :
    List (Named Expr) → List (Typed.Field Typed.Expr) → Prop
  | [], [] => True
  | ⟨_, name, e⟩ :: rest, ⟨_, name', _, e'⟩ :: rest' =>
    name' = name.name ∧ e.TypedAs records locals e' ∧
      Expr.TypedAsFields records locals rest rest'
  | _, _ => False

/-- Match arms have typed forms, one each. -/
def Expr.TypedAsArms (records : RecordTable) (locals : List Local) :
    List (Arm Expr) → List (Typed.Arm Typed.Expr) → Prop
  | [], [] => True
  | ⟨_, p, none, body⟩ :: rest, ⟨_, p', none, body'⟩ :: rest' =>
    p.TypedAs locals p' ∧ body.TypedAs records locals body' ∧
      Expr.TypedAsArms records locals rest rest'
  | ⟨_, p, some guard, body⟩ :: rest, ⟨_, p', some guard', body'⟩ :: rest' =>
    p.TypedAs locals p' ∧ guard.TypedAs records locals guard' ∧
      body.TypedAs records locals body' ∧ Expr.TypedAsArms records locals rest rest'
  | _, _ => False

end

mutual

/-- The names that a pattern binds, from left to right. -/
def Pattern.idents : Pattern → List String
  | .wildcard _ | .literal _ _ => []
  | .binding _ name => [name.name]
  | .record _ _ fields => Pattern.fieldIdents fields

/-- The names that the patterns of some fields bind. -/
def Pattern.fieldIdents : List (Named Pattern) → List String
  | [] => []
  | ⟨_, _, p⟩ :: rest => p.idents ++ Pattern.fieldIdents rest

end

mutual

/-- The names in an expression that bind or stand for locals and free functions, in order. -/
def Expr.idents : Expr → List String
  | .literal _ _ => []
  | .ident _ name => [name.name]
  | .letIn _ name _ value body => value.idents ++ name.name :: body.idents
  | .block _ items | .list _ items => Expr.listIdents items
  | .ifThen _ c p => c.idents ++ p.idents
  | .ifElse _ c p n => c.idents ++ (p.idents ++ n.idents)
  | .record _ _ fields => Expr.fieldIdents fields
  | .field _ target _ => target.idents
  | .call _ target args | .methodCall _ target _ args => target.idents ++ Expr.listIdents args
  | .cases _ scrutinee arms => scrutinee.idents ++ Expr.armIdents arms
  | .binary _ _ lhs rhs => lhs.idents ++ rhs.idents
  | .unary _ _ operand => operand.idents

/-- The names in several expressions. -/
def Expr.listIdents : List Expr → List String
  | [] => []
  | e :: rest => e.idents ++ Expr.listIdents rest

/-- The names in field initializers. -/
def Expr.fieldIdents : List (Named Expr) → List String
  | [] => []
  | ⟨_, _, e⟩ :: rest => e.idents ++ Expr.fieldIdents rest

/-- The names in match arms. -/
def Expr.armIdents : List (Arm Expr) → List String
  | [] => []
  | ⟨_, p, none, body⟩ :: rest => p.idents ++ (body.idents ++ Expr.armIdents rest)
  | ⟨_, p, some guard, body⟩ :: rest =>
    p.idents ++ (guard.idents ++ (body.idents ++ Expr.armIdents rest))

end

/-- **A function resolves the names of a body:** its locals are its parameters and what is bound
in it, each once and in order, so are its matches numbered, and every name in the body stands for
what it was taken for. -/
structure Expr.ScopedAs (body : Expr) (f : Typed.Function) : Prop where
  locals_eq : f.params ++ f.body.binders = List.range f.locals.length
  matches_eq : f.body.matchIds = List.range f.matchCount
  uses_stand : List.Forall₂ (Typed.Use.StandsFor (f.locals.map (·.name))) body.idents
    (f.body.uses f.params.reverse)

/-- The symbol a definition is known under. -/
def Definition.symbol (d : Definition) : Typed.Kind → String
  | .free => d.name.name
  | .method record method => methodSymbol record method

/-- The receiver of a method, as a name and a type in front of the parameters. -/
def receiver : Typed.Kind → List (String × Ty)
  | .free => []
  | .method record _ => [("self", .record record)]

/-- **A typed function is the typed form of a definition:** it has its name, the parameters behind
the receiver have types that their annotations allow, so has the result if it is annotated, and
its body is a typed form of the body. -/
structure Definition.TypedAs (records : RecordTable) (kind : Typed.Kind) (d : Definition)
    (f : Typed.Function) : Prop where
  kind_eq : f.kind = kind
  name_eq : f.name = d.symbol kind
  param_names : List.Forall₂ (Names f.locals) f.params
    ((receiver kind).map (·.1) ++ d.params.map (·.name.name))
  param_types : ∃ tys, f.paramTypes = (receiver kind).map (·.2) ++ tys ∧
    TypeExpr.AllowsList records (d.params.map (·.value)) tys
  ret_allowed : ∀ a, d.ret = some a → a.Allows records f.ret
  body_typed : d.body.TypedAs records f.locals f.body

/-- The functions and methods an item defines, with their kinds. -/
def Item.definitions : Item → List (Typed.Kind × Definition)
  | .record _ _ _ => []
  | .function _ d => [(.free, d)]
  | .methods _ owner defs => defs.map fun d => (.method owner.name d.name.name, d)

/-- The functions and methods of a program, in order. -/
def Program.definitions (program : Program) : List (Typed.Kind × Definition) :=
  program.flatMap Item.definitions

end Source

end Sluice
