import Sluice.Typed.Tree

/-!
# The types of a function

Every type a function mentions, with the place it belongs to, in one fixed
order: the locals, the result, then the body from the outside in. Applying a
function to all types of a typed function follows the same shape.
-/

namespace Sluice.Typed

mutual

/-- The types of a pattern, the outermost first. -/
def Pattern.sites : Pattern → List Info
  | .wildcard info | .binding info _ | .literal info _ => [info]
  | .record info _ fields => info :: Pattern.fieldSites fields

/-- The types of the patterns of some fields. -/
def Pattern.fieldSites : List (Field Pattern) → List Info
  | [] => []
  | ⟨_, _, _, p⟩ :: rest => p.sites ++ Pattern.fieldSites rest

end

mutual

/-- The types of an expression: its own, then those of its parts in the order of evaluation. -/
def Expr.sites : Expr → List Info
  | .literal info _ | .var info _ | .function info _ => [info]
  | .letIn info _ value body => info :: (value.sites ++ body.sites)
  | .block info items => info :: Expr.listSites items
  | .ifThen info c p => info :: (c.sites ++ p.sites)
  | .ifElse info c p n => info :: (c.sites ++ p.sites ++ n.sites)
  | .record info _ fields => info :: Expr.fieldSites fields
  | .field info target _ _ => info :: target.sites
  | .callFunction info _ args => info :: Expr.listSites args
  | .callMethod info _ _ _ args => info :: Expr.listSites args
  | .callValue info callee args => info :: (callee.sites ++ Expr.listSites args)
  | .cases info _ scrutinee arms => info :: (scrutinee.sites ++ Expr.armSites arms)
  | .list info elems => info :: Expr.listSites elems
  | .binary info _ lhs rhs => info :: (lhs.sites ++ rhs.sites)
  | .unary info _ operand => info :: operand.sites

/-- The types of several expressions. -/
def Expr.listSites : List Expr → List Info
  | [] => []
  | e :: rest => e.sites ++ Expr.listSites rest

/-- The types of field initializers. -/
def Expr.fieldSites : List (Field Expr) → List Info
  | [] => []
  | ⟨_, _, _, e⟩ :: rest => e.sites ++ Expr.fieldSites rest

/-- The types of match arms: pattern, guard, body. -/
def Expr.armSites : List (Arm Expr) → List Info
  | [] => []
  | ⟨_, p, none, body⟩ :: rest => p.sites ++ body.sites ++ Expr.armSites rest
  | ⟨_, p, some guard, body⟩ :: rest =>
    p.sites ++ guard.sites ++ body.sites ++ Expr.armSites rest

end

/-- Every type of a function: locals, result, body. -/
def Function.sites (f : Function) : List Info :=
  f.locals.map (fun l => ⟨l.span, l.ty⟩) ++ ⟨f.span, f.ret⟩ :: f.body.sites

/-! ## Changing all types -/

/-- Applies a function to the type of a node. -/
def Info.mapTy (f : Ty → Ty) (info : Info) : Info :=
  { info with ty := f info.ty }

mutual

/-- Applies a function to all types of a pattern. -/
def Pattern.mapTy (f : Ty → Ty) : Pattern → Pattern
  | .wildcard info => .wildcard (info.mapTy f)
  | .binding info id => .binding (info.mapTy f) id
  | .literal info value => .literal (info.mapTy f) value
  | .record info name fields => .record (info.mapTy f) name (Pattern.mapFieldsTy f fields)

/-- Applies a function to all types of the patterns of some fields. -/
def Pattern.mapFieldsTy (f : Ty → Ty) : List (Field Pattern) → List (Field Pattern)
  | [] => []
  | ⟨span, name, index, p⟩ :: rest =>
    ⟨span, name, index, p.mapTy f⟩ :: Pattern.mapFieldsTy f rest

end

mutual

/-- Applies a function to all types of an expression. -/
def Expr.mapTy (f : Ty → Ty) : Expr → Expr
  | .literal info value => .literal (info.mapTy f) value
  | .var info id => .var (info.mapTy f) id
  | .function info name => .function (info.mapTy f) name
  | .letIn info id value body => .letIn (info.mapTy f) id (value.mapTy f) (body.mapTy f)
  | .block info items => .block (info.mapTy f) (Expr.mapListTy f items)
  | .ifThen info c p => .ifThen (info.mapTy f) (c.mapTy f) (p.mapTy f)
  | .ifElse info c p n => .ifElse (info.mapTy f) (c.mapTy f) (p.mapTy f) (n.mapTy f)
  | .record info name fields => .record (info.mapTy f) name (Expr.mapFieldsTy f fields)
  | .field info target name index => .field (info.mapTy f) (target.mapTy f) name index
  | .callFunction info symbol args =>
    .callFunction (info.mapTy f) symbol (Expr.mapListTy f args)
  | .callMethod info owner method symbol args =>
    .callMethod (info.mapTy f) owner method symbol (Expr.mapListTy f args)
  | .callValue info callee args =>
    .callValue (info.mapTy f) (callee.mapTy f) (Expr.mapListTy f args)
  | .cases info id scrutinee arms =>
    .cases (info.mapTy f) id (scrutinee.mapTy f) (Expr.mapArmsTy f arms)
  | .list info elems => .list (info.mapTy f) (Expr.mapListTy f elems)
  | .binary info op lhs rhs => .binary (info.mapTy f) op (lhs.mapTy f) (rhs.mapTy f)
  | .unary info op operand => .unary (info.mapTy f) op (operand.mapTy f)

/-- Applies a function to all types of several expressions. -/
def Expr.mapListTy (f : Ty → Ty) : List Expr → List Expr
  | [] => []
  | e :: rest => e.mapTy f :: Expr.mapListTy f rest

/-- Applies a function to all types of field initializers. -/
def Expr.mapFieldsTy (f : Ty → Ty) : List (Field Expr) → List (Field Expr)
  | [] => []
  | ⟨span, name, index, e⟩ :: rest => ⟨span, name, index, e.mapTy f⟩ :: Expr.mapFieldsTy f rest

/-- Applies a function to all types of match arms. -/
def Expr.mapArmsTy (f : Ty → Ty) : List (Arm Expr) → List (Arm Expr)
  | [] => []
  | ⟨span, p, none, body⟩ :: rest =>
    ⟨span, p.mapTy f, none, body.mapTy f⟩ :: Expr.mapArmsTy f rest
  | ⟨span, p, some guard, body⟩ :: rest =>
    ⟨span, p.mapTy f, some (guard.mapTy f), body.mapTy f⟩ :: Expr.mapArmsTy f rest

end

/-- Applies a function to all types of a function. -/
def Function.mapTy (g : Ty → Ty) (f : Function) : Function :=
  { f with
    locals := f.locals.map fun l => { l with ty := g l.ty }
    ret := g f.ret
    body := f.body.mapTy g }

end Sluice.Typed
