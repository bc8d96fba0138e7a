import Sluice.Source
import Sluice.Typed.Tree

/-!
# Typed programs as source

Writes a typed program back as source with every type spelled out. Checking
the result again finds the same types.
-/

namespace Sluice

open Source (Ident Named TypeExpr)

mutual

/-- A type as an annotation. -/
def Ty.spelled (span : Span) : Ty → TypeExpr
  | .list elem => .list span (elem.spelled span)
  | .fn params ret => .fn span (Ty.spelledList span params) (ret.spelled span)
  | .record name => .named span ⟨name, span⟩
  | .prim p => .named span ⟨p.text, span⟩
  | .var v => .named span ⟨(Ty.var v).text, span⟩
  | .error => .named span ⟨Ty.error.text, span⟩

/-- Several types as annotations. -/
def Ty.spelledList (span : Span) : List Ty → List TypeExpr
  | [] => []
  | t :: rest => t.spelled span :: Ty.spelledList span rest

end

namespace Typed

variable (locals : List Local)

/-- The name a local was bound under, where it was bound. -/
def localIdent (id : LocalId) : Ident :=
  ⟨(locals.getD id default).name, (locals.getD id default).span⟩

mutual

/-- A pattern as source. -/
def Pattern.source : Pattern → Source.Pattern
  | .wildcard info => .wildcard info.span
  | .binding info id => .binding info.span (localIdent locals id)
  | .literal info value => .literal info.span value
  | .record info name fields =>
    .record info.span ⟨name, info.span⟩ (Pattern.sourceFields fields)

/-- Field patterns as source. -/
def Pattern.sourceFields : List (Field Pattern) → List (Named Source.Pattern)
  | [] => []
  | ⟨span, name, _, p⟩ :: rest => ⟨span, ⟨name, span⟩, p.source⟩ :: Pattern.sourceFields rest

end

mutual

/-- An expression as source. -/
def Expr.source : Expr → Source.Expr
  | .literal info value => .literal info.span value
  | .var info id => .ident info.span ⟨(localIdent locals id).name, info.span⟩
  | .function info name => .ident info.span ⟨name, info.span⟩
  | .letIn info id value body =>
    let declared := locals.getD id default
    .letIn info.span (localIdent locals id) (some (declared.ty.spelled declared.span))
      value.source body.source
  | .block info items => .block info.span (Expr.sourceList items)
  | .ifThen info c p => .ifThen info.span c.source p.source
  | .ifElse info c p n => .ifElse info.span c.source p.source n.source
  | .record info name fields => .record info.span ⟨name, info.span⟩ (Expr.sourceFields fields)
  | .field info target name _ => .field info.span target.source ⟨name, info.span⟩
  | .callFunction info symbol args =>
    .call info.span (.ident info.span ⟨symbol, info.span⟩) (Expr.sourceList args)
  | .callMethod info _ _ _ [] => .literal info.span .unit
  | .callMethod info _ method _ (receiver :: args) =>
    .methodCall info.span receiver.source ⟨method, info.span⟩ (Expr.sourceList args)
  | .callValue info callee args => .call info.span callee.source (Expr.sourceList args)
  | .cases info _ scrutinee arms => .cases info.span scrutinee.source (Expr.sourceArms arms)
  | .list info elems => .list info.span (Expr.sourceList elems)
  | .binary info op lhs rhs => .binary info.span op lhs.source rhs.source
  | .unary info op operand => .unary info.span op operand.source

/-- Several expressions as source. -/
def Expr.sourceList : List Expr → List Source.Expr
  | [] => []
  | e :: rest => e.source :: Expr.sourceList rest

/-- Field initializers as source. -/
def Expr.sourceFields : List (Field Expr) → List (Named Source.Expr)
  | [] => []
  | ⟨span, name, _, e⟩ :: rest => ⟨span, ⟨name, span⟩, e.source⟩ :: Expr.sourceFields rest

/-- Match arms as source. -/
def Expr.sourceArms : List (Arm Expr) → List (Source.Arm Source.Expr)
  | [] => []
  | ⟨span, p, none, body⟩ :: rest =>
    ⟨span, p.source locals, none, body.source⟩ :: Expr.sourceArms rest
  | ⟨span, p, some guard, body⟩ :: rest =>
    ⟨span, p.source locals, some guard.source, body.source⟩ :: Expr.sourceArms rest

end

/-- A parameter with its type. -/
def paramSource (id : LocalId) : Named TypeExpr :=
  let declared := locals.getD id default
  ⟨declared.span, localIdent locals id, declared.ty.spelled declared.span⟩

/-- A function as a source definition. The receiver of a method is not written. -/
def Function.source (f : Function) : Source.Definition where
  span := f.span
  name :=
    match f.kind with
    | .free => ⟨f.name, f.span⟩
    | .method _ method => ⟨method, f.span⟩
  params :=
    match f.kind with
    | .free => f.params.map (paramSource f.locals)
    | .method _ _ => f.params.tail.map (paramSource f.locals)
  ret := some (f.ret.spelled f.span)
  body := f.body.source f.locals

/-- A record type as a source item. -/
def recordSource (r : RecordDecl) : Source.Item :=
  .record r.span ⟨r.name, r.span⟩ <|
    r.fields.map fun d => ⟨d.span, ⟨d.name, d.span⟩, d.ty.spelled d.span⟩

/-- Puts a function in front of source items. A method joins the block that follows it if that
block belongs to the same record, and the block starts where its first method does. -/
def prependFunction (f : Function) (items : List Source.Item) : List Source.Item :=
  match f.kind with
  | .free => .function f.span f.source :: items
  | .method record _ =>
    match items with
    | .methods _ owner methods :: rest =>
      if owner.name = record then
        .methods f.span ⟨record, f.span⟩ (f.source :: methods) :: rest
      else
        .methods f.span ⟨record, f.span⟩ [f.source] :: items
    | _ => .methods f.span ⟨record, f.span⟩ [f.source] :: items

/-- A typed program as source: the records, then the functions, with neighbouring methods of one
record in one block. -/
def Program.source (p : Program) : Source.Program :=
  p.records.records.map recordSource ++ p.functions.foldr prependFunction []

end Typed

end Sluice
