import Sluice.Unify.Table

/-!
# Unification

Types are read through the table: a variable stands for the binding of its
set, or for the root of the set while there is none. `unify` makes two types
equal by binding and merging variables, or says why that is impossible.

Recursion is bounded by quantities of the table. A chain of bindings passes
no set twice, so reading a variable takes at most as many hops as there are
variables. The bound of `unify` is explained at `Table.unifyDepth`.
-/

namespace Sluice.Unify

/-- Why two types cannot be made equal. -/
inductive Clash where
  | mismatch (expected found : Ty)
  | infinite (v : TyVar) (ty : Ty)
  deriving DecidableEq, Repr

namespace Table

/-- What a variable stands for, down to the first type that is not a bound variable. -/
def shallowVar (t : Table) : (hops : Nat) → TyVar → Ty
  | 0, v => .var (t.root v)
  | hops + 1, v =>
    match t.binding? v with
    | none => .var (t.root v)
    | some (.var w) => t.shallowVar hops w
    | some ty => ty

/-- A type with its outermost constructor known: a free variable is shown as its root. -/
def shallow (t : Table) : Ty → Ty
  | .var v => t.shallowVar t.size v
  | ty => ty

/-- What a variable stands for, with all bindings applied. -/
def resolveVar (t : Table) : (hops : Nat) → TyVar → Ty
  | 0, v => .var (t.root v)
  | hops + 1, v =>
    match t.binding? v with
    | none => .var (t.root v)
    | some ty => ty.subst (t.resolveVar hops)

/-- A type with all bindings applied. -/
def resolve (t : Table) (ty : Ty) : Ty :=
  ty.subst (t.resolveVar t.size)

/-- Whether a root occurs in a type read through the table. -/
def occurs (t : Table) (root : TyVar) (ty : Ty) : Bool :=
  (t.resolve ty).vars.contains root

/-- The mismatch of two types, as they are known now. -/
def mismatch (t : Table) (expected found : Ty) : Clash :=
  .mismatch (t.resolve expected) (t.resolve found)

/-- The greatest height of a type bound in the table. -/
def bindingHeight (t : Table) : Nat :=
  t.bindings.foldl (fun h b => max h (b.elim 0 Ty.height)) 0

/-- How deep `unify` can recurse. With `n` variables and no type higher than `h`, a type read
through the table is at most `(n + 1) * h` high, and unifying only ever binds to parts of types
that are there already. Going down without a change to the table loses height; every change
takes away one of at most `n` free sets. -/
def unifyDepth (t : Table) (expected found : Ty) : Nat :=
  (t.size + 1) * (t.size + 1) * max t.bindingHeight (max expected.height found.height) + 1

end Table

/-- A computation on the table that can end in a clash. What it did before the clash stays. -/
abbrev Solve := EStateM Clash Table

/-- Binds a free variable, given as its root, to a type that it does not occur in. -/
def bindRoot (root : TyVar) (ty : Ty) : Solve Unit := fun t =>
  if t.occurs root ty then .error (.infinite root (t.resolve ty)) t else .ok () (t.bind root ty)

/-- Shows a mismatch inside two types as the mismatch of the whole types. -/
def widened (expected found : Ty) (act : Solve Unit) : Solve Unit := fun t =>
  match act t with
  | .ok _ t => .ok () t
  | .error (.mismatch _ _) t => .error (t.mismatch expected found) t
  | .error clash t => .error clash t

/-- Unifies two lists of types from left to right. -/
def eachPair (unify : Ty → Ty → Solve Unit) : List Ty → List Ty → Solve Unit
  | a :: as, b :: bs => do
    unify a b
    eachPair unify as bs
  | _, _ => pure ()

/-- Unifies two types with recursion up to a given depth. -/
def unifyUpTo : (depth : Nat) → Ty → Ty → Solve Unit
  | 0, expected, found => fun t => .error (t.mismatch expected found) t
  | depth + 1, expected, found => fun t =>
    match t.shallow expected, t.shallow found with
    | .var a, .var b => .ok () (t.union a b).2
    | .var a, ty => bindRoot a ty t
    | ty, .var b => bindRoot b ty t
    | .error, _ => .ok () t
    | _, .error => .ok () t
    | .list a, .list b => widened (.list a) (.list b) (unifyUpTo depth a b) t
    | .fn ps r, .fn qs s =>
      if ps.length = qs.length then
        widened (.fn ps r) (.fn qs s)
          (do eachPair (unifyUpTo depth) ps qs; unifyUpTo depth r s) t
      else
        .error (t.mismatch (.fn ps r) (.fn qs s)) t
    | a, b => if a = b then .ok () t else .error (t.mismatch a b) t

/-- **Makes two types equal** by binding and merging variables. The error type agrees with every
type, since it has been reported already. -/
def unify (expected found : Ty) : Solve Unit := fun t =>
  unifyUpTo (t.unifyDepth expected found) expected found t

/-- Binds the variables that are free in a type to the error type. -/
def Table.poison (t : Table) (ty : Ty) : Table :=
  (t.resolve ty).vars.foldl (fun t v => t.bind v .error) t

end Sluice.Unify
