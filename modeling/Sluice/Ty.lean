import Sluice.Prim

/-!
# Types

A type is a primitive, a list, a record by name, a function, a type variable
still to be inferred, or the error type, which stands for a type that could
not be determined and about which an error has been reported already.
-/

namespace Sluice

/-- A type variable, numbered in the order of creation. -/
abbrev TyVar := Nat

/-- A type. Records are told apart by name. -/
inductive Ty where
  | prim (p : Prim)
  | list (elem : Ty)
  | record (name : String)
  | fn (params : List Ty) (ret : Ty)
  | var (v : TyVar)
  | error
  deriving Repr, Inhabited

namespace Ty

/-- The type of integers. -/
abbrev int : Ty := prim .int

/-- The type of booleans. -/
abbrev bool : Ty := prim .bool

/-- The type of strings. -/
abbrev str : Ty := prim .str

/-- The type of the unit value. -/
abbrev unit : Ty := prim .unit

mutual

/-- Equality of types is decidable. -/
def decEq : (a b : Ty) → Decidable (a = b)
  | prim p, prim q =>
    if h : p = q then isTrue (h ▸ rfl) else isFalse fun e => h (prim.inj e)
  | list a, list b =>
    match decEq a b with
    | isTrue h => isTrue (h ▸ rfl)
    | isFalse h => isFalse fun e => h (list.inj e)
  | record a, record b =>
    if h : a = b then isTrue (h ▸ rfl) else isFalse fun e => h (record.inj e)
  | fn ps r, fn qs s =>
    match decEqList ps qs with
    | isTrue hp =>
      match decEq r s with
      | isTrue hr => isTrue (hp ▸ hr ▸ rfl)
      | isFalse h => isFalse fun e => h (fn.inj e).2
    | isFalse h => isFalse fun e => h (fn.inj e).1
  | var v, var w =>
    if h : v = w then isTrue (h ▸ rfl) else isFalse fun e => h (var.inj e)
  | error, error => isTrue rfl
  | prim _, list _ | prim _, record _ | prim _, fn _ _ | prim _, var _ | prim _, error
  | list _, prim _ | list _, record _ | list _, fn _ _ | list _, var _ | list _, error
  | record _, prim _ | record _, list _ | record _, fn _ _ | record _, var _
  | record _, error
  | fn _ _, prim _ | fn _ _, list _ | fn _ _, record _ | fn _ _, var _ | fn _ _, error
  | var _, prim _ | var _, list _ | var _, record _ | var _, fn _ _ | var _, error
  | error, prim _ | error, list _ | error, record _ | error, fn _ _ | error, var _ =>
    isFalse nofun

/-- Equality of lists of types is decidable. -/
def decEqList : (as bs : List Ty) → Decidable (as = bs)
  | [], [] => isTrue rfl
  | a :: as, b :: bs =>
    match decEq a b with
    | isTrue h =>
      match decEqList as bs with
      | isTrue hs => isTrue (h ▸ hs ▸ rfl)
      | isFalse hs => isFalse fun e => hs (List.cons.inj e).2
    | isFalse h => isFalse fun e => h (List.cons.inj e).1
  | [], _ :: _ | _ :: _, [] => isFalse nofun

end

instance : DecidableEq Ty := decEq

/-! ## Text -/

mutual

/-- A type as it is shown in messages. -/
def text : Ty → String
  | prim p => p.text
  | list elem => "list[" ++ elem.text ++ "]"
  | record name => name
  | fn params ret => "fn(" ++ textList params ++ ") -> " ++ ret.text
  | var v => "\x7bunknown@" ++ toString v ++ "\x7d"
  | error => "\x7berror\x7d"

/-- Several types, with commas between them. -/
def textList : List Ty → String
  | [] => ""
  | [t] => t.text
  | t :: rest => t.text ++ ", " ++ textList rest

end

/-! ## What occurs in a type -/

mutual

/-- The variables of a type, from left to right. -/
def vars : Ty → List TyVar
  | prim _ | record _ | error => []
  | list elem => elem.vars
  | fn params ret => varsList params ++ ret.vars
  | var v => [v]

/-- The variables of several types. -/
def varsList : List Ty → List TyVar
  | [] => []
  | t :: rest => t.vars ++ varsList rest

end

mutual

/-- Whether the error type occurs in a type. -/
def hasError : Ty → Bool
  | prim _ | record _ | var _ => false
  | list elem => elem.hasError
  | fn params ret => hasErrorList params || ret.hasError
  | error => true

/-- Whether the error type occurs in one of several types. -/
def hasErrorList : List Ty → Bool
  | [] => false
  | t :: rest => t.hasError || hasErrorList rest

end

/-- Whether a type holds a variable or the error type. -/
def isUnresolved (t : Ty) : Bool :=
  !t.vars.isEmpty || t.hasError

/-- The primitive a type is, if it is one. -/
def prim? : Ty → Option Prim
  | prim p => some p
  | _ => none

mutual

/-- The number of constructors on the longest way down a type. -/
def height : Ty → Nat
  | prim _ | record _ | var _ | error => 1
  | list elem => elem.height + 1
  | fn params ret => max (heightList params) ret.height + 1

/-- The greatest height among several types. -/
def heightList : List Ty → Nat
  | [] => 0
  | t :: rest => max t.height (heightList rest)

end

mutual

/-- Replaces every variable of a type. -/
def subst (f : TyVar → Ty) : Ty → Ty
  | prim p => prim p
  | list elem => list (elem.subst f)
  | record name => record name
  | fn params ret => fn (substList f params) (ret.subst f)
  | var v => f v
  | error => error

/-- Replaces every variable of several types. -/
def substList (f : TyVar → Ty) : List Ty → List Ty
  | [] => []
  | t :: rest => t.subst f :: substList f rest

end

end Ty

/-- The type of a constant. -/
def Literal.ty (l : Literal) : Ty :=
  .prim l.prim

end Sluice
