import Mathlib.Tactic.Common
import Sluice.Proofs.Machine.Eval

/-!
# Values of a type

Which values belong to a type. The type of an object is not written on it, so
it is kept beside the heap, for the objects that have one: the fields of a
record have the types its declaration gives them, the elements of a list the
element type. Objects without a type can be anything.

A pattern fits a type if the values of that type have the parts it looks at
(`Pattern.Fits`).
-/

namespace Sluice

namespace Machine

/-- The parameter and result types of functions, by symbol. -/
abbrev FunctionTypes := String → List Ty → Ty → Prop

/-- The types of objects, by address. -/
abbrev ObjectTypes := Nat → Option Ty

/-- **A value belongs to a type.** -/
inductive HasType (fns : FunctionTypes) (objs : ObjectTypes) : Value → Ty → Prop
  | lit (l : Literal) : HasType fns objs (.lit l) l.ty
  | record {a : Nat} {name : String} :
      objs a = some (.record name) → HasType fns objs (.object a) (.record name)
  | list {a : Nat} {elem : Ty} :
      objs a = some (.list elem) → HasType fns objs (.object a) (.list elem)
  | function {symbol : String} {params : List Ty} {ret : Ty} :
      fns symbol params ret → HasType fns objs (.function symbol) (.fn params ret)

/-- An object has what a type asks for: the fields of a record have the types they were declared
with, the elements of a list the element type. -/
def Object.Typed (records : RecordTable) (fns : FunctionTypes) (objs : ObjectTypes) (o : Object) :
    Ty → Prop
  | .record name => ∃ r, records.get? name = some r ∧
      ∀ (i : Nat) (d : FieldDecl), r.fields[i]? = some d →
        ∃ v, o.fields[i]? = some v ∧ HasType fns objs v d.ty
  | .list elem => ∀ v ∈ o.fields, HasType fns objs v elem
  | _ => False

/-- **The objects of a heap have the types they are said to have.** -/
def Heap.Typed (records : RecordTable) (fns : FunctionTypes) (objs : ObjectTypes) (h : Heap) :
    Prop :=
  ∀ a ty, objs a = some ty → ∃ o, h.objects[a]? = some o ∧ o.Typed records fns objs ty

/-- What is known of the types of objects grows. -/
def ObjectTypes.Grows (objs objs' : ObjectTypes) : Prop :=
  ∀ a ty, objs a = some ty → objs' a = some ty

variable {records : RecordTable} {fns : FunctionTypes} {objs objs' objs'' : ObjectTypes}
  {v : Value}

theorem ObjectTypes.Grows.refl : objs.Grows objs := fun _ _ h => h

theorem ObjectTypes.Grows.trans (h : objs.Grows objs') (h' : objs'.Grows objs'') :
    objs.Grows objs'' :=
  fun a ty ha => h' a ty (h a ty ha)

/-- A value keeps its type when more is known. -/
theorem HasType.mono (h : HasType fns objs v ty) (hg : objs.Grows objs') :
    HasType fns objs' v ty := by
  cases h with
  | lit l => exact .lit l
  | record ha => exact .record (hg _ _ ha)
  | list ha => exact .list (hg _ _ ha)
  | function hf => exact .function hf

/-- The values of a primitive type are its constants. -/
theorem HasType.exists_lit (h : HasType fns objs v (.prim p)) :
    ∃ l : Literal, v = .lit l ∧ l.prim = p := by
  generalize hty : Ty.prim p = ty at h
  cases h with
  | lit l => exact ⟨l, rfl, (Ty.prim.inj hty).symm⟩
  | record _ => cases hty
  | list _ => cases hty
  | function _ => cases hty

/-- A truth value is one of the two constants. -/
theorem HasType.exists_bool (h : HasType fns objs v .bool) : ∃ b, v = .bool b := by
  obtain ⟨l, rfl, hl⟩ := h.exists_lit
  cases l with
  | bool b => exact ⟨b, rfl⟩
  | int _ => cases hl
  | str _ => cases hl
  | unit => cases hl

/-- An integer is a constant. -/
theorem HasType.exists_int (h : HasType fns objs v .int) : ∃ a, v = .lit (.int a) := by
  obtain ⟨l, rfl, hl⟩ := h.exists_lit
  cases l with
  | int a => exact ⟨a, rfl⟩
  | bool _ => cases hl
  | str _ => cases hl
  | unit => cases hl

/-- **A field of a record has the type it was declared with.** -/
theorem Heap.Typed.load_field {h : Heap} (hh : h.Typed records fns objs)
    (hv : HasType fns objs v (.record name)) (hr : records.get? name = some r)
    (hd : r.fields[i]? = some d) : HasType fns objs (h.load v i) d.ty := by
  cases hv with
  | record ha =>
    obtain ⟨o, ho, r', hr', hfields⟩ := hh _ _ ha
    rw [hr] at hr'
    cases hr'
    obtain ⟨x, hx, hxt⟩ := hfields i d hd
    simpa [Heap.load, Heap.object?, ho, hx] using hxt

end Machine

namespace Typed

open Machine

mutual

/-- **A pattern fits a type**: a literal stands where its type is, and a record pattern names
declared fields of its record, each at most once. -/
def Pattern.Fits (records : RecordTable) (ty : Ty) : Pattern → Prop
  | .wildcard _ | .binding _ _ => True
  | .literal _ value => ty = value.ty
  | .record _ name fields => ty = .record name ∧ (fields.map (·.index)).Nodup ∧
      ∃ r, records.get? name = some r ∧ Pattern.FitsFields records r fields

/-- Field patterns fit the types of their fields. -/
def Pattern.FitsFields (records : RecordTable) (r : RecordDecl) : List (Field Pattern) → Prop
  | [] => True
  | ⟨_, _, index, p⟩ :: rest =>
    (∃ d, r.fields[index]? = some d ∧ p.Fits records d.ty) ∧ Pattern.FitsFields records r rest

end

end Typed

end Sluice
