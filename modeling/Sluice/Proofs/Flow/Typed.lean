import Mathlib.Data.List.Perm.Basic
import Sluice.Proofs.Flow.WellFormed
import Sluice.Proofs.Machine.Effect
import Sluice.Proofs.Related
import Sluice.Proofs.Typing.Rules

/-!
# Typed instructions

What it means for an instruction to be well typed under the types recorded for the
registers of its function, in a program that gives the records and the functions to
call. Types are not enough for objects: an object is of use only once each of its parts
was stored, so the instructions of a block fill every object where they make it
(`Filled`). More registers change neither.
-/

namespace Sluice.Flow

open List
open Typed (BinaryRule Program UnaryRule)

/-! ## Types -/

/-- An operand has a type: that of its constant, or the one recorded for its register. -/
def Operand.HasTy (registers : List Ty) : Operand Reg → Ty → Prop
  | .imm value, ty => value.ty = ty
  | .reg r, ty => registers[r]? = some ty

/-- A record type has a field of some type at an index. -/
def HasField (records : RecordTable) (ty : Ty) (index : Nat) (field : Ty) : Prop :=
  ∃ name r d, ty = .record name ∧ records.get? name = some r ∧ r.fields[index]? = some d ∧
    d.ty = field

/-- An object of a type takes values of some type at an index: the field of a record, or the
elements of a list. -/
def HasPart (records : RecordTable) (ty : Ty) (index : Nat) (part : Ty) : Prop :=
  HasField records ty index part ∨ ty = .list part

/-- A callee takes and gives values of some types: it is a function of the program, or is held by
a register of function type. -/
def Callee.HasTy (p : Program) (registers : List Ty) (params : List Ty) (ret : Ty) :
    Callee Reg → Prop
  | .direct symbol => ∃ kind, p.Declares kind symbol params ret
  | .indirect r => registers[r]? = some (.fn params ret)

/-- An object of a shape is of a type. A record has all fields it was declared with. -/
def Shape.HasTy (records : RecordTable) : Shape → Ty → Prop
  | .record name count, ty => ty = .record name ∧
      ∃ r, records.get? name = some r ∧ r.fields.length = count
  | .list _, ty => ∃ elem, ty = .list elem

/-- **An instruction is well typed** in a function with some result type. Slots are not typed:
there are none before registers are placed. -/
def Instr.WellTyped (p : Program) (ret : Ty) (registers : List Ty) : Instr Reg → Prop
  | .move dst src => ∃ ty, registers[dst]? = some ty ∧ src.HasTy registers ty
  | .unary op dst operand => ∃ ty operandTy, registers[dst]? = some ty ∧
      operand.HasTy registers operandTy ∧ UnaryRule op operandTy ty
  | .binary op dst lhs rhs => ∃ ty lhsTy rhsTy, registers[dst]? = some ty ∧
      lhs.HasTy registers lhsTy ∧ rhs.HasTy registers rhsTy ∧ BinaryRule op lhsTy rhsTy ty
  | .call dst callee args => ∃ ty params, registers[dst]? = some ty ∧
      List.Forall₂ (Operand.HasTy registers) args params ∧ callee.HasTy p registers params ty
  | .address dst symbol => ∃ params result, registers[dst]? = some (.fn params result) ∧
      p.Declares .free symbol params result
  | .alloc dst shape _ => ∃ ty, registers[dst]? = some ty ∧ shape.HasTy p.records ty
  | .store object index value => ∃ ty part, registers[object]? = some ty ∧
      HasPart p.records ty index part ∧ value.HasTy registers part
  | .load dst object index => ∃ ty field, registers[object]? = some ty ∧
      HasField p.records ty index field ∧ registers[dst]? = some field
  | .spillStore _ _ | .spillLoad _ _ => False
  | .jump _ => True
  | .branch condition _ _ => condition.HasTy registers .bool
  | .ret value => value.HasTy registers ret

/-! ## More registers -/

variable {p : Program} {ret ty : Ty} {registers registers' : List Ty} {r : Reg} {i : Instr Reg}

/-- A register keeps its type. -/
theorem getElem?_of_isPrefix (h : registers[r]? = some ty) (hpre : registers <+: registers') :
    registers'[r]? = some ty := by
  obtain ⟨more, rfl⟩ := hpre
  rw [getElem?_append_left (List.getElem?_eq_some_iff.1 h).1, h]

theorem Operand.HasTy.mono {o : Operand Reg} (h : o.HasTy registers ty)
    (hpre : registers <+: registers') : o.HasTy registers' ty := by
  cases o with
  | imm value => exact h
  | reg r => exact getElem?_of_isPrefix h hpre

theorem Operand.HasTy.mono_all (h : Forall₂ (Operand.HasTy registers) os tys)
    (hpre : registers <+: registers') : Forall₂ (Operand.HasTy registers') os tys :=
  h.imp fun _ _ ho => ho.mono hpre

theorem Callee.HasTy.mono {callee : Callee Reg} (h : callee.HasTy p registers params ty)
    (hpre : registers <+: registers') : callee.HasTy p registers' params ty := by
  cases callee with
  | direct symbol => exact h
  | indirect r => exact getElem?_of_isPrefix h hpre

/-- **An instruction stays well typed when registers are added.** -/
theorem Instr.WellTyped.mono (h : i.WellTyped p ret registers) (hpre : registers <+: registers') :
    i.WellTyped p ret registers' := by
  cases i with
  | move dst src =>
    obtain ⟨ty, hdst, hsrc⟩ := h
    exact ⟨ty, getElem?_of_isPrefix hdst hpre, hsrc.mono hpre⟩
  | unary op dst operand =>
    obtain ⟨ty, operandTy, hdst, hoperand, hrule⟩ := h
    exact ⟨ty, operandTy, getElem?_of_isPrefix hdst hpre, hoperand.mono hpre, hrule⟩
  | binary op dst lhs rhs =>
    obtain ⟨ty, lhsTy, rhsTy, hdst, hlhs, hrhs, hrule⟩ := h
    exact ⟨ty, lhsTy, rhsTy, getElem?_of_isPrefix hdst hpre, hlhs.mono hpre, hrhs.mono hpre, hrule⟩
  | call dst callee args =>
    obtain ⟨ty, params, hdst, hargs, hcallee⟩ := h
    exact ⟨ty, params, getElem?_of_isPrefix hdst hpre, Operand.HasTy.mono_all hargs hpre,
      hcallee.mono hpre⟩
  | address dst symbol =>
    obtain ⟨params, result, hdst, hdecl⟩ := h
    exact ⟨params, result, getElem?_of_isPrefix hdst hpre, hdecl⟩
  | alloc dst shape live =>
    obtain ⟨ty, hdst, hshape⟩ := h
    exact ⟨ty, getElem?_of_isPrefix hdst hpre, hshape⟩
  | store object index value =>
    obtain ⟨ty, part, hobject, hpart, hvalue⟩ := h
    exact ⟨ty, part, getElem?_of_isPrefix hobject hpre, hpart, hvalue.mono hpre⟩
  | load dst object index =>
    obtain ⟨ty, field, hobject, hfield, hdst⟩ := h
    exact ⟨ty, field, getElem?_of_isPrefix hobject hpre, hfield, getElem?_of_isPrefix hdst hpre⟩
  | spillStore slot src => exact h
  | spillLoad dst slot => exact h
  | jump target => exact h
  | branch condition positive negative => exact Operand.HasTy.mono h hpre
  | ret value => exact Operand.HasTy.mono h hpre

/-! ## Registers -/

theorem lt_length_of_getElem? (h : registers[r]? = some ty) : r < registers.length :=
  (List.getElem?_eq_some_iff.1 h).1

theorem Operand.HasTy.lt_length {o : Operand Reg} (h : o.HasTy registers ty)
    (hr : r ∈ o.reg?.toList) : r < registers.length := by
  cases o with
  | imm value => exact nomatch hr
  | reg r' =>
    rw [mem_singleton.1 hr]
    exact lt_length_of_getElem? h

theorem Operand.HasTy.lt_length_of_all {os : List (Operand Reg)}
    (h : Forall₂ (Operand.HasTy registers) os tys) (hr : r ∈ os.filterMap Operand.reg?) :
    r < registers.length := by
  obtain ⟨o, ho, hr⟩ := mem_filterMap.1 hr
  obtain ⟨ty, -, hty⟩ := exists_of_forall₂_left h ho
  exact hty.lt_length (Option.mem_toList.2 hr)

/-- **A well-typed instruction knows its registers**, since they have types. -/
theorem Instr.WellTyped.lt_length (h : i.WellTyped p ret registers) (hr : i.Mentions r) :
    r < registers.length := by
  have hdef : ∀ {dst ty}, registers[dst]? = some ty → some dst = some r → r < registers.length :=
    fun hdst heq => Option.some.inj heq ▸ lt_length_of_getElem? hdst
  cases i with
  | move dst src =>
    obtain ⟨ty, hdst, hsrc⟩ := h
    exact hr.elim (hdef hdst) hsrc.lt_length
  | unary op dst operand =>
    obtain ⟨ty, operandTy, hdst, hoperand, -⟩ := h
    exact hr.elim (hdef hdst) hoperand.lt_length
  | binary op dst lhs rhs =>
    obtain ⟨ty, lhsTy, rhsTy, hdst, hlhs, hrhs, -⟩ := h
    exact hr.elim (hdef hdst) fun hr => (mem_append.1 hr).elim hlhs.lt_length hrhs.lt_length
  | call dst callee args =>
    obtain ⟨ty, params, hdst, hargs, hcallee⟩ := h
    refine hr.elim (hdef hdst) fun hr => (mem_append.1 hr).elim (fun hr => ?_)
      (Operand.HasTy.lt_length_of_all hargs)
    cases callee with
    | direct symbol => exact nomatch hr
    | indirect r' => exact hdef hcallee (congrArg some (mem_singleton.1 hr).symm)
  | address dst symbol =>
    obtain ⟨params, result, hdst, -⟩ := h
    exact hr.elim (hdef hdst) fun hr => nomatch hr
  | alloc dst shape live =>
    obtain ⟨ty, hdst, -⟩ := h
    exact hr.elim (hdef hdst) fun hr => nomatch hr
  | store object index value =>
    obtain ⟨ty, part, hobject, -, hvalue⟩ := h
    rcases hr with ⟨⟨⟩⟩ | hr
    rcases mem_cons.1 hr with rfl | hr
    · exact lt_length_of_getElem? hobject
    · exact hvalue.lt_length hr
  | load dst object index =>
    obtain ⟨ty, field, hobject, -, hdst⟩ := h
    exact hr.elim (hdef hdst) fun hr =>
      mem_singleton.1 hr ▸ lt_length_of_getElem? hobject
  | spillStore slot src => exact h.elim
  | spillLoad dst slot => exact h.elim
  | jump target => exact hr.elim nofun nofun
  | branch condition positive negative =>
    rcases hr with ⟨⟨⟩⟩ | hr
    exact Operand.HasTy.lt_length h hr
  | ret value =>
    rcases hr with ⟨⟨⟩⟩ | hr
    exact Operand.HasTy.lt_length h hr

theorem Instr.WellTyped.slot?_eq_none (h : i.WellTyped p ret registers) : i.slot? = none := by
  cases i with
  | spillStore slot src => exact h.elim
  | spillLoad dst slot => exact h.elim
  | _ => rfl

/-! ## Objects -/

/-- Whether an instruction makes an object or stores a part of one. -/
def Instr.fillsObject : Instr Reg → Bool
  | .alloc _ _ _ | .store _ _ _ => true
  | _ => false

/-- **Every object is filled where it is made:** right behind the instruction that makes it, each
of its parts is stored once, and there are no other stores. -/
inductive Filled : List (Instr Reg) → Prop
  | nil : Filled []
  | other {i : Instr Reg} {rest : List (Instr Reg)} :
      i.fillsObject = false → Filled rest → Filled (i :: rest)
  | object {r : Reg} {shape : Shape} {live : List Reg} {values : List (Nat × Operand Reg)}
      {rest : List (Instr Reg)} :
      (values.map (·.1)).Perm (List.range shape.size) → Filled rest →
      Filled (.alloc r shape live :: values.map (fun x => .store r x.1 x.2) ++ rest)

namespace Filled

variable {is js : List (Instr Reg)}

theorem append (h : Filled is) (h' : Filled js) : Filled (is ++ js) := by
  induction h with
  | nil => exact h'
  | other hi _ ih => exact .other hi ih
  | object hperm _ ih =>
    rw [append_assoc]
    exact .object hperm ih

theorem singleton (hi : i.fillsObject = false) : Filled [i] :=
  .other hi .nil

/-- Where an instruction can stand among those that make and fill an object, and others. -/
theorem cases_object {j stores rest before after} (h : j :: stores ++ rest = before ++ i :: after) :
    (before = [] ∧ i = j ∧ after = stores ++ rest) ∨ (j ∈ before ∧ i ∈ stores) ∨
      ∃ more, before = j :: stores ++ more ∧ rest = more ++ i :: after := by
  rcases cons_eq_append_iff.1 h with ⟨hbefore, hself⟩ | ⟨before', rfl, hlater⟩
  · cases hself
    exact .inl ⟨hbefore, rfl, rfl⟩
  · rcases append_eq_append_iff.1 hlater with ⟨more, rfl, hrest⟩ | ⟨more, hstores, hrest⟩
    · exact .inr (.inr ⟨more, rfl, hrest⟩)
    · cases more with
      | nil =>
        rw [append_nil] at hstores
        refine .inr (.inr ⟨[], ?_, hrest.symm⟩)
        rw [hstores, append_nil]
      | cons k more =>
        cases hrest
        exact .inr (.inl ⟨mem_cons_self, hstores ▸ mem_append_right _ mem_cons_self⟩)

/-- **What stands around an instruction:** where an object is made a store for each of its parts
follows, and then nothing that concerns it; a store is behind the making of its object, and within
the object. -/
def Surrounds (before : List (Instr Reg)) : Instr Reg → List (Instr Reg) → Prop
  | .alloc r shape _, after => ∃ (values : List (Nat × Operand Reg)) (rest : List (Instr Reg)),
      after = values.map (fun x => .store r x.1 x.2) ++ rest ∧
      (values.map (·.1)).Perm (List.range shape.size) ∧ Filled rest
  | .store r index _, _ => ∃ shape live, .alloc r shape live ∈ before ∧ index < shape.size
  | _, _ => True

theorem Surrounds.mono {before before' after} (h : Surrounds before i after)
    (hsub : before ⊆ before') : Surrounds before' i after := by
  cases i with
  | store r index value =>
    obtain ⟨shape, live, hmem, hlt⟩ := h
    exact ⟨shape, live, hsub hmem, hlt⟩
  | _ => exact h

theorem surrounds (h : Filled is) :
    ∀ {before after}, is = before ++ i :: after → Surrounds before i after := by
  induction h with
  | nil =>
    intro before after heq
    exact absurd heq.symm (append_ne_nil_of_right_ne_nil _ (cons_ne_nil _ _))
  | other hi _ ih =>
    intro before after heq
    rcases cons_eq_append_iff.1 heq with ⟨-, hself⟩ | ⟨before', rfl, hlater⟩
    · cases hself
      cases i with
      | alloc r shape live => cases hi
      | store object index value => cases hi
      | _ => trivial
    · exact (ih hlater).mono (subset_cons_self _ _)
  | @object r shape live values rest hperm hrest ih =>
    intro before after heq
    rcases cases_object heq with ⟨-, rfl, rfl⟩ | ⟨hmade, hmem⟩ | ⟨more, rfl, hlater⟩
    · exact ⟨values, rest, rfl, hperm, hrest⟩
    · obtain ⟨x, hx, rfl⟩ := mem_map.1 hmem
      refine ⟨shape, live, hmade, mem_range.1 (hperm.mem_iff.1 ?_)⟩
      exact mem_map_of_mem hx
    · exact (ih hlater).mono (subset_append_right _ _)

end Filled

end Sluice.Flow
