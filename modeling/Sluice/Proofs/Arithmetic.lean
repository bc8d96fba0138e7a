import Mathlib.Data.Int.ModEq
import Sluice.Eval
import Sluice.Infer.Expr
import Sluice.Proofs.Monad

/-!
# Operators on constants

Three places know which operators work on which constants: the table of primitive types,
the checker, and the computation of constants. They draw one line, the two undefined
divisions apart, and what is computed has the type that is checked and the value that
integers have, reduced to 64 bits (`BinaryOp.eval?_exact`).
-/

namespace Sluice

open Infer

/-- An integer of 64 bits is `n` up to a multiple of 2 ^ 64. -/
def IsWrapped (n : Int) (z : Int64) : Prop :=
  -2 ^ 63 ≤ z.toInt ∧ z.toInt < 2 ^ 63 ∧ z.toInt ≡ n [ZMOD 2 ^ 64]

theorem isWrapped_of_bmod {n : Int} {z : Int64} (h : z.toInt = n.bmod (2 ^ 64)) :
    IsWrapped n z := by
  refine ⟨z.le_toInt, z.toInt_lt, ?_⟩
  rw [h]
  exact Int.bmod_emod

/-- Two integers have no quotient: a division by zero, or one whose result has no 64 bits. -/
def Indivisible (x y : Int64) : Prop :=
  y.toInt = 0 ∨ x.toInt = -2 ^ 63 ∧ y.toInt = -1

namespace BinaryOp

variable {op : BinaryOp} {a b : Literal} {x y : Int64}

/-! ## What is defined -/

theorem divide?_eq_some (h : ¬Indivisible x y) (f : Int64 → Int64 → Int64) :
    divide? f x y = some (.int (f x y)) := by
  refine if_neg fun hno => h ?_
  rcases hno with rfl | ⟨rfl, rfl⟩
  · exact .inl rfl
  · exact .inr ⟨rfl, rfl⟩

theorem divide?_eq_none (h : Indivisible x y) (f : Int64 → Int64 → Int64) :
    divide? f x y = none := by
  refine if_pos (h.imp (fun hy => ?_) fun hxy => ⟨?_, ?_⟩)
  · exact Int64.toInt_inj.1 hy
  · exact Int64.toInt_inj.1 hxy.1
  · exact Int64.toInt_inj.1 hxy.2

/-- A division of two constants that has no result. -/
def Undivided (op : BinaryOp) (a b : Literal) : Prop :=
  (op = div ∨ op = mod) ∧ ∃ x y, a = .int x ∧ b = .int y ∧ Indivisible x y

theorem exists_eval?_iff :
    (∃ c, op.eval? a b = some c) ↔
      a.prim = b.prim ∧ a.prim.supports op = true ∧ ¬op.Undivided a b := by
  unfold eval?
  cases a with
  | int x =>
    cases b with
    | int y =>
      by_cases h : Indivisible x y
      · cases op <;> simp [evalInt?, divide?_eq_none h, Literal.prim, Prim.supports, opClass,
          Undivided, h]
      · cases op <;> simp [evalInt?, divide?_eq_some h, Literal.prim, Prim.supports, opClass,
          Undivided, h]
    | _ => simp [Literal.prim]
  | _ =>
    cases b <;> cases op <;>
      simp [evalBool?, evalSame?, Literal.prim, Prim.supports, opClass, Undivided]

/-! ## What is checked -/

/-- The type of the result of an operator. -/
def resultTy (op : BinaryOp) : Ty :=
  if op.opClass = .arithmetic then .int else .bool

theorem prim_of_eval? (h : op.eval? a b = some c) : c.ty = op.resultTy := by
  unfold eval? at h
  cases a <;> cases b <;> cases op <;> simp [evalInt?, divide?, evalBool?, evalSame?] at h <;>
    grind [Literal.ty, Literal.prim, resultTy, opClass]

theorem require_prim {p q : Prim} {span boundary u} {s s' : State} :
    require (.prim p) (.prim q) span boundary s = .ok u s' ↔ p = q ∧ s = s' := by
  have hunify : Unify.unify (.prim p) (.prim q) s.table = if Ty.prim p = .prim q then .ok () s.table
      else .error (s.table.mismatch (.prim p) (.prim q)) s.table := rfl
  rw [require, hunify]
  by_cases h : p = q <;> simp [h]

theorem binaryType_eq_ok {lhs rhs : Typed.Expr} {p q ty} {s s' : State} (hl : lhs.ty = .prim p)
    (hr : rhs.ty = .prim q) : binaryType op lhs rhs s = .ok ty s' ↔
      (p = q ∧ p.supports op = true) ∧ op.resultTy = ty ∧ s = s' := by
  have hshared {s s' x} : shallow (.prim p) s = .ok x s' ↔ .prim p = x ∧ s = s' := pure_eq_ok
  unfold binaryType Prim.supports resultTy
  rw [hl, hr]
  cases op.opClass <;>
    simp only [operatorTypes?, Ty.int, Ty.bool, bind_eq_ok, pure_eq_ok, require_prim, hshared]
  case equality => simp [comparable, pure_eq_ok]
  all_goals grind

/-- **The checker passes an operation on two constants** if they are of one type that supports the
operator. -/
theorem checkExpr_binary {g : Globals} {scope : Scope} {s s' : State} {span span1 span2 e} :
    checkExpr g scope (.binary span op (.literal span1 a) (.literal span2 b)) s = .ok e s' ↔
      (a.prim = b.prim ∧ a.prim.supports op = true) ∧ .binary ⟨span, op.resultTy⟩ op
        (.literal ⟨span1, a.ty⟩ a) (.literal ⟨span2, b.ty⟩ b) = e ∧ s = s' := by
  have htype {ty s'} := @binaryType_eq_ok op (.literal ⟨span1, a.ty⟩ a) (.literal ⟨span2, b.ty⟩ b)
    a.prim b.prim ty s s' rfl rfl
  simp only [checkExpr, bind_eq_ok, pure_eq_ok]
  grind

/-! ## What comes out -/

theorem exists_quotient (h : ¬Indivisible x y) :
    ∃ q r, div.eval? (.int x) (.int y) = some (.int q) ∧
      mod.eval? (.int x) (.int y) = some (.int r) ∧ q.toInt = x.toInt.tdiv y.toInt ∧
      r.toInt = x.toInt.tmod y.toInt ∧ x.toInt = q.toInt * y.toInt + r.toInt := by
  have hq : (x / y).toInt = x.toInt.tdiv y.toInt := by
    by_cases hx : x = Int64.minValue
    · exact Int64.toInt_div_of_ne_right x y fun hy => h (.inr ⟨hx ▸ rfl, hy ▸ rfl⟩)
    · exact Int64.toInt_div_of_ne_left x y hx
  have hr : (x % y).toInt = x.toInt.tmod y.toInt := Int64.toInt_mod x y
  refine ⟨x / y, x % y, divide?_eq_some h _, divide?_eq_some h _, hq, hr, ?_⟩
  rw [hq, hr, Int.tdiv_mul_add_tmod]

/-- Constants of one type are the same or not. -/
theorem eval?_same (h : a.prim = b.prim) :
    eq.eval? a b = some (.bool (decide (a = b))) ∧ ne.eval? a b = some (.bool (decide (a ≠ b))) := by
  unfold eval?
  cases a <;> cases b <;> simp [Literal.prim] at h <;>
    simp [evalInt?, evalBool?, evalSame?, Bool.beq_eq_decide_eq, bne]

/-- **Constants are computed as they are checked, in exact arithmetic reduced to 64 bits.** -/
theorem eval?_exact (op : BinaryOp) (a b : Literal) :
    ((∃ c, op.eval? a b = some c) ↔
      a.prim = b.prim ∧ a.prim.supports op = true ∧ ¬op.Undivided a b) ∧
    (∀ g scope s span span1 span2,
      ((∃ e s', checkExpr g scope (.binary span op (.literal span1 a) (.literal span2 b)) s =
        .ok e s') ↔ a.prim = b.prim ∧ a.prim.supports op = true) ∧
      ∀ c, op.eval? a b = some c → ∃ e, checkExpr g scope
        (.binary span op (.literal span1 a) (.literal span2 b)) s = .ok e s ∧ e.ty = c.ty) ∧
    (∀ x y : Int64,
      (∃ z, add.eval? (.int x) (.int y) = some (.int z) ∧ IsWrapped (x.toInt + y.toInt) z) ∧
      (∃ z, sub.eval? (.int x) (.int y) = some (.int z) ∧ IsWrapped (x.toInt - y.toInt) z) ∧
      (∃ z, mul.eval? (.int x) (.int y) = some (.int z) ∧ IsWrapped (x.toInt * y.toInt) z) ∧
      (¬Indivisible x y → ∃ q r, div.eval? (.int x) (.int y) = some (.int q) ∧
        mod.eval? (.int x) (.int y) = some (.int r) ∧ q.toInt = x.toInt.tdiv y.toInt ∧
        r.toInt = x.toInt.tmod y.toInt ∧ x.toInt = q.toInt * y.toInt + r.toInt) ∧
      lt.eval? (.int x) (.int y) = some (.bool (decide (x.toInt < y.toInt))) ∧
      le.eval? (.int x) (.int y) = some (.bool (decide (x.toInt ≤ y.toInt))) ∧
      gt.eval? (.int x) (.int y) = some (.bool (decide (x.toInt > y.toInt))) ∧
      ge.eval? (.int x) (.int y) = some (.bool (decide (x.toInt ≥ y.toInt))) ∧
      eq.eval? (.int x) (.int y) = some (.bool (decide (x.toInt = y.toInt))) ∧
      ne.eval? (.int x) (.int y) = some (.bool (decide (x.toInt ≠ y.toInt))) ∧
      ∃ z, UnaryOp.neg.eval? (.int x) = some (.int z) ∧ IsWrapped (-x.toInt) z) ∧
    (a.prim = b.prim → eq.eval? a b = some (.bool (decide (a = b))) ∧
      ne.eval? a b = some (.bool (decide (a ≠ b)))) := by
  refine ⟨exists_eval?_iff, fun g scope s span span1 span2 => ⟨?_, fun c hc => ?_⟩,
    fun x y => ⟨⟨_, rfl, isWrapped_of_bmod (Int64.toInt_add x y)⟩,
    ⟨_, rfl, isWrapped_of_bmod (Int64.toInt_sub x y)⟩,
    ⟨_, rfl, isWrapped_of_bmod (Int64.toInt_mul x y)⟩, exists_quotient, ?_, ?_, ?_, ?_, ?_, ?_,
    _, rfl, isWrapped_of_bmod (Int64.toInt_neg x)⟩, eval?_same⟩
  · simp [checkExpr_binary]
  · obtain ⟨hprim, hsupports, -⟩ := exists_eval?_iff.1 ⟨c, hc⟩
    exact ⟨_, checkExpr_binary.2 ⟨⟨hprim, hsupports⟩, rfl, rfl⟩, (prim_of_eval? hc).symm⟩
  all_goals
    unfold eval?
    simp [evalInt?, Int64.lt_iff_toInt_lt, Int64.le_iff_toInt_le, Int64.toInt_inj]

end BinaryOp

end Sluice
