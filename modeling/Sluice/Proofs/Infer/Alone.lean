import Sluice.Proofs.Infer.Entries
import Sluice.Proofs.Infer.Steps
import Sluice.Proofs.Infer.Turns
import Sluice.Proofs.Unify.Shift

/-!
# Checking a body on top of a table

Where declarations leave no type open, a body is checked the same whatever the
bodies before it have left in the table: its own variables only stand further
up. Two checks of the same source are run side by side, one of them on top of
a table that it does not look at (`Mirror`). Both fail with errors that are the same
up to the place of the variables, or both pass with trees that are
(`checkBody_repeats`).
-/

namespace Sluice

open List

/-! ## Renamed errors -/

/-- A fault with other names for the variables. -/
def Infer.Fault.rename (ρ : TyVar → TyVar) : Infer.Fault → Infer.Fault
  | .clash c => .clash (c.rename ρ)
  | .notCallable ty => .notCallable (ty.rename ρ)
  | .notARecord ty => .notARecord (ty.rename ρ)
  | .unsupportedOperator op ty => .unsupportedOperator op (ty.rename ρ)
  | .cannotInfer ty => .cannotInfer (ty.rename ρ)
  | fault => fault

/-- An error with other names for the variables. -/
def TypeError.rename (ρ : TyVar → TyVar) (e : TypeError) : TypeError :=
  { e with fault := e.fault.rename ρ }

/-- The types of the fields and methods of a record have no variables. -/
def RecordDecl.Closed (r : RecordDecl) : Prop :=
  (∀ d ∈ r.fields, d.ty.vars = []) ∧ ∀ m ∈ r.methods, m.ty.vars = []

namespace Infer

open Typed (Expr Info Local LocalId Pattern)
open Unify (Table)
open Unify.Table (Atop Grounded)

variable {α β : Type} {low : Table} {k m n : Nat} {s s' : State} {a a' b b' ty ty' : Ty}
  {R : Nat → α → α → Prop}

/-! ## The same in another place -/

/-- A type and the same type further up. -/
structure Shifted (k n : Nat) (ty ty' : Ty) : Prop where
  below : ty.Below n
  eq : ty' = ty.shift k

/-- Things that differ in the place of their variables only, given how types are put into them. -/
def Moved (k n : Nat) (map : (Ty → Ty) → α → α) (x x' : α) : Prop :=
  ∀ f f' : Ty → Ty, (∀ ty, ty.Below n → f ty = f' (ty.shift k)) → map f x = map f' x'

/-- Expressions that differ in the place of their variables only. -/
structure ExprMoved (k n : Nat) (e e' : Expr) : Prop where
  same : Moved k n Expr.mapTy e e'
  ty : Shifted k n e.ty e'.ty
  span_eq : e'.span = e.span

theorem Shifted.mono (h : Shifted k n ty ty') (hle : n ≤ m) : Shifted k m ty ty' :=
  ⟨h.below.mono hle, h.eq⟩

/-- A type without variables is the same everywhere. -/
theorem Shifted.of_closed (h : ty.vars = []) : Shifted k n ty ty :=
  ⟨.of_closed h, (Ty.subst_of_closed h _).symm⟩

theorem Shifted.list (h : Shifted k n ty ty') : Shifted k n (.list ty) (.list ty') :=
  ⟨h.below, congrArg Ty.list h.eq⟩

theorem Shifted.map_eq {f f' : Ty → Ty} (h : Shifted k n ty ty') (hle : n ≤ m)
    (hf : ∀ ty, ty.Below m → f ty = f' (ty.shift k)) : f ty = f' ty' := by
  rw [h.eq]
  exact hf ty (h.below.mono hle)

theorem map_closed {f f' : Ty → Ty} (ty : Ty) (h : ty.vars = [])
    (hf : ∀ ty, ty.Below n → f ty = f' (ty.shift k)) : f ty = f' ty :=
  (Shifted.of_closed h).map_eq le_rfl hf

theorem Moved.mono {map} (h : Moved k n map x x') (hle : n ≤ m) : Moved k m map x x' :=
  fun f f' hf => h f f' fun ty hty => hf ty (hty.mono hle)

theorem Moved.map_eq {map f f'} (h : Moved k n map x x') (hle : n ≤ m)
    (hf : ∀ ty, ty.Below m → f ty = f' (ty.shift k)) : map f x = map f' x' :=
  h.mono hle f f' hf

theorem ExprMoved.mono (h : ExprMoved k n e e') (hle : n ≤ m) : ExprMoved k m e e' :=
  ⟨h.same.mono hle, h.ty.mono hle, h.span_eq⟩

/-- Lists of expressions that differ in the place of their variables only. -/
abbrev ListMoved (k n : Nat) (es es' : List Expr) : Prop :=
  List.Forall₂ (ExprMoved k n) es es'

theorem ListMoved.mono (h : ListMoved k n es es') (hle : n ≤ m) : ListMoved k m es es' :=
  h.imp fun _ _ he => he.mono hle

theorem ListMoved.same (h : ListMoved k n es es') : Moved k n Expr.mapListTy es es' := by
  intro f f' hf
  induction h with
  | nil => rfl
  | cons he _ ih => rw [Expr.mapListTy, Expr.mapListTy, he.same f f' hf, ih]

theorem ListMoved.tys (h : ListMoved k n es es') :
    Forall₂ (Shifted k n) (es.map (·.ty)) (es'.map (·.ty)) := by
  rw [forall₂_map_left_iff, forall₂_map_right_iff]
  exact h.imp fun _ _ he => he.ty

/-- Initializers that differ in the place of their variables only. -/
structure FieldsMoved (k n : Nat) (fields fields' : List (Typed.Field Expr)) : Prop where
  same : Moved k n Expr.mapFieldsTy fields fields'
  names_eq : fields'.map (·.name) = fields.map (·.name)

theorem FieldsMoved.any_eq (h : FieldsMoved k n fields fields') (name : String) :
    fields'.any (·.name == name) = fields.any (·.name == name) := by
  have hany : ∀ fields : List (Typed.Field Expr),
      fields.any (·.name == name) = (fields.map (·.name)).any (· == name) := fun fields => by
    rw [any_map]
    rfl
  rw [hany, hany, h.names_eq]

theorem blockType_shifted (h : ListMoved k n es es') :
    Shifted k n (blockType es) (blockType es') := by
  rw [blockType, blockType]
  induction h with
  | nil => exact .of_closed rfl
  | @cons e e' rest rest' he hrest ih =>
    cases hrest with
    | nil => exact he.ty
    | cons h1 h2 =>
      rw [getLast?_cons_cons, getLast?_cons_cons]
      exact ih

theorem Shifted.fn (hparams : Forall₂ (Shifted k n) params params')
    (hret : Shifted k n ret ret') : Shifted k n (.fn params ret) (.fn params' ret') := by
  have hbelow : ∀ p ∈ params, p.Below n := by
    induction hparams with
    | nil => exact nofun
    | cons hp _ ih => exact forall_mem_cons.2 ⟨hp.below, ih⟩
  have heq : params' = params.map (Ty.shift k) := by
    clear hbelow
    induction hparams with
    | nil => rfl
    | cons hp _ ih => rw [map_cons, ← hp.eq, ← ih]
  refine ⟨Ty.Below.fn_iff.2 ⟨hbelow, hret.below⟩, ?_⟩
  rw [Ty.shift_fn, heq, hret.eq]

/-! ## Two checks side by side -/

/-- **Two states side by side,** the second on top of a table. -/
structure Mirror (low : Table) (s s' : State) : Prop where
  grounded : s.table.Grounded
  atop : low.Atop s.table s'.table
  locals_shifted : List.Forall₂ (fun l l' => l'.span = l.span ∧ l'.name = l.name ∧
    Shifted low.size s.table.size l.ty l'.ty) s.locals s'.locals
  matchCount_eq : s'.matchCount = s.matchCount

/-- Both tables change. -/
theorem Mirror.withTable (h : Mirror low s s') (ht : t.Grounded) (hatop : low.Atop t t')
    (hle : s.table.size ≤ t.size) : Mirror low { s with table := t } { s' with table := t' } where
  grounded := ht
  atop := hatop
  locals_shifted := h.locals_shifted.imp fun _ _ hl => ⟨hl.1, hl.2.1, hl.2.2.mono hle⟩
  matchCount_eq := h.matchCount_eq

/-- Both runs pass with values that are related, where at least `n` variables are there, or both
fail with the same error up to the place of the variables. -/
def Agrees (low : Table) (n : Nat) (R : Nat → α → α → Prop) :
    EStateM.Result TypeError State α → EStateM.Result TypeError State α → Prop
  | .ok x s, .ok x' s' => n ≤ s.table.size ∧ R s.table.size x x' ∧ Mirror low s s'
  | .error e _, .error e' _ => e' = e.rename (· + low.size)
  | _, _ => False

theorem Agrees.ok_or_error (h : Agrees low n R r r') :
    (∃ x s x' s', r = .ok x s ∧ r' = .ok x' s' ∧ n ≤ s.table.size ∧ R s.table.size x x' ∧
        Mirror low s s') ∨
      ∃ e s s', r = .error e s ∧ r' = .error (e.rename (· + low.size)) s' := by
  cases r with
  | ok x s =>
    cases r' with
    | ok x' s' => exact .inl ⟨x, s, x', s', rfl, rfl, h⟩
    | error e' s' => exact h.elim
  | error e s =>
    cases r' with
    | ok x' s' => exact h.elim
    | error e' s' =>
      obtain rfl : e' = e.rename (· + low.size) := h
      exact .inr ⟨e, s, s', rfl, rfl⟩

theorem Agrees.mono (h : Agrees low m R r r') (hle : n ≤ m) : Agrees low n R r r' := by
  rcases h.ok_or_error with ⟨x, s, x', s', rfl, rfl, hm, hrest⟩ | ⟨e, s, s', rfl, rfl⟩
  · exact ⟨Nat.le_trans hle hm, hrest⟩
  · rfl

/-- **The second check repeats the first one** on top of a table, wherever at least `n` variables
are there. Relations between values take the number of variables that they may mention. -/
def Repeats (low : Table) (n : Nat) (R : Nat → α → α → Prop) (x x' : Check α) : Prop :=
  ∀ s s', Mirror low s s' → n ≤ s.table.size → Agrees low s.table.size R (x s) (x' s')

namespace Repeats

variable {R : Nat → α → α → Prop} {R' : Nat → β → β → Prop} {x x' : Check α}

theorem pure (h : ∀ m, n ≤ m → R m v v') : Repeats low n R (pure v) (pure v') :=
  fun _ _ hmirror hn => ⟨Nat.le.refl, h _ hn, hmirror⟩

theorem fail (span : Span) (fault : Fault) :
    Repeats low n R (fail span fault) (fail span (fault.rename (· + low.size))) :=
  fun _ _ _ _ => rfl

theorem bind (hx : Repeats low n R x x')
    (hf : ∀ m v v', n ≤ m → R m v v' → Repeats low m R' (f v) (f' v')) :
    Repeats low n R' (x >>= f) (x' >>= f') := by
  intro s s' hmirror hn
  simp only [Bind.bind, EStateM.bind]
  rcases (hx s s' hmirror hn).ok_or_error with
    ⟨v, s1, v', s1', hok, hok', hle, hv, hmirror1⟩ | ⟨e, s1, s1', herror, herror'⟩
  · rw [hok, hok']
    -- what comes next starts where the first part ended, with at least as many variables
    have hnext := hf s1.table.size v v' (Nat.le_trans hn hle) hv s1 s1' hmirror1 Nat.le.refl
    exact hnext.mono hle
  · rw [herror, herror']
    rfl

end Repeats

/-! ## The small steps -/

/-- Values that are the same in both checks. -/
abbrev Same (_ : Nat) (v v' : α) : Prop := v' = v

theorem fresh_repeats : Repeats low n (Shifted low.size) fresh fresh := by
  intro s s' h hn
  have hlt : s.table.size < s.table.newVariable.2.size := by
    rw [Table.size_newVariable]
    exact Nat.lt_succ_self _
  exact ⟨Nat.le_of_lt hlt, ⟨.of_var hlt, congrArg Ty.var h.atop.size_eq⟩,
    h.withTable h.grounded.newVariable h.atop.newVariable (Nat.le_of_lt hlt)⟩

theorem shallow_repeats (h : Shifted low.size n ty ty') :
    Repeats low n (Shifted low.size) (shallow ty) (shallow ty') := by
  intro s s' hmirror hn
  have hty := h.below.mono hn
  refine ⟨Nat.le.refl, ⟨hmirror.grounded.shallow_below hty, ?_⟩, hmirror⟩
  rw [h.eq]
  exact hmirror.atop.copied.shallow hmirror.grounded hty

theorem resolve_repeats (h : Shifted low.size n ty ty') :
    Repeats low n (fun _ ty ty' => ty' = ty.shift low.size) (resolve ty) (resolve ty') := by
  intro s s' hmirror hn
  refine ⟨Nat.le.refl, ?_, hmirror⟩
  rw [h.eq]
  exact hmirror.atop.copied.resolve hmirror.grounded (h.below.mono hn)

/-- Reports what a type turned out to be. -/
theorem resolve_fail_repeats (h : Shifted low.size n ty ty') (span : Span) (fault : Ty → Fault)
    (hfault : ∀ ty, fault (ty.shift low.size) = (fault ty).rename (· + low.size)) :
    Repeats low n R (resolve ty >>= fun ty => fail span (fault ty))
      (resolve ty' >>= fun ty => fail span (fault ty)) := by
  refine (resolve_repeats h).bind fun m ty ty' _ heq => ?_
  rw [heq, hfault]
  exact .fail span (fault ty)

theorem require_repeats (ha : Shifted low.size n a a') (hb : Shifted low.size n b b') (span : Span)
    (boundary : Boundary) :
    Repeats low n Same (require a b span boundary) (require a' b' span boundary) := by
  intro s s' h hn
  have ha' := ha.below.mono hn
  have hb' := hb.below.mono hn
  have hrun := Unify.unify_echoes h.grounded ha' hb' h.atop
  have hadv := Unify.unify_advances Ty.hereditary_true h.grounded.keeps (.of_below ha')
    (.of_below hb')
  rw [← ha.eq, ← hb.eq] at hrun
  rw [require, require]
  rcases hrun.ok_or_error with ⟨t, t', hok, hok', hatop⟩ | ⟨e, t, t', herror, herror', -⟩
  · rw [hok] at hadv
    rw [hok, hok']
    have hle : s.table.size ≤ t.size := Nat.le_of_eq hadv.size_eq.symm
    exact ⟨hle, rfl, h.withTable hadv.keeps.toGrounded hatop hle⟩
  · rw [herror, herror']
    rfl

/-- Requires a type of an expression. -/
theorem requireOf_repeats (ha : Shifted low.size n a a') (he : ExprMoved low.size n e e')
    (boundary : Boundary) :
    Repeats low n Same (require a e.ty e.span boundary) (require a' e'.ty e'.span boundary) := by
  rw [he.span_eq]
  exact require_repeats ha he.ty e.span boundary

theorem declareLocal_repeats (name : Source.Ident) (h : Shifted low.size n ty ty') :
    Repeats low n Same (declareLocal name ty) (declareLocal name ty') := by
  intro s s' hmirror hn
  refine ⟨Nat.le.refl, hmirror.locals_shifted.length_eq.symm, hmirror.grounded, hmirror.atop, ?_,
    hmirror.matchCount_eq⟩
  exact rel_append hmirror.locals_shifted (.cons ⟨rfl, rfl, h.mono hn⟩ .nil)

theorem localType_repeats (id : LocalId) :
    Repeats low n (Shifted low.size) (localType id) (localType id) := by
  intro s s' h hn
  refine ⟨Nat.le.refl, ?_, h⟩
  have hlocal := forall₂_getElem? h.locals_shifted id
  generalize s.locals[id]? = l at hlocal ⊢
  generalize s'.locals[id]? = l' at hlocal ⊢
  cases hlocal with
  | none => exact .of_closed rfl
  | some hl => exact hl.2.2

theorem nextMatch_repeats : Repeats low n Same nextMatch nextMatch := by
  intro s s' h hn
  exact ⟨Nat.le.refl, h.matchCount_eq, h.grounded, h.atop, h.locals_shifted,
    congrArg (· + 1) h.matchCount_eq⟩

/-! ## Annotations -/

/-- A computation on the table as part of a check. -/
def onTable (x : EStateM TypeError Table α) : Check α := fun s =>
  match x s.table with
  | .ok v table => .ok v { s with table }
  | .error e table => .error e { s with table }

theorem annotatedType_eq_onTable (records : RecordTable) (x : Source.TypeExpr) :
    annotatedType records x = onTable (annotated records x) := by
  funext s
  rw [annotatedType, onTable]
  cases annotated records x s.table <;> rfl

theorem onTable_bind (x : EStateM TypeError Table α) (f : α → EStateM TypeError Table β) :
    onTable (x >>= f) = onTable x >>= fun v => onTable (f v) := by
  funext s
  simp only [onTable, Bind.bind, EStateM.bind]
  cases x s.table <;> rfl

theorem onTable_newVariable_repeats : Repeats low n (Shifted low.size)
    (onTable fun t => .ok (.list (.var t.newVariable.1)) t.newVariable.2)
    (onTable fun t => .ok (.list (.var t.newVariable.1)) t.newVariable.2) :=
  fresh_repeats.bind fun _ _ _ _ h => .pure fun _ hle => h.list.mono hle

mutual

theorem annotated_repeats (records : RecordTable) : ∀ (x : Source.TypeExpr) (n : Nat),
    Repeats low n (Shifted low.size) (onTable (annotated records x)) (onTable (annotated records x))
  | .named _ name, _ => by
    rw [annotated]
    by_cases hlist : name.name = "list"
    · simp only [if_pos hlist]
      exact onTable_newVariable_repeats
    · simp only [if_neg hlist]
      cases Prim.ofText? name.name with
      | some p => exact Repeats.pure fun _ _ => .of_closed rfl
      | none =>
        by_cases hknown : records.contains name.name = true
        · simp only [if_pos hknown]
          exact Repeats.pure fun _ _ => .of_closed rfl
        · simp only [if_neg hknown]
          exact fun _ _ _ _ => rfl
  | .list _ elem, n => by
    rw [annotated, onTable_bind]
    exact (annotated_repeats records elem n).bind fun _ _ _ _ h =>
      Repeats.pure fun _ hle => h.list.mono hle
  | .bareList _, _ => onTable_newVariable_repeats
  | .fn _ params ret, n => by
    rw [annotated, onTable_bind]
    refine (annotatedList_repeats records params n).bind fun m ps ps' _ hps => ?_
    rw [onTable_bind, onTable_bind]
    exact (annotated_repeats records ret m).bind fun m' _ _ hle hret => Repeats.pure fun _ hle' =>
      (Shifted.fn (hps.imp fun _ _ h => h.mono hle) hret).mono hle'

theorem annotatedList_repeats (records : RecordTable) : ∀ (xs : List Source.TypeExpr) (n : Nat),
    Repeats low n (fun n => Forall₂ (Shifted low.size n))
      (onTable (annotatedList records xs)) (onTable (annotatedList records xs))
  | [], _ => Repeats.pure fun _ _ => .nil
  | x :: rest, n => by
    rw [annotatedList, onTable_bind]
    refine (annotated_repeats records x n).bind fun m ty ty' _ h => ?_
    rw [onTable_bind, onTable_bind]
    refine (annotatedList_repeats records rest m).bind fun m' _ _ hle hrest => Repeats.pure
      fun _ hle' => ?_
    exact .cons (h.mono (Nat.le_trans hle hle')) (hrest.imp fun _ _ h => h.mono hle')

end

theorem annotatedType_repeats (records : RecordTable) (x : Source.TypeExpr) :
    Repeats low n (Shifted low.size) (annotatedType records x) (annotatedType records x) := by
  rw [annotatedType_eq_onTable]
  exact annotated_repeats records x n

/-! ## Calls and operators -/

theorem requireEach_repeats (boundary : Boundary) : ∀ {tys tys'}
    {es es' n}, Forall₂ (Shifted low.size n) tys tys' →
    ListMoved low.size n es es' →
    Repeats low n Same (requireEach boundary tys es) (requireEach boundary tys' es')
  | _, _, _, _, _, .nil, _ => .pure fun _ _ => rfl
  | _, _, _, _, _, .cons _ _, .nil => .pure fun _ _ => rfl
  | _, _, _, _, _, .cons hty htys, .cons he hes =>
    (requireOf_repeats hty he boundary).bind fun _ _ _ hle _ =>
      requireEach_repeats boundary (htys.imp fun _ _ h => h.mono hle) (ListMoved.mono hes hle)

theorem callType_repeats (hty : Shifted low.size n ty ty') (hargs : ListMoved low.size n args args')
    (span : Span) :
    Repeats low n (Shifted low.size) (callType ty args span) (callType ty' args' span) := by
  refine (shallow_repeats hty).bind fun m callee callee' hle h => ?_
  have hargs := hargs.mono hle
  obtain ⟨hbelow, rfl⟩ := h
  cases callee with
  | fn params ret =>
    obtain ⟨hparams, hret⟩ := Ty.Below.fn_iff.1 hbelow
    have hshifted : Forall₂ (Shifted low.size m) params (params.map (Ty.shift low.size)) := by
      rw [forall₂_map_right_iff, forall₂_same]
      exact fun p hp => ⟨hparams p hp, rfl⟩
    rw [Ty.shift_fn]
    simp only [length_map, ← hargs.length_eq]
    split
    · exact (requireEach_repeats _ hshifted hargs).bind fun _ _ _ hle _ => .pure fun _ hle' =>
        ⟨hret.mono (Nat.le_trans hle hle'), rfl⟩
    · exact .fail span (.arityMismatch _ _)
  | var v =>
    -- what is called becomes a function to a new type
    refine fresh_repeats.bind fun m' ret ret' hle' hret => ?_
    have hv : Shifted low.size m' (.var v) (.var (v + low.size)) := ⟨hbelow.mono hle', rfl⟩
    exact (require_repeats hv (.fn (hargs.mono hle').tys hret) span .expression).bind
      fun _ _ _ hle'' _ => .pure fun _ hle => hret.mono (Nat.le_trans hle'' hle)
  | error => exact .pure fun _ _ => .of_closed rfl
  | prim | list | record =>
    exact resolve_fail_repeats ⟨hbelow, rfl⟩ span .notCallable fun _ => rfl

theorem binaryType_repeats (op : BinaryOp) (hl : ExprMoved low.size n lhs lhs')
    (hr : ExprMoved low.size n rhs rhs') :
    Repeats low n (Shifted low.size) (binaryType op lhs rhs) (binaryType op lhs' rhs') := by
  rw [binaryType, binaryType]
  cases hop : operatorTypes? op.opClass with
  | some types =>
    obtain ⟨operand, result⟩ := types
    obtain ⟨p, q, rfl, rfl⟩ := operatorTypes?_eq_prim hop
    refine (requireOf_repeats (.of_closed rfl) hl _).bind fun m _ _ hle _ => ?_
    exact (requireOf_repeats (.of_closed rfl) (hr.mono hle) _).bind fun _ _ _ _ _ =>
      .pure fun _ _ => .of_closed rfl
  | none =>
    refine (requireOf_repeats hl.ty hr _).bind fun m _ _ hle _ => ?_
    refine (shallow_repeats (hl.ty.mono hle)).bind fun m' shared shared' _ hshared => ?_
    obtain ⟨hbelow, rfl⟩ := hshared
    -- only the outer form of a type says whether its values can be compared
    have hcomparable : comparable (shared.shift low.size) = comparable shared := by
      cases shared <;> rfl
    rw [hcomparable, hl.span_eq, hr.span_eq]
    split
    · exact .pure fun _ _ => .of_closed rfl
    · exact resolve_fail_repeats ⟨hbelow, rfl⟩ _ (.unsupportedOperator op) fun _ => rfl

theorem receiverRecord_repeats (h : Shifted low.size n ty ty') (span : Span) :
    Repeats low n Same (receiverRecord ty span) (receiverRecord ty' span) := by
  refine (shallow_repeats h).bind fun m ty ty' _ h => ?_
  obtain ⟨hbelow, rfl⟩ := h
  cases ty with
  | record | error => exact .pure fun _ _ => rfl
  | var => exact .fail span .unknownReceiver
  | prim | list | fn => exact resolve_fail_repeats ⟨hbelow, rfl⟩ span .notARecord fun _ => rfl

/-! ## Declarations that leave nothing open -/

/-- **Nothing is left open:** the types of fields, methods and functions have no variables. -/
structure Globals.Closed (g : Globals) : Prop where
  record_closed : ∀ r ∈ g.records.records, r.Closed
  function_closed : ∀ f ∈ g.functions, f.2.ty.vars = []

theorem Globals.Closed.function? {g : Globals} (hg : g.Closed)
    (h : g.function? name = some signature) : signature.ty.vars = [] :=
  hg.function_closed (name, signature) (mem_of_lookup h)

variable {g : Globals} {scope : Scope} {p : Pending}

/-- The type behind a member has no variables. -/
def Member.Closed : Member → Prop
  | .field _ ty | .method _ ty => ty.vars = []

theorem member_repeats (hg : g.Closed) (record : String) (name : Source.Ident) :
    Repeats low n (fun _ x x' => x' = x ∧ x.Closed) (member g record name)
      (member g record name) := by
  rw [member]
  cases hr : g.records.get? record with
  | none => exact .fail name.span (.unknownRecord record)
  | some r =>
    simp only
    cases hd : r.field? name.name with
    | some found =>
      have hfields := (hg.record_closed r (RecordTable.mem_of_get? hr)).1
      exact .pure fun _ _ => ⟨rfl, hfields found.2 (mem_of_field? hd)⟩
    | none =>
      simp only
      cases hm : r.method? name.name with
      | some found =>
        exact .pure fun _ _ =>
          ⟨rfl, (hg.record_closed r (RecordTable.mem_of_get? hr)).2 found (mem_of_find?_eq_some hm)⟩
      | none => exact .fail name.span (.unknownMember record name.name)

theorem namedField_repeats (hr : ∀ d ∈ r.fields, d.ty.vars = []) (seen : List String)
    (name : Source.Ident) :
    Repeats low n (fun _ x x' => x' = x ∧ x.2.ty.vars = []) (namedField r seen name)
      (namedField r seen name) := by
  rw [namedField]
  cases hd : r.field? name.name with
  | none => exact .fail name.span (.unknownField r.name name.name)
  | some found =>
    simp only
    split
    · exact .fail name.span (.duplicateField r.name name.name)
    · exact .pure fun _ _ => ⟨rfl, hr found.2 (mem_of_field? hd)⟩

/-! ## Patterns -/

section

variable (hg : g.Closed)

include hg

set_option linter.unusedSectionVars false in
mutual

theorem checkPattern_repeats : ∀ (q : Source.Pattern) {expected expected'}
    (bound : Scope) {n}, Shifted low.size n expected expected' →
    Repeats low n (fun n x x' => Moved low.size n Pattern.mapTy x.1 x'.1 ∧ x'.2 = x.2)
      (checkPattern g expected bound q) (checkPattern g expected' bound q)
  | .wildcard span, _, _, _, _, h => by
    refine .pure fun m hle => ⟨fun f f' hf => ?_, rfl⟩
    simp only [Pattern.mapTy, Info.mapTy, h.map_eq hle hf]
  | .binding span name, expected, expected', bound, n, h => by
    -- what follows the check that the name is new
    have hbind : ∀ m, n ≤ m → Repeats low m
        (fun n x x' => Moved low.size n Pattern.mapTy x.1 x'.1 ∧ x'.2 = x.2)
        (declareLocal name expected >>= fun id =>
          pure (.binding ⟨span, expected⟩ id, (name.name, id) :: bound))
        (declareLocal name expected' >>= fun id =>
          pure (.binding ⟨span, expected'⟩ id, (name.name, id) :: bound)) := by
      intro m hle
      refine (declareLocal_repeats name (h.mono hle)).bind fun m' id id' hle' hid => ?_
      rw [hid]
      refine .pure fun m'' hle'' => ⟨fun f f' hf => ?_, rfl⟩
      simp only [Pattern.mapTy, Info.mapTy, h.map_eq (by omega) hf]
    rw [checkPattern, checkPattern]
    split
    · exact (Repeats.fail (R := Same) name.span (.duplicateBinding name.name)).bind
        fun m _ _ hle _ => hbind m hle
    · exact hbind n (Nat.le_refl n)
  | .literal span value, _, _, _, _, h => by
    refine (require_repeats h (.of_closed rfl) span .matchPattern).bind fun m _ _ hle _ =>
      .pure fun m' hle' => ⟨fun f f' hf => ?_, rfl⟩
    simp only [Pattern.mapTy, Info.mapTy, h.map_eq (by omega) hf]
  | .record span name fields, _, _, bound, _, h => by
    rw [checkPattern, checkPattern]
    cases hr : g.records.get? name.name with
    | none => exact .fail name.span (.unknownRecord name.name)
    | some r =>
      refine (require_repeats h (.of_closed rfl) span .matchPattern).bind fun m _ _ hle _ => ?_
      have hfields := (hg.record_closed r (RecordTable.mem_of_get? hr)).1
      refine (checkFieldPatterns_repeats fields hfields bound []).bind
        fun m' x x' hle' hx => .pure fun m'' hle'' => ⟨fun f f' hf => ?_, hx.2⟩
      simp only [Pattern.mapTy, Info.mapTy, h.map_eq (by omega) hf, hx.1.map_eq hle'' hf]

theorem checkFieldPatterns_repeats :
    ∀ (fields : List (Source.Named Source.Pattern)) {r},
    (∀ d ∈ r.fields, d.ty.vars = []) → ∀ (bound : Scope) (seen : List String) {n},
    Repeats low n (fun n x x' => Moved low.size n Pattern.mapFieldsTy x.1 x'.1 ∧ x'.2 = x.2)
      (checkFieldPatterns g r bound seen fields) (checkFieldPatterns g r bound seen fields)
  | [], _, _, _, _, _ => .pure fun _ _ => ⟨fun _ _ _ => rfl, rfl⟩
  | ⟨span, name, q⟩ :: rest, _, hr, bound, seen, _ => by
    rw [checkFieldPatterns]
    refine (namedField_repeats hr seen name).bind fun m x x' _ hx => ?_
    obtain ⟨rfl, hclosed⟩ := hx
    refine (checkPattern_repeats q bound (.of_closed hclosed)).bind fun m1 y y' _ hy => ?_
    obtain ⟨q1, bound1⟩ := y
    obtain ⟨q1', _⟩ := y'
    obtain ⟨hq, rfl⟩ := hy
    refine (checkFieldPatterns_repeats rest hr _ _).bind fun m2 z z' hle hz =>
      .pure fun m3 hle' => ⟨fun f f' hf => ?_, hz.2⟩
    simp only [Pattern.mapFieldsTy, hq.map_eq (by omega) hf, hz.1.map_eq hle' hf]

end

/-! ## Expressions -/

set_option linter.unusedSectionVars false in
mutual

/-- **An expression is checked on top as it is alone.** -/
theorem checkExpr_repeats : ∀ (e : Source.Expr) (scope : Scope) {n : Nat},
    Repeats low n (ExprMoved low.size) (checkExpr g scope e) (checkExpr g scope e)
  | .literal span value, _, _ => by
    refine .pure fun m _ => ⟨fun f f' hf => ?_, .of_closed rfl, rfl⟩
    simp only [Expr.mapTy, Info.mapTy, map_closed value.ty rfl hf]
  | .ident span name, scope, _ => by
    rw [checkExpr]
    cases hid : scope.lookup name.name with
    | some id =>
      refine (localType_repeats id).bind fun m ty ty' _ hty => .pure fun m' hle =>
        ⟨fun f f' hf => ?_, hty.mono hle, rfl⟩
      simp only [Expr.mapTy, Info.mapTy, hty.map_eq hle hf]
    | none =>
      simp only
      cases hsig : g.function? name.name with
      | some signature =>
        have hclosed := hg.function? hsig
        refine .pure fun m _ => ⟨fun f f' hf => ?_, .of_closed hclosed, rfl⟩
        simp only [Expr.mapTy, Info.mapTy, map_closed signature.ty hclosed hf]
      | none => exact .fail name.span (.unknownName name.name)
  | .letIn span name none value body, scope, _ => by
    -- `m1` variables are there when the value has been checked; what is known of it then still
    -- holds when there are more
    refine (checkExpr_repeats value scope).bind fun m1 v v' _ hv => ?_
    refine (declareLocal_repeats name hv.ty).bind fun m2 id id' hle2 hid => ?_
    rw [hid]
    refine (checkExpr_repeats body _).bind fun m3 b b' hle3 hb => .pure fun m hle =>
      ⟨fun f f' hf => ?_, hb.ty.mono hle, rfl⟩
    simp only [Expr.mapTy, Info.mapTy, hb.ty.map_eq hle hf, hv.same.map_eq (by omega) hf,
      hb.same.map_eq hle hf]
  | .letIn span name (some x) value body, scope, _ => by
    refine (checkExpr_repeats value scope).bind fun m1 v v' _ hv => ?_
    refine (annotatedType_repeats g.records x).bind fun m2 ty ty' hle2 hty => ?_
    refine (requireOf_repeats hty (hv.mono hle2) .letType).bind fun m3 _ _ hle3 _ => ?_
    refine (declareLocal_repeats name (hty.mono hle3)).bind fun m4 id id' hle4 hid => ?_
    rw [hid]
    refine (checkExpr_repeats body _).bind fun m5 b b' hle5 hb => .pure fun m hle =>
      ⟨fun f f' hf => ?_, hb.ty.mono hle, rfl⟩
    simp only [Expr.mapTy, Info.mapTy, hb.ty.map_eq hle hf, hv.same.map_eq (by omega) hf,
      hb.same.map_eq hle hf]
  | .block span items, scope, _ => by
    refine (checkList_repeats items scope).bind fun m1 es es' _ hes => .pure fun m hle =>
      ⟨fun f f' hf => ?_, (blockType_shifted hes).mono hle, rfl⟩
    simp only [Expr.mapTy, Info.mapTy, (blockType_shifted hes).map_eq hle hf,
      hes.same.map_eq hle hf]
  | .ifThen span condition positive, scope, _ => by
    refine (checkExpr_repeats condition scope).bind fun m1 c c' _ hc => ?_
    refine (requireOf_repeats (.of_closed rfl) hc .ifCondition).bind fun m2 _ _ hle2 _ => ?_
    refine (checkExpr_repeats positive scope).bind fun m3 p p' hle3 hp => ?_
    refine (requireOf_repeats (.of_closed rfl) hp .ifWithoutElse).bind fun m4 _ _ hle4 _ =>
      .pure fun m hle => ⟨fun f f' hf => ?_, .of_closed rfl, rfl⟩
    simp only [Expr.mapTy, Info.mapTy, map_closed .unit rfl hf, hc.same.map_eq (by omega) hf,
      hp.same.map_eq (by omega) hf]
  | .ifElse span condition positive negative, scope, _ => by
    refine (checkExpr_repeats condition scope).bind fun m1 c c' _ hc => ?_
    refine (requireOf_repeats (.of_closed rfl) hc .ifCondition).bind fun m2 _ _ hle2 _ => ?_
    refine (checkExpr_repeats positive scope).bind fun m3 p p' hle3 hp => ?_
    refine (checkExpr_repeats negative scope).bind fun m4 q q' hle4 hq => ?_
    refine (requireOf_repeats (hp.ty.mono hle4) hq .ifBranches).bind fun m5 _ _ hle5 _ =>
      .pure fun m hle => ⟨fun f f' hf => ?_, hp.ty.mono (by omega), rfl⟩
    simp only [Expr.mapTy, Info.mapTy, hp.ty.map_eq (by omega) hf,
      hc.same.map_eq (by omega) hf, hp.same.map_eq (by omega) hf, hq.same.map_eq (by omega) hf]
  | .record span name fields, scope, _ => by
    rw [checkExpr]
    cases hr : g.records.get? name.name with
    | none => exact .fail name.span (.unknownRecord name.name)
    | some r =>
      have hfields := (hg.record_closed r (RecordTable.mem_of_get? hr)).1
      refine (checkFields_repeats fields scope hfields []).bind
        fun m1 fs fs' _ hfs => ?_
      simp only [hfs.any_eq]
      cases r.fields.find? fun d => !fs.any (·.name == d.name) with
      | some missing => exact .fail span (.missingField name.name missing.name)
      | none =>
        refine .pure fun m hle => ⟨fun f f' hf => ?_, .of_closed rfl, rfl⟩
        simp only [Expr.mapTy, Info.mapTy, map_closed (.record name.name) rfl hf,
          hfs.same.map_eq hle hf]
  | .field span target name, scope, _ => by
    rw [checkExpr]
    refine (checkExpr_repeats target scope).bind fun m1 e e' _ he => ?_
    rw [he.span_eq]
    refine (receiverRecord_repeats he.ty e.span).bind fun m2 owner owner' hle2 howner => ?_
    rw [howner]
    cases owner with
    | none =>
      -- the receiver has the error type, and so has the field
      refine .pure fun m hle => ⟨fun f f' hf => ?_, .of_closed rfl, rfl⟩
      simp only [Expr.mapTy, Info.mapTy, map_closed .error rfl hf, he.same.map_eq (by omega) hf]
    | some owner =>
      simp only
      cases hd : (g.records.get? owner).bind (·.field? name.name) with
      | none => exact .fail name.span (.unknownField owner name.name)
      | some found =>
        obtain ⟨r, hr, hfound⟩ := Option.bind_eq_some_iff.1 hd
        have hclosed := (hg.record_closed r (RecordTable.mem_of_get? hr)).1 _ (mem_of_field? hfound)
        refine .pure fun m hle => ⟨fun f f' hf => ?_, .of_closed hclosed, rfl⟩
        simp only [Expr.mapTy, Info.mapTy, map_closed _ hclosed hf, he.same.map_eq (by omega) hf]
  | .call span target args, scope, _ => by
    rw [checkExpr]
    cases hcallee : directCallee? g scope target with
    | some callee =>
      obtain ⟨-, name, -, -, -, hsig⟩ := directCallee?_eq_some hcallee
      have hclosed := hg.function? hsig
      refine (checkList_repeats args scope).bind fun m1 es es' _ hes => ?_
      refine (callType_repeats (.of_closed hclosed) hes span).bind fun m2 ty ty' hle2 hty =>
        .pure fun m hle => ⟨fun f f' hf => ?_, hty.mono hle, rfl⟩
      simp only [Expr.mapTy, Info.mapTy, hty.map_eq hle hf, hes.same.map_eq (by omega) hf]
    | none =>
      refine (checkExpr_repeats target scope).bind fun m1 e e' _ he => ?_
      refine (checkList_repeats args scope).bind fun m2 es es' hle2 hes => ?_
      refine (callType_repeats (he.ty.mono hle2) hes span).bind fun m3 ty ty' hle3 hty =>
        .pure fun m hle => ⟨fun f f' hf => ?_, hty.mono hle, rfl⟩
      simp only [Expr.mapTy, Info.mapTy, hty.map_eq hle hf, he.same.map_eq (by omega) hf,
        hes.same.map_eq (by omega) hf]
  | .methodCall span receiver name args, scope, _ => by
    rw [checkExpr]
    refine (checkExpr_repeats receiver scope).bind fun m1 e e' _ he => ?_
    rw [he.span_eq]
    refine (receiverRecord_repeats he.ty e.span).bind fun m2 owner owner' hle2 howner => ?_
    rw [howner]
    cases owner with
    | none =>
      refine (checkList_repeats args scope).bind fun m3 es es' hle3 hes => .pure fun m hle =>
        ⟨fun f f' hf => ?_, .of_closed rfl, rfl⟩
      simp only [Expr.mapTy, Info.mapTy, map_closed .error rfl hf,
        he.same.map_eq (by omega) hf, hes.same.map_eq hle hf]
    | some owner =>
      refine (member_repeats hg owner name).bind fun m3 found found' hle3 hfound => ?_
      obtain ⟨rfl, hclosed⟩ := hfound
      cases found' with
      | field index ty =>
        refine (checkList_repeats args scope).bind fun m4 es es' hle4 hes => ?_
        refine (callType_repeats (.of_closed hclosed) hes span).bind fun m5 _ _ hle5 hty =>
          .pure fun m hle => ⟨fun f f' hf => ?_, hty.mono hle, rfl⟩
        simp only [Expr.mapTy, Info.mapTy, hty.map_eq hle hf, map_closed ty hclosed hf,
          he.same.map_eq (by omega) hf, hes.same.map_eq (by omega) hf]
      | method symbol ty =>
        refine (checkList_repeats args scope).bind fun m4 es es' hle4 hes => ?_
        -- the receiver is the first argument
        have hargs : ListMoved low.size m4 (e :: es) (e' :: es') :=
          .cons (he.mono (by omega)) hes
        refine (callType_repeats (.of_closed hclosed) hargs span).bind fun m5 _ _ hle5 hty =>
          .pure fun m hle => ⟨fun f f' hf => ?_, hty.mono hle, rfl⟩
        simp only [Expr.mapTy, Info.mapTy, hty.map_eq hle hf, hargs.same.map_eq (by omega) hf]
  | .cases span scrutinee arms, scope, _ => by
    refine (checkExpr_repeats scrutinee scope).bind fun m1 e e' _ he => ?_
    refine fresh_repeats.bind fun m2 ty ty' hle2 hty => ?_
    refine (checkArms_repeats arms scope (he.ty.mono hle2) hty).bind
      fun m3 xs xs' hle3 hxs => ?_
    refine nextMatch_repeats.bind fun m4 id id' hle4 hid => .pure fun m hle =>
      ⟨fun f f' hf => ?_, hty.mono (by omega), rfl⟩
    simp only [Expr.mapTy, Info.mapTy, hty.map_eq (by omega) hf, he.same.map_eq (by omega) hf,
      hxs.map_eq (by omega) hf, hid]
  | .list span elems, scope, _ => by
    refine fresh_repeats.bind fun m1 elem elem' _ helem => ?_
    refine (checkList_repeats elems scope).bind fun m2 es es' hle2 hes => ?_
    have hconst : Forall₂ (Shifted low.size m2) (es.map fun _ => elem)
        (es'.map fun _ => elem') := by
      rw [forall₂_map_left_iff, forall₂_map_right_iff]
      exact hes.imp fun _ _ _ => helem.mono hle2
    refine (requireEach_repeats .listElement hconst hes).bind fun m3 _ _ hle3 _ => .pure
      fun m hle => ⟨fun f f' hf => ?_, helem.list.mono (by omega), rfl⟩
    simp only [Expr.mapTy, Info.mapTy, helem.list.map_eq (by omega) hf,
      hes.same.map_eq (by omega) hf]
  | .binary span op lhs rhs, scope, _ => by
    refine (checkExpr_repeats lhs scope).bind fun m1 l l' _ hl => ?_
    refine (checkExpr_repeats rhs scope).bind fun m2 r r' hle2 hr => ?_
    refine (binaryType_repeats op (hl.mono hle2) hr).bind fun m3 ty ty' hle3 hty => .pure
      fun m hle => ⟨fun f f' hf => ?_, hty.mono hle, rfl⟩
    simp only [Expr.mapTy, Info.mapTy, hty.map_eq hle hf, hl.same.map_eq (by omega) hf,
      hr.same.map_eq (by omega) hf]
  | .unary span op operand, scope, _ => by
    have hop : (unaryType op).vars = [] := by cases op <;> rfl
    refine (checkExpr_repeats operand scope).bind fun m1 e e' _ he => ?_
    refine (requireOf_repeats (.of_closed hop) he .unaryOperand).bind fun m2 _ _ hle2 _ => .pure
      fun m hle => ⟨fun f f' hf => ?_, .of_closed hop, rfl⟩
    simp only [Expr.mapTy, Info.mapTy, map_closed _ hop hf, he.same.map_eq (by omega) hf]

theorem checkList_repeats : ∀ (es : List Source.Expr) (scope : Scope) {n},
    Repeats low n (ListMoved low.size) (checkList g scope es) (checkList g scope es)
  | [], _, _ => .pure fun _ _ => .nil
  | e :: rest, scope, _ => by
    refine (checkExpr_repeats e scope).bind fun m1 x x' _ hx => ?_
    refine (checkList_repeats rest scope).bind fun m2 xs xs' hle2 hxs => .pure fun m hle => ?_
    exact .cons (hx.mono (by omega)) (ListMoved.mono hxs hle)

theorem checkFields_repeats : ∀ (fields : List (Source.Named Source.Expr))
    (scope : Scope) {r}, (∀ d ∈ r.fields, d.ty.vars = []) → ∀ (seen : List String)
    {n}, Repeats low n (FieldsMoved low.size) (checkFields g scope r seen fields)
      (checkFields g scope r seen fields)
  | [], _, _, _, _, _ => .pure fun _ _ => ⟨fun _ _ _ => rfl, rfl⟩
  | ⟨span, name, value⟩ :: rest, scope, _, hr, seen, _ => by
    rw [checkFields]
    refine (namedField_repeats hr seen name).bind fun m1 x x' _ hx => ?_
    obtain ⟨rfl, hclosed⟩ := hx
    refine (checkExpr_repeats value scope).bind fun m2 v v' _ hv => ?_
    refine (requireOf_repeats (.of_closed hclosed) hv .recordField).bind fun m3 _ _ hle3 _ => ?_
    refine (checkFields_repeats rest scope hr _).bind fun m4 fs fs' hle4 hfs => .pure
      fun m hle => ⟨fun f f' hf => ?_, congrArg (name.name :: ·) hfs.names_eq⟩
    simp only [Expr.mapFieldsTy, hv.same.map_eq (by omega) hf, hfs.same.map_eq hle hf]

theorem checkArms_repeats : ∀ (arms : List (Source.Arm Source.Expr))
    (scope : Scope) {scrutinee scrutinee' result result' n},
    Shifted low.size n scrutinee scrutinee' → Shifted low.size n result result' →
    Repeats low n (fun n => Moved low.size n Expr.mapArmsTy)
      (checkArms g scope scrutinee result arms) (checkArms g scope scrutinee' result' arms)
  | [], _, _, _, _, _, _, _, _ => .pure fun _ _ _ _ _ => rfl
  | ⟨span, q, none, body⟩ :: rest, scope, _, _, _, _, _, hs, hr => by
    refine (checkPattern_repeats hg q [] hs).bind fun m1 x x' hle1 hx => ?_
    obtain ⟨q1, bound⟩ := x
    obtain ⟨q1', _⟩ := x'
    obtain ⟨hq, rfl⟩ := hx
    refine (checkExpr_repeats body _).bind fun m2 b b' hle2 hb => ?_
    refine (requireOf_repeats (hr.mono (by omega)) hb .matchArm).bind fun m3 _ _ hle3 _ => ?_
    refine (checkArms_repeats rest scope (hs.mono (by omega)) (hr.mono (by omega))).bind
      fun m4 xs xs' hle4 hxs => .pure fun m hle f f' hf => ?_
    simp only [Expr.mapArmsTy, hq.map_eq (by omega) hf, hb.same.map_eq (by omega) hf,
      hxs.map_eq hle hf]
  | ⟨span, q, some guard, body⟩ :: rest, scope, _, _, _, _, _, hs,
      hr => by
    refine (checkPattern_repeats hg q [] hs).bind fun m1 x x' hle1 hx => ?_
    obtain ⟨q1, bound⟩ := x
    obtain ⟨q1', _⟩ := x'
    obtain ⟨hq, rfl⟩ := hx
    refine (checkExpr_repeats guard _).bind fun m2 c c' hle2 hc => ?_
    refine (requireOf_repeats (.of_closed rfl) hc .matchGuard).bind fun m3 _ _ hle3 _ => ?_
    refine (checkExpr_repeats body _).bind fun m4 b b' hle4 hb => ?_
    refine (requireOf_repeats (hr.mono (by omega)) hb .matchArm).bind fun m5 _ _ hle5 _ => ?_
    refine (checkArms_repeats rest scope (hs.mono (by omega)) (hr.mono (by omega))).bind
      fun m6 xs xs' hle6 hxs => .pure fun m hle f f' hf => ?_
    simp only [Expr.mapArmsTy, hq.map_eq (by omega) hf, hc.same.map_eq (by omega) hf,
      hb.same.map_eq (by omega) hf, hxs.map_eq hle hf]

end

end

/-! ## Bodies -/

theorem declareParams_repeats : ∀ (params : List (Source.Ident × Ty)) (scope : Scope) {n},
    (∀ x ∈ params, x.2.vars = []) →
    Repeats low n Same (declareParams scope params) (declareParams scope params)
  | [], _, _, _ => .pure fun _ _ => rfl
  | (name, ty) :: rest, _, _, hclosed => by
    obtain ⟨hty, hrest⟩ := forall_mem_cons.1 hclosed
    refine (declareLocal_repeats name (.of_closed hty)).bind fun m id id' _ hid => ?_
    rw [hid]
    refine (declareParams_repeats rest _ hrest).bind fun m' x x' _ hx => ?_
    rw [hx]
    exact .pure fun _ _ => rfl

theorem Mirror.map_locals {f f' : Ty → Ty} (h : Mirror low s s')
    (hf : ∀ ty, ty.Below s.table.size → f ty = f' (ty.shift low.size)) :
    (s.locals.map fun l => { l with ty := f l.ty }) =
      s'.locals.map fun l => { l with ty := f' l.ty } := by
  have hlocals := h.locals_shifted
  generalize s.locals = L at hlocals
  generalize s'.locals = L' at hlocals
  induction hlocals with
  | nil => rfl
  | @cons l l' _ _ hl _ ih =>
    obtain ⟨hspan, hname, hty⟩ := hl
    rw [map_cons, map_cons, ih, hspan, hname, hty.map_eq le_rfl hf]

/-- A queued body whose parameters and result have no variables. -/
theorem Pending.params_closed (hp : p.signature.ty.vars = []) : ∀ x ∈ p.params, x.2.vars = [] := by
  rw [Signature.ty, Ty.vars, append_eq_nil_iff] at hp
  have hsig : ∀ ty ∈ p.signature.params, ty.vars = [] := by
    intro ty hty
    rw [eq_nil_iff_forall_not_mem]
    intro v hv
    have hmem := Ty.mem_varsList.2 ⟨ty, hty, hv⟩
    rw [hp.1] at hmem
    exact nomatch hmem
  intro x hx
  rw [params] at hx
  cases hkind : p.kind with
  | free =>
    rw [hkind] at hx
    exact hsig x.2 (of_mem_zip hx).2
  | method =>
    rw [hkind] at hx
    exact hsig x.2 (of_mem_zip hx).2

theorem Pending.ret_closed (hp : p.signature.ty.vars = []) : p.signature.ret.vars = [] := by
  rw [Signature.ty, Ty.vars, append_eq_nil_iff] at hp
  exact hp.2

/-- **A body is checked on top as it is alone.** -/
theorem checkBody_repeats (hg : g.Closed) (hp : p.signature.ty.vars = []) :
    Repeats low n (fun n => Moved low.size n Typed.Function.mapTy) (checkBody g p)
      (checkBody g p) := by
  have hret : ∀ m, Shifted low.size m p.signature.ret p.signature.ret := fun _ =>
    .of_closed (Pending.ret_closed hp)
  refine (declareParams_repeats p.params [] (Pending.params_closed hp)).bind fun m1 x x' _ hx => ?_
  obtain rfl := hx
  refine (checkExpr_repeats hg p.definition.body _).bind fun m2 e e' _ he => ?_
  refine (require_repeats (hret m2) he.ty _ _).bind fun m3 _ _ hle3 _ => fun s s' h hn =>
    ⟨Nat.le.refl, fun f f' hf => ?_, h⟩
  -- the locals are those of the final state, which the mirror relates
  simp only [Typed.Function.mapTy, h.map_locals hf, h.matchCount_eq, (hret _).map_eq le_rfl hf,
    he.same.map_eq (Nat.le_trans hle3 hn) hf]

end Infer

end Sluice
