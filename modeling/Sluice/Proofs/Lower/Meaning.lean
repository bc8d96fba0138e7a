import Sluice.Proofs.Infer.Program
import Sluice.Proofs.Lower.Follow

/-!
# Lowering preserves meaning

A call of a lowered function comes to what evaluating its body comes to: the same
calls, allocations and stores in the same order, the same traps and the same
value. Called functions may do anything that keeps the types of the program, and
so may the caller: nothing is known of the registers but the arguments.
-/

namespace Sluice.Flow

open List Machine
open Typed (Env Expr LocalId Program)

variable {prog : Program} {locals : List Typed.Local} {calls : Calls} {g : Function Reg}
  {K : Layout} {objs : ObjectTypes} {f : Typed.Function}

/-! ## Arguments -/

/-- Arguments arrive in the registers of the parameters. -/
theorem Agrees.arrive (hK : K.Apart) (hregs : Forall₂ (fun id r => K.reg? id = some r) ids rs) :
    ∀ {args scope env s},
      args.length = ids.length → Agrees K scope env s →
      Agrees K (ids ++ scope) (env.bind (ids.zip args)) { s with
        memory := (rs.zip args).foldl (fun m (p, v) => Function.update m (Cell.cell p) v)
          s.memory } := by
  induction hregs with
  | nil => exact fun _ h => h
  | @cons id r ids rs hr hrest ih =>
    intro args scope env s hlen h
    cases args with
    | nil => cases hlen
    | cons v args =>
      have hagrees := ih (Nat.succ.inj hlen) (h.bind hK hr v)
      exact fun id' hid' => hagrees id' (by
        simp only [cons_append, mem_cons, mem_append] at hid' ⊢
        tauto)

/-- Arguments that have the types of the parameters are as many, and fit one by one. -/
theorem typed_zip : ∀ {ids : List LocalId} {args},
    (∀ id ∈ ids, id < locals.length) →
    Forall₂ (HasType fns objs) args (ids.filterMap fun id => locals[id]?.map (·.ty)) →
    args.length = ids.length ∧
      ∀ b ∈ ids.zip args, ∃ ty, Typed.HasLocal locals b.1 ty ∧ HasType fns objs b.2 ty
  | [], args, _, h => by
    cases h
    exact ⟨rfl, nofun⟩
  | id :: ids, args, hids, h => by
    obtain ⟨hid, hids⟩ := forall_mem_cons.1 hids
    have hlocal : locals[id]? = some locals[id] := getElem?_eq_getElem hid
    rw [filterMap_cons_some (by rw [hlocal]; rfl)] at h
    obtain _ | ⟨hv, h⟩ := h
    obtain ⟨hlen, hall⟩ := typed_zip hids h
    exact ⟨congrArg Nat.succ hlen, forall_mem_cons.2 ⟨⟨_, ⟨_, hlocal, rfl⟩, hv⟩, hall⟩⟩

/-! ## Functions -/

/-- No instruction stops for want of an arm. -/
theorem Runs.ne_unmatched (h : Runs calls g is s e t) : e ≠ .stopped .unmatched := by
  induction h with
  | next _ _ ih => exact ih
  | goto _ _ _ ih => exact ih
  | @halt i _ s _ _ hi =>
    rintro rfl
    cases i <;> simp only [Instr.step] at hi <;> (try split at hi) <;> cases hi

/-- **A call of a lowered function comes to what evaluation comes to.** -/
theorem Lowered.yields (hL : Lowered f g K) (hf : f.WellTyped prog)
    (hcalls : calls.Typed prog.records prog.functionTypes) {w : World}
    (hargs : Forall₂ (HasType prog.functionTypes objs) args f.paramTypes)
    (hw : w.heap.Typed prog.records prog.functionTypes objs)
    (hends : Typed.Ends (f.eval calls args w) e w') (m : Memory) :
    g.Yields calls m args w e w' := by
  let S : Setting K := ⟨prog, f.locals, calls, g, hL.blocks, hL.inj, hcalls⟩
  obtain ⟨p, o, q, hentry, hcode, hret⟩ := hL.body
  have hrange : (f.params ++ f.body.binders).Nodup := hf.locals_eq ▸ nodup_range
  have hd : Distinct f.params f.body.binders :=
    ⟨hrange.of_append_right, fun id hid hid' => disjoint_of_nodup_append hrange hid hid'⟩
  have hlt : ∀ id ∈ f.params, id < f.locals.length := fun id hid =>
    mem_range.1 (hf.locals_eq ▸ mem_append_left _ hid)
  obtain ⟨hlen, hzip⟩ := typed_zip hlt hargs
  let env : Env := Env.bind (fun _ => .unit) (f.params.zip args)
  let s : State := { memory := g.arrive m args, world := w }
  have hnone : Agrees K [] (fun _ => .unit) { memory := m, world := w } := forall_mem_nil _
  have hagrees : Agrees K (f.params ++ []) env s := hnone.arrive S.apart hL.params hlen
  have hsuits : env.Suits prog.functionTypes objs f.locals
      ((f.params.zip args).map (·.1) ++ []) :=
    Env.Suits.bind hzip (forall_mem_nil _)
  rw [append_nil] at hagrees hsuits
  rw [map_fst_zip (Nat.le_of_eq hlen.symm)] at hsuits
  have htracks := simulates_expr (S := S) hf.body_typed hd hcode ⟨hagrees, hsuits, hw⟩
  rw [← S.blocks] at hentry
  obtain ⟨b, hb, hinstrs⟩ := Option.map_eq_some_iff.1 hentry
  change Tracks S p.rest s (f.eval calls args w) _ at htracks
  cases hr : f.eval calls args w with
  | ok v w1 =>
    rw [hr] at htracks hends
    obtain ⟨is, s', hleads, rfl, ⟨rfl, rfl, -⟩, -⟩ := htracks
    obtain ⟨rfl, rfl⟩ := hends
    refine ⟨b, s', hb, ?_, rfl⟩
    rw [hinstrs]
    exact hleads _ _ (hret ▸ .halt rfl)
  | error stop w1 =>
    rw [hr] at htracks hends
    obtain ⟨t, ht, rfl⟩ := htracks
    obtain ⟨rfl, rfl⟩ := hends
    exact ⟨b, t, hb, hinstrs ▸ ht, rfl⟩

/-- A match of a function without an unhandled value has no failure in its tree. -/
theorem firstFailure?_eq_none
    (h : ∀ witness span, .nonExhaustive witness span ∉ Decision.functionErrors records f) :
    ∀ site ∈ Decision.sites f.body, (Decision.compile site.arms).firstFailure? = none := by
  intro site hsite
  rw [Option.eq_none_iff_forall_ne_some]
  intro k hk
  refine h (k.witness records site.scrutinee) site.span (mem_flatMap.2 ⟨site, hsite, ?_⟩)
  rw [Decision.errors, hk]
  exact mem_append_right _ (mem_singleton_self _)

/-- **Every function of a program that passes type inference is lowered**, if its matches handle
every value. -/
theorem exists_lower_of_infer (h : Infer.infer source = .ok prog) (hf : f ∈ prog.functions)
    (hexhaustive : ∀ witness span,
      .nonExhaustive witness span ∉ Decision.functionErrors prog.records f) :
    f.WellTyped prog ∧
    (∀ site ∈ Decision.sites f.body, (Decision.compile site.arms).firstFailure? = none) ∧
    ∃ g K, lower f (Decision.decisions f) = .ok g ∧ Lowered f g K := by
  obtain ⟨herrors, rfl⟩ := Infer.infer_eq_ok.1 h
  have hwt := Infer.wellTyped_of_check (List.isEmpty_iff.1 herrors) f hf
  have htotal := firstFailure?_eq_none hexhaustive
  exact ⟨hwt, htotal, lower_eq_ok hwt htotal⟩

/-- **Lowering preserves meaning.** Every function of a program that passes type inference is
lowered if its matches handle every value. A call of the result, whatever the registers hold
before, then comes to what evaluating the body comes to, and to nothing else: the same calls,
allocations and stores in the same order, and the same value or trap. -/
theorem lower_yields_iff {source : Source.Program} (h : Infer.infer source = .ok prog)
    {f : Typed.Function} (hf : f ∈ prog.functions)
    (hexhaustive : ∀ witness span,
      .nonExhaustive witness span ∉ Decision.functionErrors prog.records f) :
    ∃ g, lower f (Decision.decisions f) = .ok g ∧
      ∀ (calls : Calls) (objs : ObjectTypes) (args : List Value) (w : World),
        calls.Typed prog.records prog.functionTypes →
        List.Forall₂ (HasType prog.functionTypes objs) args f.paramTypes →
        w.heap.Typed prog.records prog.functionTypes objs →
        ∃ e w', Typed.Ends (f.eval calls args w) e w' ∧ e ≠ .stopped .unmatched ∧
          ∀ m e' w'', g.Yields calls m args w e' w'' ↔ e' = e ∧ w'' = w' := by
  obtain ⟨herrors, rfl⟩ := Infer.infer_eq_ok.1 h
  have hwt := Infer.wellTyped_of_check (List.isEmpty_iff.1 herrors) f hf
  obtain ⟨g, K, hlower, hL⟩ := lower_eq_ok hwt (firstFailure?_eq_none hexhaustive)
  refine ⟨g, hlower, fun calls objs args w hcalls hargs hw => ?_⟩
  obtain ⟨e, w', hends⟩ := Typed.exists_ends (f.eval calls args w)
  have hyields := hL.yields hwt hcalls hargs hw hends
  refine ⟨e, w', hends, ?_, fun m e' w'' => ⟨fun h => h.unique (hyields m), ?_⟩⟩
  · obtain ⟨_, _, _, hruns, -⟩ := hyields fun _ => .unit
    exact hruns.ne_unmatched
  · rintro ⟨rfl, rfl⟩
    exact hyields m

open Infer (pairSource)

/-- The value and the world that an evaluation comes to, if it comes to a value. -/
def result? : EStateM.Result Stop World Value → Option (Value × World)
  | .ok v w => some (v, w)
  | .error _ _ => none

/-- A heap with a pair and a list. -/
def pickWorld : World :=
  { heap := ⟨[⟨.record "Pair" 2, [.lit (.int 0), .lit (.int 2)]⟩, ⟨.list 1, [.bool true]⟩]⟩ }

/-- The types of the objects in `pickWorld`. -/
def pickTypes : ObjectTypes := fun a => [.record "Pair", .list .bool][a]?

theorem pickWorld_typed (fns : FunctionTypes) :
    pickWorld.heap.Typed (Infer.check pairSource).program.records fns pickTypes := by
  have hr : ((Infer.check pairSource).program.records.get? "Pair").map
      (fun r => r.fields.map (·.ty)) = some [.int, .int] := by decide +kernel
  obtain ⟨r, hr, hfields⟩ := Option.map_eq_some_iff.1 hr
  intro a ty ha
  match a, ha with
  | 0, ha =>
    cases ha
    refine ⟨_, rfl, r, hr, fun i d hd => ?_⟩
    have hty : (r.fields.map (·.ty))[i]? = some d.ty := by rw [getElem?_map, hd]; rfl
    rw [hfields] at hty
    match i, hty with
    | 0, hty => exact ⟨_, rfl, Option.some.inj hty ▸ .lit _⟩
    | 1, hty => exact ⟨_, rfl, Option.some.inj hty ▸ .lit _⟩
  | 1, ha =>
    cases ha
    exact ⟨_, rfl, fun v hv => mem_singleton.1 hv ▸ .lit _⟩

/-- The method of `pairSource` takes its first arm. -/
theorem lower_yields_iff_pick : ∃ f ∈ (Infer.check pairSource).program.functions,
    f.paramTypes = [.record "Pair", .list .bool] ∧ ∃ g, lower f (Decision.decisions f) = .ok g ∧
      ∀ m e w, g.Yields (fun _ _ _ => none) m [.object 0, .object 1] pickWorld e w ↔
        e = .value (.lit (.int 2)) ∧ w = pickWorld := by
  have hok : Infer.infer pairSource = .ok (Infer.check pairSource).program :=
    Infer.infer_eq_ok.2 ⟨by decide +kernel, rfl⟩
  have hall : (Infer.check pairSource).program.functions.head?.any (fun f =>
      f.paramTypes == [.record "Pair", .list .bool] &&
      (Decision.functionErrors (Infer.check pairSource).program.records f).isEmpty &&
      result? (f.eval (fun _ _ _ => none) [.object 0, .object 1] pickWorld) ==
        some (.lit (.int 2), pickWorld)) = true := by decide +kernel
  cases hhead : (Infer.check pairSource).program.functions.head? with
  | none => rw [hhead] at hall; cases hall
  | some f =>
    rw [hhead] at hall
    simp only [Option.any_some, Bool.and_eq_true, beq_iff_eq, List.isEmpty_iff] at hall
    obtain ⟨⟨hparams, herrors⟩, heval⟩ := hall
    have hf := mem_of_head? hhead
    obtain ⟨g, hg, hall⟩ := lower_yields_iff hok hf fun _ _ => by
      rw [herrors]
      exact not_mem_nil
    refine ⟨f, hf, hparams, g, hg, ?_⟩
    obtain ⟨e, w, hends, -, hyields⟩ := hall (fun _ _ _ => none) pickTypes [.object 0, .object 1]
      pickWorld (fun _ _ _ _ _ _ _ _ _ _ _ h => absurd h (Option.some_ne_none _).symm)
      (hparams ▸ .cons (.record rfl) (.cons (.list rfl) .nil)) (pickWorld_typed _)
    cases hr : f.eval (fun _ _ _ => none) [.object 0, .object 1] pickWorld with
    | ok v w' =>
      rw [hr] at heval hends
      cases heval
      obtain ⟨rfl, rfl⟩ := hends
      exact hyields
    | error stop w' => rw [hr] at heval; cases heval

end Sluice.Flow
