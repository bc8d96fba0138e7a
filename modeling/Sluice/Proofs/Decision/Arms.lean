import Sluice.Proofs.Decision.Select
import Sluice.Proofs.Typing.Preservation

/-!
# Trying the arms of a match

Evaluating the arms of a match tries its candidates one after the other and then
evaluates the body of the one that is taken. The candidates are those of the
match's tree, so this is what the tree has to do (`evalArms_eq_tryArms`).
-/

namespace Sluice

open List

namespace Typed

variable {records : RecordTable} {locals : List Local}

mutual

/-- A well typed pattern fits its type. -/
theorem Pattern.WellTyped.fits :
    ∀ {p : Pattern} {ty}, p.WellTyped records locals ty → p.Fits records ty
  | .wildcard _, _, _ | .binding _ _, _, _ => trivial
  | .literal _ _, _, hp => hp.2
  | .record _ _ fields, _, hp => by
    obtain ⟨-, hty, hn, r, hr, hfields⟩ := hp
    exact ⟨hty, hn, r, hr, Pattern.WellTypedFields.fits hfields⟩

/-- Well typed field patterns fit the types of their fields. -/
theorem Pattern.WellTypedFields.fits : ∀ {fields r},
    Pattern.WellTypedFields records locals r fields → Pattern.FitsFields records r fields
  | [], _, _ => trivial
  | ⟨_, _, _, p⟩ :: rest, r, hfields => by
    obtain ⟨⟨d, hd, hp⟩, hrest⟩ := hfields
    exact ⟨⟨d, hd.1, Pattern.WellTyped.fits hp⟩, Pattern.WellTypedFields.fits hrest⟩

end

/-- The bindings of a pattern are for its locals. -/
theorem Pattern.map_id_patternBindings (p : Pattern) :
    (Decision.patternBindings .root p).map (·.id) = p.binders := by
  have hbinds := binds_eq_map (h := ⟨[]⟩) (v := .unit) .root p
  have hfst := congrArg (List.map Prod.fst) hbinds
  rw [map_fst_binds, map_map] at hfst
  exact hfst.symm

end Typed

namespace Decision

open Machine
open Typed (Arm Env Eval Expr)

/-- Values for bindings, from the parts they lead to. -/
def boundTo (part : Scrutinee) (bindings : List Binding) : List (Typed.LocalId × Value) :=
  bindings.map fun b => (b.id, part b.occurrence)

/-- **The first candidate that is taken**, its guard evaluated with its locals bound. -/
def tryArms (calls : Calls) (env : Env) (guard? : Nat → Option Expr) (part : Scrutinee) :
    List Candidate → Eval Nat
  | [] => throw .unmatched
  | ⟨arm, _, false⟩ :: _ => return arm
  | ⟨arm, bindings, true⟩ :: rest =>
    match guard? arm with
    | none => return arm
    | some guard => do
      let g ← guard.eval calls (env.bind (boundTo part bindings))
      if g.isTrue then return arm else tryArms calls env guard? part rest

/-- The value of the body of an arm, its locals bound. -/
def evalBody (calls : Calls) (env : Env) (h : Heap) (v : Value) (arm? : Nat → Option (Arm Expr))
    (i : Nat) : Eval Value :=
  match arm? i with
  | none => throw .unmatched
  | some a => a.body.eval calls (env.bind (a.pattern.binds h v))

variable {calls : Calls} {env : Env} {h : Heap} {v : Value}

/-- Evaluating arms is trying the candidates of their rows. -/
theorem evalArms_eq_rowCandidates (arm? : Nat → Option (Arm Expr)) :
    ∀ arms k, (∀ j, arms[j]? = arm? (k + j)) →
      Expr.evalArms calls env h v arms =
        tryArms calls env (fun i => (arm? i).bind (·.guard)) (h.part v)
          (rowCandidates (h.part v) ((arms.zipIdx k).map fun (a, i) =>
            { arm := i
              tests := patternTests .root a.pattern
              bindings := patternBindings .root a.pattern
              guarded := a.guard.isSome })) >>= evalBody calls env h v arm?
  | [], k, _ => rfl
  | a :: rest, k, hat => by
    have ih := evalArms_eq_rowCandidates arm? rest (k + 1) fun j => by
      rw [← Nat.add_right_comm, Nat.add_assoc, ← hat (j + 1)]
      rfl
    have ha : arm? k = some a := (hat 0).symm
    have hacc := Typed.Pattern.accepts_eq_all (h := h) (v := v) .root a.pattern
    have hbinds := Typed.Pattern.binds_eq_map (h := h) (v := v) .root a.pattern
    change a.pattern.accepts h v = _ at hacc
    obtain ⟨span, pattern, guard, body⟩ := a
    rw [zipIdx_cons, map_cons, rowCandidates, Row.passes]
    rw [← hacc]
    cases guard with
    | none =>
      simp only [Expr.evalArms, Row.candidate, Option.isSome_none, Bool.false_eq_true, if_false]
      split
      · simp only [tryArms, pure_bind, evalBody, ha]
      · exact ih
    | some guard =>
      simp only [Expr.evalArms, Row.candidate, Option.isSome_some, if_true]
      split
      · simp only [tryArms, ha, Option.bind_some, bind_assoc, boundTo, ← hbinds]
        refine bind_congr fun g => ?_
        split
        · simp only [pure_bind, evalBody, ha]
        · exact ih
      · exact ih

variable {records : RecordTable} {fns : FunctionTypes} {objs : ObjectTypes} {ty : Ty}

/-- **Evaluating the arms of a match is trying the candidates of its tree.** -/
theorem evalArms_eq_tryArms (hh : h.Typed records fns objs) (hv : HasType fns objs v ty)
    (hp : ∀ a ∈ arms, a.pattern.Fits records ty) :
    Expr.evalArms calls env h v arms =
      tryArms calls env (fun i => arms[i]?.bind (·.guard)) (h.part v)
        ((compile arms).candidates (h.part v)) >>= evalBody calls env h v (arms[·]?) := by
  rw [candidates_compile hh hv hp]
  exact evalArms_eq_rowCandidates (arms[·]?) arms 0 fun j => by rw [Nat.zero_add]

/-- The candidates of rows are rows. -/
theorem mem_rowCandidates : ∀ {rows}, c ∈ rowCandidates part rows → ∃ r ∈ rows, c = r.candidate
  | [], hc => nomatch hc
  | r :: rest, hc => by
    have hrest : c ∈ rowCandidates part rest → ∃ r' ∈ r :: rest, c = r'.candidate := fun hc =>
      let ⟨r', hr', h⟩ := mem_rowCandidates hc
      ⟨r', mem_cons_of_mem _ hr', h⟩
    rw [rowCandidates] at hc
    split at hc
    · split at hc
      · rcases mem_cons.1 hc with rfl | hc
        · exact ⟨r, mem_cons_self, rfl⟩
        · exact hrest hc
      · exact ⟨r, mem_cons_self, mem_singleton.1 hc⟩
    · exact hrest hc

/-- The candidates of a match's tree are arms of it, with the bindings of their patterns. -/
theorem mem_candidates_compile {arms : List (Arm Expr)} (hh : h.Typed records fns objs)
    (hv : HasType fns objs v ty) (hp : ∀ a ∈ arms, a.pattern.Fits records ty)
    (hc : c ∈ (compile arms).candidates (h.part v)) :
    ∃ a, arms[c.arm]? = some a ∧ c.bindings = patternBindings .root a.pattern := by
  rw [candidates_compile hh hv hp] at hc
  obtain ⟨r, hr, rfl⟩ := mem_rowCandidates hc
  obtain ⟨⟨a, i⟩, hmem, rfl⟩ := mem_map.1 hr
  exact ⟨a, mem_zipIdx_iff_getElem?.1 hmem, rfl⟩

end Decision

end Sluice
