import Sluice.Proofs.Unify.Complete
import Sluice.Proofs.Unify.Reached

/-!
# Unification is most general

A solution of a table gives every variable a type without variables, in
agreement with the sets and bindings of the table. Unifying two types keeps
exactly those solutions under which they are equal, and fails only if there are
none (`unify_mostGeneral`).
-/

namespace Sluice.Unify

namespace Table

variable {t : Table} {θ : TyVar → Ty}

/-- **A solution:** types without variables, the same for all variables of a set, and as the
bindings say. -/
structure Solution (t : Table) (θ : TyVar → Ty) : Prop where
  closed : ∀ v, (θ v).vars = []
  sets : ∀ v w, t.root v = t.root w → θ v = θ w
  bindings : ∀ v ty, t.binding? v = some ty → θ v = ty.subst θ

theorem IsForest.solution_iff (ht : t.IsForest) :
    t.Solution θ ↔ (∀ v, (θ v).vars = []) ∧ Solves θ t := by
  constructor
  · rintro ⟨hclosed, hsets, hbindings⟩
    refine ⟨hclosed, fun v => ?_⟩
    cases hb : t.binding? v with
    | none => exact hsets v (t.root v) (ht.root_root v).symm
    | some ty => exact hbindings v ty hb
  · rintro ⟨hclosed, hsolves⟩
    refine ⟨hclosed, fun v w hvw => ?_, fun v ty => hsolves.of_binding?⟩
    rw [← hsolves.root ht v, hvw, hsolves.root ht w]

end Table

open Table

variable {t : Table} {a b : Ty} {σ : List Table}

/-- **Unification is most general.** In a table of a run that does not hold the error type, for
types that do not hold it either: if unifying them succeeds, the solutions afterwards are exactly
the solutions before under which the two are equal, and they are read as one type; if it fails, no
solution makes them equal. -/
theorem unify_mostGeneral (h : Reached σ t)
    (hfree : ∀ v ty, t.binding? v = some ty → ty.hasError = false)
    (ha : a.Below t.size) (hb : b.Below t.size) (ha' : a.hasError = false)
    (hb' : b.hasError = false) :
    (∀ t', unify a b t = .ok () t' →
      (∀ θ, t'.Solution θ ↔ t.Solution θ ∧ a.subst θ = b.subst θ) ∧ t'.resolve a = t'.resolve b) ∧
    ∀ clash t', unify a b t = .error clash t' → ∀ θ, t.Solution θ → a.subst θ ≠ b.subst θ := by
  have ht := h.sane.toGrounded.sound hfree
  refine ⟨fun t' hok => ?_, fun clash t' herror θ hθ heq => ?_⟩
  · obtain ⟨hrefines, hequal⟩ := unify_unifies ht ⟨ha, ha'⟩ ⟨hb, hb'⟩ hok
    refine ⟨fun θ => ?_, hequal _ hrefines.sound.solves_resolve⟩
    rw [hrefines.sound.toIsForest.solution_iff, ht.toIsForest.solution_iff]
    constructor
    · rintro ⟨hclosed, hθ⟩
      exact ⟨⟨hclosed, hrefines.solves θ hθ⟩, hequal θ hθ⟩
    · rintro ⟨⟨hclosed, hθ⟩, heq⟩
      exact ⟨hclosed, unify_solves ht ⟨ha, ha'⟩ ⟨hb, hb'⟩ hok hθ heq⟩
  · obtain ⟨t', hok⟩ := unify_eq_ok ht ⟨ha, ha'⟩ ⟨hb, hb'⟩ (ht.toIsForest.solution_iff.1 hθ).2 heq
    rw [herror] at hok
    cases hok

/-- The first of four variables is bound to a list of the second. Function types that share
variables are unified part by part; the second variable and a type that holds the first have no
solution. -/
theorem unify_mostGeneral_bound :
    let a : Ty := .fn [.var 0, .var 2] (.var 3)
    let b : Ty := .fn [.var 2, .list (.var 1)] (.list (.var 2))
    (∃ t', unify a b bound = .ok () t' ∧
      (∀ θ, t'.Solution θ ↔ bound.Solution θ ∧ a.subst θ = b.subst θ) ∧
      t'.resolve b = .fn [.list (.var 1), .list (.var 1)] (.list (.list (.var 1)))) ∧
    (∃ clash t', unify (.var 1) (.fn [.var 0] .int) bound = .error clash t') ∧
    ∀ θ, bound.Solution θ → θ 1 ≠ .fn [θ 0] .int := by
  intro a b
  obtain ⟨t0, h⟩ := bound_reached
  have hfree : ∀ v ty, bound.binding? v = some ty → ty.hasError = false := by
    intro v ty hv
    have hall : ∀ v < bound.size, ∀ ty ∈ bound.binding? v, ty.hasError = false := by decide +kernel
    exact hall v (h.sane.toIsForest.lt_of_binding? hv) ty hv
  have hok : unify a b bound = .ok () (finalState (unify a b bound)) := by rfl
  have hread : (finalState (unify a b bound)).resolve b =
      .fn [.list (.var 1), .list (.var 1)] (.list (.list (.var 1))) := by decide +kernel
  have herror : unify (.var 1) (.fn [.var 0] .int) bound =
      .error (.infinite 1 (.fn [.list (.var 1)] .int)) bound := by rfl
  obtain ⟨hequal, -⟩ := unify_mostGeneral (a := a) (b := b) h hfree (by decide +kernel)
    (by decide +kernel) (by decide +kernel) (by decide +kernel)
  obtain ⟨-, hnone⟩ := unify_mostGeneral (a := .var 1) (b := .fn [.var 0] .int) h hfree
    (by decide +kernel) (by decide +kernel) (by decide +kernel) (by decide +kernel)
  exact ⟨⟨_, hok, (hequal _ hok).1, hread⟩, ⟨_, _, herror⟩, hnone _ _ herror⟩

end Sluice.Unify
