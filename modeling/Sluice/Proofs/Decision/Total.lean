import Mathlib.Data.List.Basic
import Sluice.Decision.Check
import Sluice.Proofs.Decision.Candidates

/-!
# Trees without failures

A tree without failures ends at an arm on every way down, with the bindings of
that arm's pattern (`endsAt_compile`).
-/

namespace Sluice.Decision

open Typed (Arm Pattern)

/-! ## Where a tree ends -/

mutual

/-- **Every way down a tree ends at an arm**, selected with bindings that it can be selected
with. -/
def Tree.EndsAt (P : Nat → List Binding → Prop) : Tree → Prop
  | .leaf arm bindings => P arm bindings
  | .guard arm bindings fallback => P arm bindings ∧ fallback.EndsAt P
  | .test _ branches none => branches ≠ [] ∧ Tree.BranchesEndAt P branches
  | .test _ branches (some default) => Tree.BranchesEndAt P branches ∧ default.EndsAt P
  | .fail => False

/-- Every way down some branches ends at an arm. -/
def Tree.BranchesEndAt (P : Nat → List Binding → Prop) : List (Literal × Tree) → Prop
  | [] => True
  | (_, t) :: rest => t.EndsAt P ∧ Tree.BranchesEndAt P rest

end

variable {P : Nat → List Binding → Prop} {o : Occurrence}

theorem branchesEndAt_iff : Tree.BranchesEndAt P branches ↔ ∀ x ∈ branches, x.2.EndsAt P := by
  induction branches with
  | nil => simp [Tree.BranchesEndAt]
  | cons x rest ih => simp [Tree.BranchesEndAt, ih]

theorem branchFailure?_eq_none :
    Tree.branchFailure? o branches = none ↔ ∀ x ∈ branches, x.2.firstFailure? = none := by
  induction branches with
  | nil => simp [Tree.branchFailure?]
  | cons x rest ih => simp [Tree.branchFailure?, ih]

/-- A tree without failures ends at the arms of its rows. -/
theorem Compiles.endsAt {rows t} (h : Compiles rows t) (hP : ∀ r ∈ rows, P r.arm r.bindings)
    (hfail : t.firstFailure? = none) : t.EndsAt P := by
  induction h with
  | fail => simp [Tree.firstFailure?] at hfail
  | leaf _ _ => exact hP _ List.mem_cons_self
  | guard _ _ _ ih =>
    obtain ⟨hrow, hrest⟩ := List.forall_mem_cons.1 hP
    exact ⟨hrow, ih hrest hfail⟩
  | @test r rest o _ _ branches default _ hlits hdefault _ ih =>
    have hbranch : ∀ c t, Tree.Branch branches default c t → t.firstFailure? = none →
        t.EndsAt P := by
      refine fun c t hbranch => ih c t hbranch fun q hq => ?_
      obtain ⟨r, hr, hqr⟩ := exists_sheds_of_mem hq
      exact hqr.arm ▸ hqr.bindings ▸ hP r hr
    cases default with
    | none =>
      refine ⟨?_, branchesEndAt_iff.2 fun x hx =>
        hbranch _ x.2 (.is hx) (branchFailure?_eq_none.1 hfail x hx)⟩
      rintro rfl
      rw [← hlits] at hdefault
      cases hdefault
    | some d =>
      rw [Tree.firstFailure?, Option.or_eq_none_iff, Option.map_eq_none_iff] at hfail
      exact ⟨branchesEndAt_iff.2 fun x hx =>
        hbranch _ x.2 (.is hx) (branchFailure?_eq_none.1 hfail.1 x hx), hbranch _ d .isNot hfail.2⟩

/-- **A match without a failure in its tree ends at its arms**, with the bindings of their
patterns. -/
theorem endsAt_compile {ε arms}
    (hP : ∀ (i : Nat) (a : Arm ε), arms[i]? = some a → P i (patternBindings .root a.pattern))
    (h : (compile arms).firstFailure? = none) : (compile arms).EndsAt P := by
  refine (compiles_compile arms).endsAt (fun r hr => ?_) h
  obtain ⟨⟨a, i⟩, hmem, rfl⟩ := List.mem_map.1 hr
  exact hP i a (List.mem_zipIdx_iff_getElem?.1 hmem)

end Sluice.Decision
