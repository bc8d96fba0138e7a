import Mathlib.Data.List.Sort
import Sluice.Decision.Check
import Sluice.Proofs.Sorted
import Sluice.Proofs.Typing.Rules

/-!
# The matches of a function and their trees

The matches that are collected from a body are those that are numbered in it,
in another order. So a function whose matches are numbered has one tree for
each number.
-/

namespace Sluice.Decision

open List
open Typed (Arm Expr Function)

mutual

/-- The matches of an expression, in another order. -/
theorem perm_matchIds : ∀ e : Expr, ((sites e).map (·.id)).Perm e.matchIds
  | .literal _ _ | .var _ _ | .function _ _ => .refl _
  | .letIn _ _ a b | .ifThen _ a b | .binary _ _ a b => by
    simpa [sites, Expr.matchIds] using (perm_matchIds a).append (perm_matchIds b)
  | .ifElse _ c a b => by
    simpa [sites, Expr.matchIds] using
      (perm_matchIds c).append ((perm_matchIds a).append (perm_matchIds b))
  | .field _ e _ _ | .unary _ _ e => perm_matchIds e
  | .block _ es | .list _ es | .callFunction _ _ es | .callMethod _ _ _ _ es =>
    perm_matchIds_list es
  | .record _ _ fields => perm_matchIds_fields fields
  | .callValue _ e es => by
    simpa [sites, Expr.matchIds] using (perm_matchIds e).append (perm_matchIds_list es)
  | .cases _ id e arms => by
    have h := (perm_matchIds e).append (perm_matchIds_arms arms)
    have hlast := (h.cons id).trans (perm_append_singleton id _).symm
    simpa [sites, Expr.matchIds] using hlast

theorem perm_matchIds_list : ∀ es : List Expr,
    ((sitesList es).map (·.id)).Perm (Expr.listMatchIds es)
  | [] => .refl _
  | e :: rest => by
    simpa [sitesList, Expr.listMatchIds] using (perm_matchIds e).append (perm_matchIds_list rest)

theorem perm_matchIds_fields : ∀ fields : List (Typed.Field Expr),
    ((sitesFields fields).map (·.id)).Perm (Expr.fieldMatchIds fields)
  | [] => .refl _
  | ⟨_, _, _, e⟩ :: rest => by
    simpa [sitesFields, Expr.fieldMatchIds] using
      (perm_matchIds e).append (perm_matchIds_fields rest)

theorem perm_matchIds_arms : ∀ arms : List (Arm Expr),
    ((sitesArms arms).map (·.id)).Perm (Expr.armMatchIds arms)
  | [] => .refl _
  | ⟨_, _, none, body⟩ :: rest => by
    simpa [sitesArms, Expr.armMatchIds] using (perm_matchIds body).append (perm_matchIds_arms rest)
  | ⟨_, _, some guard, body⟩ :: rest => by
    simpa [sitesArms, Expr.armMatchIds] using
      (perm_matchIds guard).append ((perm_matchIds body).append (perm_matchIds_arms rest))

end

section

variable {f : Function} (h : f.body.matchIds = List.range f.matchCount)

include h

/-- A function whose matches are numbered has one tree for each of them, in order. -/
theorem map_fst_decisions : (decisions f).map (·.1) = List.range f.matchCount := by
  have hperm : ((decisions f).map (·.1)).Perm (List.range f.matchCount) := by
    refine ((perm_sortBy _).map _).trans ?_
    rw [map_map]
    exact h ▸ perm_matchIds f.body
  have hsorted : ((decisions f).map (·.1)).Pairwise (· ≤ ·) := by
    rw [pairwise_map]
    exact pairwise_sortBy (R := fun a b : _ × Tree => a.1 ≤ b.1)
      (fun _ _ hle => of_decide_eq_true hle)
      (fun _ _ hle => Nat.le_of_not_le (of_decide_eq_false hle)) (fun _ _ _ => Nat.le_trans) _
  exact hperm.eq_of_pairwise' hsorted pairwise_le_range

/-- The tree of a match is made of its arms. -/
theorem lookup_decisions (hsite : site ∈ sites f.body) :
    (decisions f).lookup site.id = some (compile site.arms) := by
  refine (lookup_eq_some_iff_mem (map_fst_decisions h ▸ nodup_range)).2 ?_
  exact (perm_sortBy _).mem_iff.2 (mem_map_of_mem hsite)

end

end Sluice.Decision
