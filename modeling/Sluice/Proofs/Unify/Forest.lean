import Mathlib.Data.Finset.Card
import Mathlib.Data.Finset.Range
import Mathlib.Tactic.Common
import Sluice.Unify.Table

/-!
# The forest of a unification table

Parent links lead from lower to higher rank, so every way up ends. The bound
on the hops in `Table.root` is then never met, and `Table.root` is described by
one equation without it (`IsForest.root_eq`). What the operations on the table
do to parents, ranks and roots follows.
-/

namespace Sluice.Unify.Table

/-! ## Arrays that are written to -/

theorem getD_setIfInBounds {xs : Array α} (h : i < xs.size) (x d : α)
    (j : Nat) : (xs.setIfInBounds i x).getD j d = if j = i then x else xs.getD j d := by
  rw [Array.getD_eq_getD_getElem?, Array.getElem?_setIfInBounds, Array.getD_eq_getD_getElem?]
  by_cases hj : i = j
  · subst hj
    simp [h]
  · rw [if_neg hj, if_neg (Ne.symm hj)]

/-- A new element that is what was read before changes nothing. -/
theorem getD_push {xs : Array α} (h : j = xs.size → x = d) :
    (xs.push x).getD j d = xs.getD j d := by
  rw [Array.getD_eq_getD_getElem?, Array.getElem?_push, Array.getD_eq_getD_getElem?]
  split
  · rename_i hj
    rw [Array.getElem?_eq_none (Nat.le_of_eq hj.symm)]
    exact h hj
  · rfl

/-! ## Links, ranks and bindings -/

variable {t t' : Table} {v w a b : TyVar}

/-- The parent of a variable; a root, like an unknown variable, is its own. -/
def parent (t : Table) (v : TyVar) : TyVar :=
  t.parents.getD v v

/-- The rank of a variable. -/
def rank (t : Table) (v : TyVar) : Nat :=
  t.ranks.getD v 0

/-- The binding kept at a variable, which counts only if the variable is a root. -/
def kept (t : Table) (v : TyVar) : Option Ty :=
  t.bindings.getD v none

/-- A table whose parent links stay inside it and go up in rank. -/
structure IsForest (t : Table) : Prop where
  ranks_size : t.ranks.size = t.size
  bindings_size : t.bindings.size = t.size
  parent_lt : ∀ v, v < t.size → t.parent v < t.size
  rank_lt : ∀ v, t.parent v ≠ v → t.rank v < t.rank (t.parent v)

theorem binding?_eq (t : Table) (v : TyVar) : t.binding? v = t.kept (t.root v) :=
  rfl

theorem parent_of_size_le (h : t.size ≤ v) : t.parent v = v := by
  rw [parent, Array.getD_eq_getD_getElem?, Array.getElem?_eq_none h]
  rfl

theorem rank_of_size_le (h : t.ranks.size ≤ v) : t.rank v = 0 := by
  rw [rank, Array.getD_eq_getD_getElem?, Array.getElem?_eq_none h]
  rfl

theorem kept_of_size_le (h : t.bindings.size ≤ v) : t.kept v = none := by
  rw [kept, Array.getD_eq_getD_getElem?, Array.getElem?_eq_none h]
  rfl

/-! ## The way up -/

/-- Of a stricter condition there are fewer variables. -/
theorem card_filter_range_lt [DecidablePred p] [DecidablePred q] (h : ∀ u, p u → q u) (hw : w < n)
    (hq : q w) (hp : ¬p w) :
    ((Finset.range n).filter p).card < ((Finset.range n).filter q).card := by
  refine Finset.card_lt_card ⟨Finset.monotone_filter_right _ fun u _ => h u, fun hsub => hp ?_⟩
  exact (Finset.mem_filter.1 (hsub (Finset.mem_filter.2 ⟨Finset.mem_range.2 hw, hq⟩))).2

/-- The variables of greater rank than a given one. -/
def above (t : Table) (v : TyVar) : Finset TyVar :=
  (Finset.range t.size).filter fun u => t.rank v < t.rank u

theorem card_above_le (t : Table) (v : TyVar) : (t.above v).card ≤ t.size := by
  have := Finset.card_filter_le (Finset.range t.size) fun u => t.rank v < t.rank u
  rwa [Finset.card_range] at this

namespace IsForest

variable (ht : t.IsForest)
include ht

omit ht in
theorem lt_of_parent_ne (h : t.parent v ≠ v) : v < t.size := by
  by_contra hv
  exact h (parent_of_size_le (Nat.le_of_not_lt hv))

/-- Fewer variables are above a parent than above its child. -/
theorem card_above_parent_lt (h : t.parent v ≠ v) :
    (t.above (t.parent v)).card < (t.above v).card := by
  have hrank := ht.rank_lt v h
  have hlt := ht.parent_lt v (lt_of_parent_ne h)
  exact card_filter_range_lt (fun _ => Nat.lt_trans hrank) hlt hrank (Nat.lt_irrefl _)

/-- **Induction along the way up:** a property that passes from the parent to its child holds
of every variable. -/
theorem induct {P : TyVar → Prop}
    (step : ∀ v, (t.parent v ≠ v → P (t.parent v)) → P v) (v : TyVar) : P v := by
  generalize hn : (t.above v).card = n
  induction n using Nat.strongRecOn generalizing v with
  | ind n ih =>
    refine step v fun hne => ih _ ?_ (t.parent v) rfl
    rw [← hn]
    exact ht.card_above_parent_lt hne

omit ht in
theorem climb_succ (t : Table) (n : Nat) (v : TyVar) :
    t.climb (n + 1) v = if t.parent v = v then v else t.climb n (t.parent v) :=
  rfl

/-- One more hop than there are variables above changes nothing. -/
theorem climb_stable (n : Nat) (v : TyVar) (h : (t.above v).card ≤ n) :
    t.climb n v = t.climb (n + 1) v := by
  induction n generalizing v with
  | zero =>
    by_cases hv : t.parent v = v
    · rw [climb_succ, if_pos hv]
      rfl
    · have := ht.card_above_parent_lt hv
      omega
  | succ n ih =>
    rw [climb_succ, climb_succ]
    split
    · rfl
    · rename_i hv
      have := ht.card_above_parent_lt hv
      exact ih _ (by omega)

/-- More hops than there are variables change nothing. -/
theorem climb_eq_root (hn : t.size ≤ n) (v : TyVar) : t.climb n v = t.root v := by
  induction n, hn using Nat.le_induction with
  | base => rfl
  | succ n hle ih =>
    rw [← ht.climb_stable n v (Nat.le_trans (card_above_le t v) hle)]
    exact ih

/-- **The root of a variable** is the variable itself or the root of its parent. -/
theorem root_eq (v : TyVar) : t.root v = if t.parent v = v then v else t.root (t.parent v) := by
  rw [← ht.climb_eq_root (Nat.le_succ t.size)]
  rfl

theorem root_of_parent_eq (h : t.parent v = v) : t.root v = v := by
  rw [ht.root_eq, if_pos h]

theorem root_parent (v : TyVar) : t.root (t.parent v) = t.root v := by
  by_cases h : t.parent v = v
  · rw [h]
  · rw [ht.root_eq v, if_neg h]

theorem parent_root (v : TyVar) : t.parent (t.root v) = t.root v := by
  induction v using ht.induct with
  | step v ih =>
    by_cases h : t.parent v = v
    · rw [ht.root_of_parent_eq h, h]
    · rw [← ht.root_parent v]
      exact ih h

theorem root_root (v : TyVar) : t.root (t.root v) = t.root v :=
  ht.root_of_parent_eq (ht.parent_root v)

theorem parent_eq_of_root_eq (h : t.root v = v) : t.parent v = v := by
  have := ht.parent_root v
  rwa [h] at this

theorem root_lt : v < t.size → t.root v < t.size := by
  induction v using ht.induct with
  | step v ih =>
    intro hv
    by_cases h : t.parent v = v
    · rwa [ht.root_of_parent_eq h]
    · rw [← ht.root_parent v]
      exact ih h (ht.parent_lt v hv)

theorem root_of_size_le (h : t.size ≤ v) : t.root v = v :=
  ht.root_of_parent_eq (parent_of_size_le h)

theorem binding?_root (v : TyVar) : t.binding? (t.root v) = t.binding? v := by
  rw [binding?_eq, ht.root_root, binding?_eq]

theorem lt_of_binding? (h : t.binding? v = some ty) : v < t.size := by
  by_contra hv
  have hle := Nat.le_of_not_lt hv
  rw [binding?_eq, ht.root_of_size_le hle, kept_of_size_le (by rwa [ht.bindings_size])] at h
  cases h

end IsForest

/-- Two tables with the same links have the same roots. -/
theorem root_congr (h : t'.parents = t.parents) (v : TyVar) : t'.root v = t.root v := by
  have hclimb : ∀ n v, t'.climb n v = t.climb n v := by
    intro n
    induction n with
    | zero => exact fun _ => rfl
    | succ n ih =>
      intro v
      rw [IsForest.climb_succ, IsForest.climb_succ, parent, parent, h, ih]
  rw [root, root, size, size, h, hclimb]

/-! ## Logging -/

@[simp] theorem parents_record (t : Table) (c : Change) : (t.record c).parents = t.parents := by
  rw [record]; split <;> rfl

@[simp] theorem ranks_record (t : Table) (c : Change) : (t.record c).ranks = t.ranks := by
  rw [record]; split <;> rfl

@[simp] theorem bindings_record (t : Table) (c : Change) : (t.record c).bindings = t.bindings := by
  rw [record]; split <;> rfl

/-- Logs and snapshots are no part of the forest. -/
theorem IsForest.congr (ht : t.IsForest) (hp : t'.parents = t.parents) (hr : t'.ranks = t.ranks)
    (hb : t'.bindings.size = t.bindings.size) : t'.IsForest where
  ranks_size := by rw [hr, size, hp]; exact ht.ranks_size
  bindings_size := by rw [hb, size, hp]; exact ht.bindings_size
  parent_lt v hv := by
    rw [size, hp] at hv ⊢
    rw [parent, hp]
    exact ht.parent_lt v hv
  rank_lt v hv := by
    rw [parent, hp] at hv ⊢
    rw [rank, rank, hr]
    exact ht.rank_lt v hv

/-! ## A new variable -/

@[simp] theorem size_newVariable (t : Table) : t.newVariable.2.size = t.size + 1 := by
  simp [newVariable, size]

theorem parent_newVariable (t : Table) (v : TyVar) : t.newVariable.2.parent v = t.parent v := by
  rw [newVariable, parent, parents_record]
  exact getD_push Eq.symm

theorem rank_newVariable (t : Table) (v : TyVar) : t.newVariable.2.rank v = t.rank v := by
  rw [newVariable, rank, ranks_record]
  exact getD_push fun _ => rfl

theorem kept_newVariable (t : Table) (v : TyVar) : t.newVariable.2.kept v = t.kept v := by
  rw [newVariable, kept, bindings_record]
  exact getD_push fun _ => rfl

theorem IsForest.newVariable (ht : t.IsForest) : t.newVariable.2.IsForest where
  ranks_size := by
    have := ht.ranks_size
    simp [Table.newVariable, size, this]
  bindings_size := by
    have := ht.bindings_size
    simp [Table.newVariable, size, this]
  parent_lt v hv := by
    rw [parent_newVariable]
    by_cases h : t.parent v = v
    · rwa [h]
    · have := ht.parent_lt v (lt_of_parent_ne h)
      exact Nat.lt_of_lt_of_eq (Nat.lt_succ_of_lt this) (size_newVariable t).symm
  rank_lt v hv := by
    rw [parent_newVariable] at hv ⊢
    rw [rank_newVariable, rank_newVariable]
    exact ht.rank_lt v hv

theorem root_newVariable (ht : t.IsForest) (v : TyVar) : t.newVariable.2.root v = t.root v := by
  induction v using ht.induct with
  | step v ih =>
    rw [ht.newVariable.root_eq, ht.root_eq v, parent_newVariable]
    split
    · rfl
    · rename_i h
      exact ih h

theorem binding?_newVariable (ht : t.IsForest) (v : TyVar) :
    t.newVariable.2.binding? v = t.binding? v := by
  rw [binding?_eq, root_newVariable ht, kept_newVariable, binding?_eq]

/-! ## Linking roots -/

@[simp] theorem size_setParent (t : Table) (v p : TyVar) : (t.setParent v p).size = t.size := by
  simp [setParent, size]

@[simp] theorem kept_setParent (t : Table) (c d v : TyVar) :
    (t.setParent c d).kept v = t.kept v := by
  simp [setParent, kept]

@[simp] theorem rank_setParent (t : Table) (c d v : TyVar) :
    (t.setParent c d).rank v = t.rank v := by
  simp [setParent, rank]

theorem parent_setParent (h : a < t.size) (v : TyVar) :
    (t.setParent a b).parent v = if v = a then b else t.parent v := by
  rw [setParent, parent, parents_record]
  exact getD_setIfInBounds h b v v

theorem IsForest.setParent (ht : t.IsForest) (ha : a < t.size) (hb : b < t.size)
    (hrank : t.rank a < t.rank b) : (t.setParent a b).IsForest where
  ranks_size := by simpa [Table.setParent, size] using ht.ranks_size
  bindings_size := by simpa [Table.setParent, size] using ht.bindings_size
  parent_lt v hv := by
    rw [size_setParent] at hv ⊢
    rw [parent_setParent ha]
    split
    · exact hb
    · exact ht.parent_lt v hv
  rank_lt v hv := by
    have hranks : (t.setParent a b).rank = t.rank := by
      funext u
      simp [Table.setParent, rank]
    rw [parent_setParent ha] at hv ⊢
    rw [hranks]
    split at hv
    · rename_i h
      rw [if_pos h, h]
      exact hrank
    · rename_i h
      rw [if_neg h]
      exact ht.rank_lt v hv

/-- Linking one root below another moves its whole set there. -/
theorem root_setParent (ht : t.IsForest) (ha : t.root a = a) (hb : t.root b = b)
    (hlt : a < t.size) (hbt : b < t.size) (hrank : t.rank a < t.rank b) (v : TyVar) :
    (t.setParent a b).root v = if t.root v = a then b else t.root v := by
  have ht' := ht.setParent hlt hbt hrank
  have hne : b ≠ a := by
    rintro rfl
    exact Nat.lt_irrefl _ hrank
  induction v using ht'.induct with
  | step v ih =>
    rw [parent_setParent hlt] at ih
    rw [ht'.root_eq, parent_setParent hlt]
    by_cases hv : v = a
    · subst hv
      rw [if_pos rfl, if_neg hne, ha, if_pos rfl]
      rw [if_pos rfl] at ih
      rw [ih hne, hb, if_neg hne]
    · rw [if_neg hv]
      rw [if_neg hv] at ih
      by_cases hp : t.parent v = v
      · rw [if_pos hp, ht.root_of_parent_eq hp, if_neg hv]
      · rw [if_neg hp, ih hp, ht.root_parent]

@[simp] theorem size_raiseRank (t : Table) (v : TyVar) : (t.raiseRank v).size = t.size := by
  simp [raiseRank, size]

theorem rank_raiseRank (h : a < t.ranks.size) (v : TyVar) :
    (t.raiseRank a).rank v = if v = a then t.rank a + 1 else t.rank v := by
  rw [raiseRank, rank, ranks_record]
  exact getD_setIfInBounds h _ 0 v

theorem root_raiseRank (t : Table) (a v : TyVar) : (t.raiseRank a).root v = t.root v :=
  root_congr (by simp [raiseRank]) v

/-- Only a root may go up in rank. -/
theorem IsForest.raiseRank (ht : t.IsForest) (ha : t.parent a = a) (h : a < t.size) :
    (t.raiseRank a).IsForest where
  ranks_size := by simpa [Table.raiseRank, size] using ht.ranks_size
  bindings_size := by simpa [Table.raiseRank, size] using ht.bindings_size
  parent_lt v hv := by
    rw [size_raiseRank] at hv ⊢
    simpa [Table.raiseRank, parent] using ht.parent_lt v hv
  rank_lt v hv := by
    have hparent : (t.raiseRank a).parent v = t.parent v := by simp [Table.raiseRank, parent]
    rw [hparent] at hv ⊢
    have hlt := ht.rank_lt v hv
    have hva : v ≠ a := by
      rintro rfl
      exact hv ha
    have hsize : a < t.ranks.size := by rwa [ht.ranks_size]
    rw [rank_raiseRank hsize, rank_raiseRank hsize, if_neg hva]
    split
    · rename_i hp
      rw [hp] at hlt
      omega
    · exact hlt

/-! ## Bindings -/

@[simp] theorem size_setBinding (t : Table) (r : TyVar) (ty : Ty) :
    (t.setBinding r ty).size = t.size := by
  simp [setBinding, size]

@[simp] theorem rank_setBinding (t : Table) (r : TyVar) (ty : Ty) (v : TyVar) :
    (t.setBinding r ty).rank v = t.rank v := by
  simp [setBinding, rank]

theorem kept_setBinding (h : a < t.bindings.size) (v : TyVar) :
    (t.setBinding a ty).kept v = if v = a then some ty else t.kept v := by
  rw [setBinding, kept, bindings_record]
  exact getD_setIfInBounds h _ none v

theorem root_setBinding (t : Table) (a : TyVar) (ty : Ty) (v : TyVar) :
    (t.setBinding a ty).root v = t.root v :=
  root_congr (by simp [setBinding]) v

theorem IsForest.setBinding (ht : t.IsForest) (a : TyVar) (ty : Ty) :
    (t.setBinding a ty).IsForest :=
  ht.congr (by simp [Table.setBinding]) (by simp [Table.setBinding]) (by simp [Table.setBinding])

/-! ## Looking for a root that is at hand -/

theorem compress_of_parent_eq (h : t.parent v = v) (n : Nat) : compress n t v = (v, t) := by
  cases n with
  | zero => rfl
  | succ n =>
    exact if_pos h

theorem find_of_parent_eq (h : t.parent v = v) : t.find v = (v, t) :=
  compress_of_parent_eq h t.size

end Sluice.Unify.Table
