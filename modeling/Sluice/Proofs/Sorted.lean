import Mathlib.Data.List.Nodup
import Mathlib.Data.List.Perm.Basic
import Mathlib.Tactic.Common
import Sluice.Sorted

/-!
# Sorted and keyed lists

Sorting permutes a list, and leaves it in any order that its comparison
decides. In a list whose keys differ, looking up a key finds its entry.
-/

namespace Sluice

open List

/-! ## Keys -/

/-- What is found under a key is an entry. -/
theorem mem_of_lookup [BEq κ] [LawfulBEq κ] {xs : List (κ × α)}
    (h : xs.lookup k = some v) : (k, v) ∈ xs := by
  obtain ⟨front, rest, rfl, -⟩ := lookup_eq_some_iff.1 h
  exact mem_append_right _ mem_cons_self

section Lookup

variable {α : Type} {xs : List (Nat × α)} {k : Nat} {v : α}

theorem lookup_eq_some_iff_mem (h : (xs.map (·.1)).Nodup) : xs.lookup k = some v ↔ (k, v) ∈ xs := by
  induction xs with
  | nil => simp
  | cons x xs ih =>
    obtain ⟨j, w⟩ := x
    obtain ⟨hnew, hrest⟩ := nodup_cons.1 h
    rw [lookup_cons]
    by_cases hk : k = j
    · subst hk
      have hnot : (k, v) ∉ xs := fun hmem => hnew (mem_map.2 ⟨_, hmem, rfl⟩)
      simp [hnot, eq_comm]
    · simp [beq_false_of_ne hk, hk, ih hrest]

theorem lookup_eq_none_iff_not_mem : xs.lookup k = none ↔ k ∉ xs.map (·.1) := by
  rw [lookup_eq_none_iff]
  simp only [mem_map, not_exists, not_and, bne_iff_ne, ne_eq]
  exact ⟨fun h x hx he => h x hx he.symm, fun h x hx he => h x hx he.symm⟩

end Lookup

/-! ## Sorting -/

variable {α : Type} {le : α → α → Bool}

theorem perm_insertSorted (x : α) (xs : List α) : (insertSorted le x xs).Perm (x :: xs) := by
  induction xs with
  | nil => exact .refl _
  | cons y rest ih =>
    unfold insertSorted
    split
    · exact .refl _
    · exact (ih.cons y).trans (.swap x y rest)

/-- Sorting permutes. -/
theorem perm_sortBy (xs : List α) : (sortBy le xs).Perm xs := by
  induction xs with
  | nil => exact .refl _
  | cons x rest ih => exact (perm_insertSorted x _).trans (ih.cons x)

variable {R : α → α → Prop} (htrue : ∀ x y, le x y = true → R x y)
  (hfalse : ∀ x y, le x y = false → R y x) (htrans : ∀ x y z, R x y → R y z → R x z)
include htrue hfalse htrans

theorem pairwise_insertSorted (x : α) (h : xs.Pairwise R) : (insertSorted le x xs).Pairwise R := by
  induction xs with
  | nil => exact pairwise_singleton R x
  | cons y rest ih =>
    obtain ⟨hy, hrest⟩ := pairwise_cons.1 h
    unfold insertSorted
    split
    · rename_i hle
      refine pairwise_cons.2 ⟨fun z hz => ?_, h⟩
      rcases mem_cons.1 hz with rfl | hz
      · exact htrue x z hle
      · exact htrans x y z (htrue x y hle) (hy z hz)
    · rename_i hle
      refine pairwise_cons.2 ⟨fun z hz => ?_, ih hrest⟩
      rcases mem_cons.1 ((perm_insertSorted x rest).mem_iff.1 hz) with rfl | hz
      · exact hfalse z y (by simpa using hle)
      · exact hy z hz

/-- A sorted list is in every order that the comparison decides. -/
theorem pairwise_sortBy (xs : List α) : (sortBy le xs).Pairwise R := by
  induction xs with
  | nil => exact .nil
  | cons x rest ih => exact pairwise_insertSorted htrue hfalse htrans x ih

end Sluice
