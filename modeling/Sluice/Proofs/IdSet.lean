import Mathlib.Data.List.Perm.Subperm
import Sluice.IdSet

/-!
# Counting the members of sets

A set has no more members than a list that has them all, and a set inside
another one that is as large is the other one. This is what makes an iteration
that only adds members come to an end.
-/

namespace Sluice.IdSet

variable {s t : IdSet}

theorem nodup_toList (s : IdSet) : s.toList.Nodup :=
  s.ascending.imp Nat.ne_of_lt

/-- A set has no more members than a list that has them all. -/
theorem size_le_length {xs : List Nat} (h : ∀ x ∈ s, x ∈ xs) : s.size ≤ xs.length :=
  (List.subperm_of_subset s.nodup_toList h).length_le

theorem size_le_of_lt {n : Nat} (h : ∀ x ∈ s, x < n) : s.size ≤ n := by
  have hmem : ∀ x ∈ s, x ∈ List.range n := fun x hx => List.mem_range.2 (h x hx)
  have hlen := size_le_length hmem
  rwa [List.length_range] at hlen

theorem size_le_size (h : ∀ x ∈ s, x ∈ t) : s.size ≤ t.size :=
  size_le_length h

/-- A set inside another one that is not larger is the other one. -/
theorem eq_of_subset_of_size_le (h : ∀ x ∈ s, x ∈ t) (hsize : t.size ≤ s.size) : s = t := by
  have hperm := (List.subperm_of_subset s.nodup_toList h).perm_of_length_le hsize
  exact IdSet.ext fun x => hperm.mem_iff

theorem size_lt_size (h : ∀ x ∈ s, x ∈ t) (hne : s ≠ t) : s.size < t.size := by
  by_contra hlt
  exact hne (eq_of_subset_of_size_le h (by omega))

end Sluice.IdSet
