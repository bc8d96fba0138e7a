/-!
# Sets of numbers

Finite sets of ids, kept as strictly ascending lists, so that two sets with
the same members are equal and listing a set needs no sorting.
-/

namespace Sluice

/-- Puts a number into an ascending list, unless it is there. -/
def insertAscending (x : Nat) : List Nat → List Nat
  | [] => [x]
  | y :: rest =>
    if x < y then x :: y :: rest else if x = y then y :: rest else y :: insertAscending x rest

theorem mem_insertAscending {x z : Nat} {xs : List Nat} :
    z ∈ insertAscending x xs ↔ z = x ∨ z ∈ xs := by
  induction xs with
  | nil => simp [insertAscending]
  | cons y rest ih =>
    unfold insertAscending
    split
    · simp
    · split
      · subst_vars
        simp
      · simp only [List.mem_cons, ih]
        grind

theorem pairwise_insertAscending {x : Nat} {xs : List Nat} (h : xs.Pairwise (· < ·)) :
    (insertAscending x xs).Pairwise (· < ·) := by
  induction xs with
  | nil => simp [insertAscending]
  | cons y rest ih =>
    rw [List.pairwise_cons] at h
    unfold insertAscending
    split
    · rename_i hxy
      refine List.pairwise_cons.2 ⟨fun z hz => ?_, List.pairwise_cons.2 h⟩
      rcases List.mem_cons.1 hz with rfl | hz
      · exact hxy
      · exact Nat.lt_trans hxy (h.1 z hz)
    · split
      · exact List.pairwise_cons.2 h
      · refine List.pairwise_cons.2 ⟨fun z hz => ?_, ih h.2⟩
        rcases mem_insertAscending.1 hz with rfl | hz
        · omega
        · exact h.1 z hz

/-- A finite set of ids. -/
structure IdSet where
  toList : List Nat
  ascending : toList.Pairwise (· < ·)
  deriving DecidableEq

namespace IdSet

/-- The set without members. -/
def empty : IdSet :=
  ⟨[], .nil⟩

instance : EmptyCollection IdSet := ⟨empty⟩

instance : Inhabited IdSet := ⟨empty⟩

instance : Membership Nat IdSet := ⟨fun s x => x ∈ s.toList⟩

instance (x : Nat) (s : IdSet) : Decidable (x ∈ s) :=
  inferInstanceAs (Decidable (x ∈ s.toList))

/-- Adds a member. -/
def insert (s : IdSet) (x : Nat) : IdSet :=
  ⟨insertAscending x s.toList, pairwise_insertAscending s.ascending⟩

/-- Takes a member out. -/
def erase (s : IdSet) (x : Nat) : IdSet :=
  ⟨s.toList.filter (· ≠ x), s.ascending.filter _⟩

/-- Adds all numbers of a list. -/
def insertAll (s : IdSet) (xs : List Nat) : IdSet :=
  xs.foldl insert s

/-- The set of the numbers of a list. -/
def ofList (xs : List Nat) : IdSet :=
  insertAll ∅ xs

/-- The members of either set. -/
def union (s t : IdSet) : IdSet :=
  s.insertAll t.toList

/-- The members of the first set that are not in the second. -/
def diff (s t : IdSet) : IdSet :=
  ⟨s.toList.filter (· ∉ t), s.ascending.filter _⟩

/-- Whether a number is a member. -/
def contains (s : IdSet) (x : Nat) : Bool :=
  decide (x ∈ s)

/-- The number of members. -/
def size (s : IdSet) : Nat :=
  s.toList.length

/-! ## Membership -/

theorem mem_def {x : Nat} {s : IdSet} : x ∈ s ↔ x ∈ s.toList := Iff.rfl

@[simp] theorem not_mem_empty {x : Nat} : x ∉ (∅ : IdSet) := by
  simp [mem_def, EmptyCollection.emptyCollection, empty]

@[simp] theorem mem_insert {x y : Nat} {s : IdSet} : x ∈ s.insert y ↔ x = y ∨ x ∈ s :=
  mem_insertAscending

@[simp] theorem mem_erase {x y : Nat} {s : IdSet} : x ∈ s.erase y ↔ x ∈ s ∧ x ≠ y := by
  simp [mem_def, erase]

@[simp] theorem mem_insertAll {x : Nat} {s : IdSet} {xs : List Nat} :
    x ∈ s.insertAll xs ↔ x ∈ s ∨ x ∈ xs := by
  unfold insertAll
  induction xs generalizing s with
  | nil => simp
  | cons y rest ih =>
    rw [List.foldl_cons, ih, mem_insert, List.mem_cons]
    grind

@[simp] theorem mem_ofList {x : Nat} {xs : List Nat} : x ∈ ofList xs ↔ x ∈ xs := by
  simp [ofList]

@[simp] theorem mem_union {x : Nat} {s t : IdSet} : x ∈ s.union t ↔ x ∈ s ∨ x ∈ t := by
  simp [union, mem_def (s := t)]

@[simp] theorem mem_diff {x : Nat} {s t : IdSet} : x ∈ s.diff t ↔ x ∈ s ∧ x ∉ t := by
  change x ∈ s.toList.filter (· ∉ t) ↔ x ∈ s.toList ∧ x ∉ t
  simp

@[simp] theorem contains_eq_true {x : Nat} {s : IdSet} : s.contains x = true ↔ x ∈ s := by
  simp [contains]

/-- **Sets with the same members are equal.** -/
@[ext] theorem ext {s t : IdSet} (h : ∀ x, x ∈ s ↔ x ∈ t) : s = t := by
  obtain ⟨xs, hx⟩ := s
  obtain ⟨ys, hy⟩ := t
  simp only [mem_def] at h
  suffices xs = ys by subst this; rfl
  induction xs generalizing ys with
  | nil =>
    cases ys with
    | nil => rfl
    | cons y ys => exact absurd ((h y).2 List.mem_cons_self) List.not_mem_nil
  | cons x xs ih =>
    cases ys with
    | nil => exact absurd ((h x).1 List.mem_cons_self) List.not_mem_nil
    | cons y ys =>
      rw [List.pairwise_cons] at hx hy
      have hxy : x = y := by
        rcases List.mem_cons.1 ((h x).1 List.mem_cons_self) with hx' | hx'
        · exact hx'
        · rcases List.mem_cons.1 ((h y).2 List.mem_cons_self) with hy' | hy'
          · exact hy'.symm
          · have := hx.1 y hy'
            have := hy.1 x hx'
            omega
      subst hxy
      rw [ih hx.2 ys hy.2 fun z => ?_]
      have hz := h z
      simp only [List.mem_cons] at hz
      constructor
      · intro hzx
        rcases hz.1 (Or.inr hzx) with rfl | hzy
        · exact absurd (hx.1 z hzx) (Nat.lt_irrefl z)
        · exact hzy
      · intro hzy
        rcases hz.2 (Or.inr hzy) with rfl | hzx
        · exact absurd (hy.1 z hzy) (Nat.lt_irrefl z)
        · exact hzx

end IdSet

end Sluice
