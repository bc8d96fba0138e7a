import Sluice.Flow.Render

/-!
# Places of the machine

Every register of a function gets one place for all its life: a register of
the machine, or a slot on the stack.
-/

namespace Sluice

open Sluice.Flow (Reg Slot slotText)

/-- Where a value lives. -/
inductive Location where
  | machine (number : Nat)
  | stack (slot : Slot)
  deriving DecidableEq, Repr

namespace Location

/-- A place as it is written. -/
def text : Location → String
  | machine number => "r" ++ toString number
  | stack slot => "[" ++ slotText slot ++ "]"

/-- The machine register of a place, if it is one. -/
def machine? : Location → Option Nat
  | machine number => some number
  | stack _ => none

end Location

/-- The places of registers, by ascending register. -/
abbrev Placement := List (Reg × Location)

namespace Placement

/-- The place of a register. -/
def get? (p : Placement) (r : Reg) : Option Location :=
  p.lookup r

/-- Gives a register a place, instead of the one it had. -/
def set (r : Reg) (l : Location) : Placement → Placement
  | [] => [(r, l)]
  | (q, m) :: rest =>
    if r < q then (r, l) :: (q, m) :: rest
    else if r = q then (r, l) :: rest
    else (q, m) :: set r l rest

/-- Places in the order they are given; of two for one register the last one counts. -/
def ofList (places : List (Reg × Location)) : Placement :=
  places.foldl (fun p (r, l) => set r l p) []

/-- The machine registers in use. -/
def machineRegisters (p : Placement) : IdSet :=
  .ofList (p.filterMap fun (_, l) => l.machine?)

theorem get?_cons {r q : Reg} {l : Location} {p : Placement} :
    get? ((r, l) :: p) q = if q = r then some l else get? p q := by
  unfold get?
  by_cases h : q = r
  · rw [if_pos h, h, List.lookup_cons_self]
  · rw [if_neg h, List.lookup_cons, beq_false_of_ne h]

/-- Giving a register a place changes no other place. -/
theorem get?_set {r q : Reg} {l : Location} {p : Placement} :
    get? (set r l p) q = if q = r then some l else get? p q := by
  induction p with
  | nil => exact get?_cons
  | cons head rest ih =>
    obtain ⟨s, m⟩ := head
    unfold set
    split
    · exact get?_cons
    · split
      · subst_vars
        by_cases h : q = s <;> simp [get?_cons, h]
      · rename_i hrs
        rw [get?_cons, get?_cons, ih]
        by_cases h : q = s
        · subst h
          simp [Ne.symm hrs]
        · simp [h]

end Placement

/-- The lowest of `count` numbers from `first` on that is not taken. -/
def lowestFreeFrom (taken : List Nat) : (count first : Nat) → Option Nat
  | 0, _ => none
  | count + 1, first =>
    if taken.contains first then lowestFreeFrom taken count (first + 1) else some first

/-- The lowest number below `count` that is not taken. -/
def lowestFree (count : Nat) (taken : List Nat) : Option Nat :=
  lowestFreeFrom taken count 0

theorem lowestFreeFrom_eq_some {taken : List Nat} {n : Nat} :
    ∀ {count first : Nat}, lowestFreeFrom taken count first = some n →
      n < first + count ∧ n ∉ taken
  | 0, _, h => nomatch h
  | count + 1, first, h => by
    unfold lowestFreeFrom at h
    split at h
    · have := lowestFreeFrom_eq_some h
      exact ⟨by omega, this.2⟩
    · rename_i hfree
      cases h
      exact ⟨by omega, by simpa using hfree⟩

theorem lowestFreeFrom_eq_none {taken : List Nat} :
    ∀ {count first : Nat}, lowestFreeFrom taken count first = none →
      ∀ n, first ≤ n → n < first + count → n ∈ taken
  | 0, _, _, _, _, _ => by omega
  | count + 1, first, h, n, _, _ => by
    unfold lowestFreeFrom at h
    split at h
    · rename_i htaken
      by_cases hn : n = first
      · simpa [hn] using htaken
      · exact lowestFreeFrom_eq_none h n (by omega) (by omega)
    · cases h

/-- A number that is found is below `count` and not taken. -/
theorem lowestFree_eq_some {count n : Nat} {taken : List Nat}
    (h : lowestFree count taken = some n) : n < count ∧ n ∉ taken := by
  have := lowestFreeFrom_eq_some h
  exact ⟨by omega, this.2⟩

/-- If none is found, all are taken. -/
theorem lowestFree_eq_none {count n : Nat} {taken : List Nat} (h : lowestFree count taken = none)
    (hn : n < count) : n ∈ taken :=
  lowestFreeFrom_eq_none h n (Nat.zero_le n) (by omega)

end Sluice
