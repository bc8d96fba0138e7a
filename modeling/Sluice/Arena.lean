/-!
# Arenas

A growing sequence whose elements are known by their position.
-/

namespace Sluice

/-- Elements numbered from zero. -/
structure Arena (α : Type) where
  items : List α := []
  deriving DecidableEq, Repr

namespace Arena

variable {α : Type}

/-- The number the next element will get. -/
def next (a : Arena α) : Nat :=
  a.items.length

/-- Whether there are no elements. -/
def isEmpty (a : Arena α) : Bool :=
  a.items.isEmpty

/-- Adds an element and gives its number. -/
def push (a : Arena α) (x : α) : Nat × Arena α :=
  (a.next, ⟨a.items ++ [x]⟩)

/-- Takes the last element off. -/
def pop (a : Arena α) : Option α × Arena α :=
  (a.items.getLast?, ⟨a.items.dropLast⟩)

/-- An arena with one element many times. -/
def replicate (n : Nat) (x : α) : Arena α :=
  ⟨List.replicate n x⟩

/-- The element with a number. -/
def get? (a : Arena α) (i : Nat) : Option α :=
  a.items[i]?

/-- Puts an element in place of another, and gives the other. -/
def set? (a : Arena α) (i : Nat) (x : α) : Option (α × Arena α) :=
  (a.get? i).map fun old => (old, ⟨a.items.set i x⟩)

/-- Changes the element with a number. -/
def modify? (a : Arena α) (i : Nat) (f : α → α) : Option (Arena α) :=
  (a.get? i).map fun x => ⟨a.items.set i (f x)⟩

/-- The elements with their numbers. -/
def indexed (a : Arena α) : List (Nat × α) :=
  a.items.zipIdx.map fun (x, i) => (i, x)

/-- The elements between brackets. -/
def text (a : Arena α) (item : α → String) : String :=
  "[" ++ ", ".intercalate (a.items.map item) ++ "]"

end Arena

end Sluice
