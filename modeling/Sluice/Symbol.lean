/-!
# Symbols

A table of distinct strings. A string keeps the number it got when it was
first entered.
-/

namespace Sluice

/-- Distinct strings, numbered in the order they were entered. -/
structure SymbolTable where
  entries : List String := []
  deriving DecidableEq, Repr

namespace SymbolTable

/-- The number of a string, if it was entered. -/
def indexOf? (t : SymbolTable) (s : String) : Option Nat :=
  t.entries.findIdx? (· == s)

/-- The string with a number. -/
def get? (t : SymbolTable) (i : Nat) : Option String :=
  t.entries[i]?

/-- Enters a string, unless it is there already, and gives its number. -/
def insert (t : SymbolTable) (s : String) : Nat × SymbolTable :=
  match t.indexOf? s with
  | some i => (i, t)
  | none => (t.entries.length, ⟨t.entries ++ [s]⟩)

end SymbolTable

end Sluice
