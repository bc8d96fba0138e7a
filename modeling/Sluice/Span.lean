/-!
# Spans

A span is a region of program text, two offsets that are carried along for
diagnostics and never interpreted.
-/

namespace Sluice

/-- A region of program text. -/
structure Span where
  start : Nat
  stop : Nat
  deriving DecidableEq, Repr, Inhabited

namespace Span

/-- The smallest span that covers both. -/
def join (a b : Span) : Span where
  start := min a.start b.start
  stop := max a.stop b.stop

/-- The smallest span that covers all of a list, if there is one. -/
def joinAll : List Span → Option Span
  | [] => none
  | s :: rest => some (rest.foldl join s)

/-- Spans are ordered by where they start, then by where they stop. -/
def ble (a b : Span) : Bool :=
  a.start < b.start || (a.start == b.start && a.stop ≤ b.stop)

/-- The spans of a list in order. -/
def sort (spans : List Span) : List Span :=
  spans.mergeSort ble

/-- A span as shown in a diagnostic. -/
def text (s : Span) : String :=
  toString s.start ++ ".." ++ toString s.stop

end Span

end Sluice
