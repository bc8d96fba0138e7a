import Sluice.Ty

/-!
# The unification table

A disjoint-set forest over type variables. Every set has at most one binding,
kept at its root. While a snapshot is open every change is logged, newest
first, so that the work since the snapshot can be taken back exactly.

Operations on a variable that the table does not hold leave the table as it
is; the forms that end in `?` report that case.
-/

namespace Sluice.Unify

/-- A change to the table, with what is needed to take it back. -/
inductive Change where
  | newVariable
  | setParent (v : TyVar) (old : TyVar)
  | setRank (v : TyVar) (old : Nat)
  | bind (v : TyVar) (old : Option Ty)
  deriving DecidableEq, Repr

/-- The table: parent links, ranks and bindings by variable, the log of changes and the number of
open snapshots. -/
structure Table where
  parents : Array TyVar := #[]
  ranks : Array Nat := #[]
  bindings : Array (Option Ty) := #[]
  log : List Change := []
  openSnapshots : Nat := 0
  deriving DecidableEq, Repr

/-- A point in the log to return to. -/
structure Snapshot where
  logLength : Nat
  deriving DecidableEq, Repr

namespace Table

/-- The number of variables. -/
def size (t : Table) : Nat :=
  t.parents.size

/-- Whether the table holds a variable. -/
def contains (t : Table) (v : TyVar) : Bool :=
  v < t.size

/-- Logs a change if a snapshot is open. -/
def record (t : Table) (c : Change) : Table :=
  if t.openSnapshots = 0 then t else { t with log := c :: t.log }

/-- Adds a variable in a set of its own, without a binding. -/
def newVariable (t : Table) : TyVar × Table :=
  (t.size,
    { t with
      parents := t.parents.push t.size
      ranks := t.ranks.push 0
      bindings := t.bindings.push none }.record .newVariable)

/-- Links a variable to a new parent. -/
def setParent (t : Table) (v parent : TyVar) : Table :=
  { t with parents := t.parents.setIfInBounds v parent }.record
    (.setParent v (t.parents.getD v v))

/-- Raises the rank of a variable by one. -/
def raiseRank (t : Table) (v : TyVar) : Table :=
  let old := t.ranks.getD v 0
  { t with ranks := t.ranks.setIfInBounds v (old + 1) }.record (.setRank v old)

/-- Sets the binding kept at a root. -/
def setBinding (t : Table) (root : TyVar) (ty : Ty) : Table :=
  { t with bindings := t.bindings.setIfInBounds root (some ty) }.record
    (.bind root (t.bindings.getD root none))

/-! ## Roots -/

/-- Climbs the parent links, at most `hops` of them. -/
def climb (t : Table) : (hops : Nat) → TyVar → TyVar
  | 0, v => v
  | hops + 1, v =>
    let parent := t.parents.getD v v
    if parent = v then v else t.climb hops parent

/-- The root of a variable's set. A way up passes no variable twice, so it is shorter than the
number of variables. -/
def root (t : Table) (v : TyVar) : TyVar :=
  t.climb t.size v

/-- The binding of a variable's set. -/
def binding? (t : Table) (v : TyVar) : Option Ty :=
  t.bindings.getD (t.root v) none

/-- Climbs to the root and, on the way back, links every variable passed directly to it. -/
def compress : (hops : Nat) → Table → TyVar → TyVar × Table
  | 0, t, v => (v, t)
  | hops + 1, t, v =>
    let parent := t.parents.getD v v
    if parent = v then
      (v, t)
    else
      let (root, t) := compress hops t parent
      (root, if root = parent then t else t.setParent v root)

/-- The root of a variable's set, with the way to it shortened. -/
def find (t : Table) (v : TyVar) : TyVar × Table :=
  compress t.size t v

/-- Binds a variable's set, in place of an earlier binding. -/
def bind (t : Table) (v : TyVar) (ty : Ty) : Table :=
  let (root, t) := t.find v
  t.setBinding root ty

/-- The binding of a variable's set, with the way to the root shortened. -/
def probe (t : Table) (v : TyVar) : Option Ty × Table :=
  let (root, t) := t.find v
  (t.bindings.getD root none, t)

/-- Links one root below another. The merged set keeps the binding of the upper root, or takes
that of the lower one. -/
def link (t : Table) (child root : TyVar) : Table :=
  let t := t.setParent child root
  match t.bindings.getD root none, t.bindings.getD child none with
  | none, some ty => t.bind root ty
  | _, _ => t

/-- Merges the sets of two variables and gives the root of the result. The root of lower rank
goes below the other; among equals the first stays on top and its rank goes up. -/
def union (t : Table) (a b : TyVar) : TyVar × Table :=
  let (a, t) := t.find a
  let (b, t) := t.find b
  if a = b then
    (a, t)
  else
    match compare (t.ranks.getD a 0) (t.ranks.getD b 0) with
    | .lt => (b, t.link a b)
    | .gt => (a, t.link b a)
    | .eq => (a, (t.raiseRank a).link b a)

/-! ## Snapshots -/

/-- Opens a snapshot. -/
def snapshot (t : Table) : Snapshot × Table :=
  (⟨t.log.length⟩, { t with openSnapshots := t.openSnapshots + 1 })

/-- Takes one change back. -/
def undo (t : Table) : Change → Table
  | .newVariable =>
    { t with parents := t.parents.pop, ranks := t.ranks.pop, bindings := t.bindings.pop }
  | .setParent v old => { t with parents := t.parents.setIfInBounds v old }
  | .setRank v old => { t with ranks := t.ranks.setIfInBounds v old }
  | .bind v old => { t with bindings := t.bindings.setIfInBounds v old }

/-- Takes back everything since a snapshot and closes it. -/
def rollback (t : Table) (s : Snapshot) : Table :=
  let count := t.log.length - s.logLength
  let t := { (t.log.take count).foldl undo t with log := t.log.drop count }
  { t with openSnapshots := t.openSnapshots - 1 }

/-- Closes the newest snapshot and keeps what was done since. The log is dropped with the last
open snapshot. -/
def commit (t : Table) : Table :=
  let remaining := t.openSnapshots - 1
  { t with
    openSnapshots := remaining
    log := if remaining = 0 then [] else t.log }

/-! ## Checked forms -/

/-- `find`, unless the variable is unknown. -/
def find? (t : Table) (v : TyVar) : Option (TyVar × Table) :=
  if t.contains v then some (t.find v) else none

/-- `probe`, unless the variable is unknown. -/
def probe? (t : Table) (v : TyVar) : Option (Option Ty × Table) :=
  if t.contains v then some (t.probe v) else none

/-- `bind`, unless the variable is unknown. -/
def bind? (t : Table) (v : TyVar) (ty : Ty) : Option Table :=
  if t.contains v then some (t.bind v ty) else none

/-- `union`, unless one of the variables is unknown. -/
def union? (t : Table) (a b : TyVar) : Option (TyVar × Table) :=
  if t.contains a && t.contains b then some (t.union a b) else none

end Table

end Sluice.Unify
