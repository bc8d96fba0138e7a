import Sluice.Decision.Compile
import Sluice.Decision.Witness

/-!
# Checking matches

An arm that does not occur in the tree of its match can never be selected, and
a failure in the tree is a value that nothing handles. Both are errors, and the
tree is built all the same.
-/

namespace Sluice

/-- What can be wrong with a match. -/
inductive PatternError where
  | unreachableArm (arm : Nat) (span : Span)
  | nonExhaustive (witness : Decision.Witness) (span : Span)

namespace PatternError

/-- Where the error is. -/
def span : PatternError → Span
  | unreachableArm _ span | nonExhaustive _ span => span

/-- The message of the error. Arms are counted from one. -/
def message : PatternError → String
  | unreachableArm arm _ => "unreachable pattern in match arm " ++ toString (arm + 1)
  | nonExhaustive witness _ =>
    "non-exhaustive patterns: `" ++ witness.text ++ "` not covered"

end PatternError

namespace Decision

/-- The arms that a tree never selects. -/
def unreachableArms {ε : Type} (t : Tree) (arms : List (Typed.Arm ε)) : List PatternError :=
  arms.zipIdx.filterMap fun (a, i) =>
    if i ∈ t.reachable then none else some (.unreachableArm i a.span)

/-- The errors of a match, given its tree. -/
def errors {ε : Type} (records : RecordTable) (t : Tree) (arms : List (Typed.Arm ε)) (ty : Ty)
    (span : Span) : List PatternError :=
  unreachableArms t arms ++
    (t.firstFailure?.map fun k => .nonExhaustive (k.witness records ty) span).toList

/-- A match in a body. -/
structure Site where
  id : Typed.MatchId
  span : Span
  scrutinee : Ty
  arms : List (Typed.Arm Typed.Expr)

mutual

/-- The matches of an expression, an outer one before those inside it. -/
def sites : Typed.Expr → List Site
  | .literal _ _ | .var _ _ | .function _ _ => []
  | .letIn _ _ value body => sites value ++ sites body
  | .block _ items => sitesList items
  | .ifThen _ c p => sites c ++ sites p
  | .ifElse _ c p n => sites c ++ sites p ++ sites n
  | .record _ _ fields => sitesFields fields
  | .field _ target _ _ => sites target
  | .callFunction _ _ args => sitesList args
  | .callMethod _ _ _ _ args => sitesList args
  | .callValue _ callee args => sites callee ++ sitesList args
  | .cases info id scrutinee arms =>
    ⟨id, info.span, scrutinee.ty, arms⟩ :: (sites scrutinee ++ sitesArms arms)
  | .list _ elems => sitesList elems
  | .binary _ _ lhs rhs => sites lhs ++ sites rhs
  | .unary _ _ operand => sites operand

/-- The matches of several expressions. -/
def sitesList : List Typed.Expr → List Site
  | [] => []
  | e :: rest => sites e ++ sitesList rest

/-- The matches of field initializers. -/
def sitesFields : List (Typed.Field Typed.Expr) → List Site
  | [] => []
  | ⟨_, _, _, e⟩ :: rest => sites e ++ sitesFields rest

/-- The matches of the arms of a match. -/
def sitesArms : List (Typed.Arm Typed.Expr) → List Site
  | [] => []
  | ⟨_, _, none, body⟩ :: rest => sites body ++ sitesArms rest
  | ⟨_, _, some guard, body⟩ :: rest => sites guard ++ sites body ++ sitesArms rest

end

/-- The trees of a function's matches, by match. -/
abbrev Decisions := List (Typed.MatchId × Tree)

/-- The tree of every match of a function, ascending by match. -/
def decisions (f : Typed.Function) : Decisions :=
  sortBy (fun a b => a.1 ≤ b.1) ((sites f.body).map fun s => (s.id, compile s.arms))

/-- The errors of all matches of a function. -/
def functionErrors (records : RecordTable) (f : Typed.Function) : List PatternError :=
  (sites f.body).flatMap fun s => errors records (compile s.arms) s.arms s.scrutinee s.span

end Decision

end Sluice
