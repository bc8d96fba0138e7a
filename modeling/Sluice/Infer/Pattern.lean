import Sluice.Infer.Basic

/-!
# Checking patterns

A pattern is checked against the type of what it matches. It binds names,
each at most once.
-/

namespace Sluice.Infer

open Source (Named)

/-- Checks that a field named in a record expression or pattern exists and was not named before,
and gives its index and declaration. -/
def namedField (record : RecordDecl) (seen : List String) (name : Source.Ident) :
    Check (Nat × FieldDecl) :=
  match record.field? name.name with
  | none => fail name.span (.unknownField record.name name.name)
  | some found =>
    if seen.contains name.name then
      fail name.span (.duplicateField record.name name.name)
    else
      return found

mutual

/-- Checks a pattern against an expected type. `bound` are the names the pattern has bound so
far, the latest first; the result has the new ones in front. -/
def checkPattern (g : Globals) (expected : Ty) (bound : Scope) :
    Source.Pattern → Check (Typed.Pattern × Scope)
  | .wildcard span => return (.wildcard ⟨span, expected⟩, bound)
  | .binding span name => do
    if (bound.lookup name.name).isSome then
      fail name.span (.duplicateBinding name.name)
    let id ← declareLocal name expected
    return (.binding ⟨span, expected⟩ id, (name.name, id) :: bound)
  | .literal span value => do
    require expected value.ty span .matchPattern
    return (.literal ⟨span, expected⟩ value, bound)
  | .record span name fields => do
    let some record := g.records.get? name.name
      | fail name.span (.unknownRecord name.name)
    require expected (.record name.name) span .matchPattern
    let (fields, bound) ← checkFieldPatterns g record bound [] fields
    return (.record ⟨span, expected⟩ name.name fields, bound)

/-- Checks the field patterns of a record pattern. `seen` are the fields named so far. -/
def checkFieldPatterns (g : Globals) (record : RecordDecl) (bound : Scope) (seen : List String) :
    List (Named Source.Pattern) → Check (List (Typed.Field Typed.Pattern) × Scope)
  | [] => return ([], bound)
  | ⟨span, name, pattern⟩ :: rest => do
    let (index, declared) ← namedField record seen name
    let (pattern, bound) ← checkPattern g declared.ty bound pattern
    let (rest, bound) ← checkFieldPatterns g record bound (name.name :: seen) rest
    return (⟨span, name.name, index, pattern⟩ :: rest, bound)

end

end Sluice.Infer
