import Sluice.Decision.Tree
import Sluice.Record

/-!
# Witnesses

From what the tests on the way to a failure tell, an example of a value that
no arm handles. Parts that no test looked at are left open.
-/

namespace Sluice.Decision

/-- An example of values: a literal, a record of examples, or anything. -/
inductive Witness where
  | any
  | literal (value : Literal)
  | record (name : String) (fields : List (String × Witness))

namespace Witness

mutual

/-- An example as it is shown in a message. -/
def text : Witness → String
  | any => "_"
  | literal value => value.text
  | record name fields => name ++ " \x7b " ++ fieldsText fields ++ " \x7d"

/-- The fields of an example, with commas between them. -/
def fieldsText : List (String × Witness) → String
  | [] => ""
  | [(name, w)] => name ++ ": " ++ w.text
  | (name, w) :: rest => name ++ ": " ++ w.text ++ ", " ++ fieldsText rest

end

end Witness

/-- The least of `0, 1, 2, …` whose image is not in a list, among one more than the list has. -/
def firstOutside (excluded : List Literal) (f : Nat → Literal) : Literal :=
  f (((List.range (excluded.length + 1)).find? fun n => !excluded.contains (f n)).getD 0)

/-- The smallest value of the type of the first literal that is none of the literals. -/
def outside (excluded : List Literal) : Witness :=
  match excluded.head?.map Literal.prim with
  | none => .any
  | some .int => .literal (firstOutside excluded fun n => .int (Int64.ofNat n))
  | some .str =>
    .literal (firstOutside excluded fun n => .str (String.ofList (List.replicate n 'a')))
  | some .bool => .literal (.bool (excluded.contains (.bool false)))
  | some .unit => .literal .unit

/-- An example of what satisfies a constraint. -/
def Constraint.witness : Constraint → Witness
  | is value => .literal value
  | isNot values => outside values

namespace Knowledge

/-- The length of the longest path something is known about. -/
def depth (k : Knowledge) : Nat :=
  (k.map fun c => c.1.depth).foldl max 0

/-- An example for the part at a place, given its type. Only records with something known inside
them are spelled out, so no more levels are needed than the knowledge is deep. -/
def witnessAt (records : RecordTable) (k : Knowledge) :
    (levels : Nat) → Ty → Occurrence → Witness
  | levels, ty, o =>
    match k.lookup o with
    | some constraint => constraint.witness
    | none =>
      match levels, ty with
      | levels + 1, .record name =>
        match records.get? name with
        | some r =>
          if k.any fun c => c.1.within o then
            .record name (r.fields.zipIdx.map fun (f, i) =>
              (f.name, witnessAt records k levels f.ty (o.child i)))
          else
            .any
        | none => .any
      | _, _ => .any

/-- An example for the whole scrutinee. -/
def witness (records : RecordTable) (k : Knowledge) (ty : Ty) : Witness :=
  k.witnessAt records k.depth ty .root

end Knowledge

end Sluice.Decision
