import Sluice.Span
import Sluice.Ty

/-!
# Records

A program's record types in the order of declaration. The position of a
field in its record is its index in every value of that record.
-/

namespace Sluice

/-- A declared field. -/
structure FieldDecl where
  span : Span
  name : String
  ty : Ty
  deriving DecidableEq, Repr

/-- A declared method. Its type has the receiver as first parameter. -/
structure MethodDecl where
  span : Span
  name : String
  symbol : String
  ty : Ty
  deriving DecidableEq, Repr

/-- A declared record. -/
structure RecordDecl where
  span : Span
  name : String
  fields : List FieldDecl
  methods : List MethodDecl
  deriving DecidableEq, Repr

/-- The symbol that a method is compiled under. -/
def methodSymbol (record method : String) : String :=
  record ++ "::" ++ method

namespace RecordDecl

/-- A field by name, with its index. -/
def field? (r : RecordDecl) (name : String) : Option (Nat × FieldDecl) :=
  (r.fields.findIdx? (·.name == name)).bind fun i => r.fields[i]?.map (i, ·)

/-- A method by name. -/
def method? (r : RecordDecl) (name : String) : Option MethodDecl :=
  r.methods.find? (·.name == name)

/-- Applies a function to all field and method types. -/
def mapTy (f : Ty → Ty) (r : RecordDecl) : RecordDecl :=
  { r with
    fields := r.fields.map fun d => { d with ty := f d.ty }
    methods := r.methods.map fun d => { d with ty := f d.ty } }

end RecordDecl

/-- The records of a program, in the order of declaration. -/
structure RecordTable where
  records : List RecordDecl := []
  deriving DecidableEq, Repr

namespace RecordTable

/-- A record by name. -/
def get? (t : RecordTable) (name : String) : Option RecordDecl :=
  t.records.find? (·.name == name)

/-- Whether there is a record of that name. -/
def contains (t : RecordTable) (name : String) : Bool :=
  t.records.any (·.name == name)

/-- Adds a record, unless its name is taken. -/
def insert? (t : RecordTable) (r : RecordDecl) : Option RecordTable :=
  if t.contains r.name then none else some ⟨t.records ++ [r]⟩

/-- Changes the record of that name. -/
def modify (t : RecordTable) (name : String) (f : RecordDecl → RecordDecl) : RecordTable :=
  ⟨t.records.map fun r => if r.name == name then f r else r⟩

/-- Gives a record one more field. -/
def addField (t : RecordTable) (record : String) (field : FieldDecl) : RecordTable :=
  t.modify record fun r => { r with fields := r.fields ++ [field] }

/-- Gives a record one more method. -/
def addMethod (t : RecordTable) (record : String) (method : MethodDecl) : RecordTable :=
  t.modify record fun r => { r with methods := r.methods ++ [method] }

/-- Applies a function to the types of all fields and methods. -/
def mapTy (f : Ty → Ty) (t : RecordTable) : RecordTable :=
  ⟨t.records.map (RecordDecl.mapTy f)⟩

end RecordTable

end Sluice
