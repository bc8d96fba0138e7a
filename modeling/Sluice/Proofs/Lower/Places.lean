import Sluice.Proofs.Flow.Typed
import Sluice.Proofs.Lower.Parts

/-!
# Types of places

The record types on a path of field indices give the type of the part it leads to
(`PartTy`), so a place has at most one type. A pattern that is well typed tells the
right types of all places it looks into: the types noted for loading, those of the
literals it tests and those of the locals it binds (`places_of_wellTyped`). A tree
makes no other tests than the patterns it was made from (`tests_compile`).
-/

namespace Sluice.Flow

open List
open Decision (Binding Occurrence fieldBindings fieldTests patternBindings patternTests)
open Typed (HasLocal Local Pattern)

variable {records : RecordTable} {locals : List Local} {ty part : Ty} {o : Occurrence}

/-! ## Parts -/

/-- **The values of a type have parts of another type at a place.** -/
def PartTy (records : RecordTable) : Ty → Occurrence → Ty → Prop
  | ty, [], part => part = ty
  | ty, index :: rest, part => ∃ field, HasField records ty index field ∧
      PartTy records field rest part

theorem HasField.unique (ha : HasField records ty index a)
    (hb : HasField records ty index b) : a = b := by
  obtain ⟨name, r, d, rfl, hr, hd, rfl⟩ := ha
  obtain ⟨name', r', d', hname, hr', hd', rfl⟩ := hb
  cases hname
  cases hr.symm.trans hr'
  cases hd.symm.trans hd'
  rfl

/-- A place has one type. -/
theorem PartTy.unique : ∀ {o ty a b}, PartTy records ty o a → PartTy records ty o b → a = b
  | [], _, _, _, ha, hb => ha.trans hb.symm
  | _ :: _, _, _, _, ⟨_, hfield, ha⟩, ⟨_, hfield', hb⟩ => by
    cases hfield.unique hfield'
    exact ha.unique hb

/-- A part of a part is a part. -/
theorem partTy_append : ∀ {o ty},
    PartTy records ty (o ++ o') part ↔
      ∃ object, PartTy records ty o object ∧ PartTy records object o' part
  | [], ty => by simp [PartTy]
  | i :: rest, ty => by
    simp only [cons_append, PartTy, partTy_append]
    grind

theorem partTy_child :
    PartTy records ty (o.child index) part ↔
      ∃ object, PartTy records ty o object ∧ HasField records object index part := by
  simp [Occurrence.child, partTy_append, PartTy]

/-! ## Patterns -/

/-- A local is bound to a part of its type. -/
def BoundTo (records : RecordTable) (locals : List Local) (ty : Ty) (x : Binding) : Prop :=
  ∃ part, PartTy records ty x.occurrence part ∧ HasLocal locals x.id part

mutual

/-- **A well typed pattern knows the types of its places.** -/
theorem places_of_wellTyped : ∀ {p o part},
    p.WellTyped records locals part → PartTy records ty o part →
    (∀ x ∈ patternTypes o p, PartTy records ty x.1 x.2) ∧
    (∀ x ∈ patternTests o p, PartTy records ty x.1 x.2.ty) ∧
    ∀ x ∈ patternBindings o p, BoundTo records locals ty x
  | .wildcard info, o, part, hp, ho => by
    cases hp
    exact ⟨forall_mem_singleton.2 ho, forall_mem_nil _, forall_mem_nil _⟩
  | .binding info id, o, part, hp, ho => by
    obtain ⟨rfl, hlocal⟩ := hp
    exact ⟨forall_mem_singleton.2 ho, forall_mem_nil _,
      forall_mem_singleton.2 ⟨info.ty, ho, hlocal⟩⟩
  | .literal info value, o, part, hp, ho => by
    obtain ⟨rfl, hvalue⟩ := hp
    exact ⟨forall_mem_singleton.2 ho, forall_mem_singleton.2 (hvalue ▸ ho), forall_mem_nil _⟩
  | .record info name fields, o, part, hp, ho => by
    obtain ⟨rfl, hname, -, r, hr, hfields⟩ := hp
    obtain ⟨htypes, htests, hbindings⟩ := places_of_wellTypedFields hr hfields (hname ▸ ho)
    refine ⟨?_, htests, hbindings⟩
    exact forall_mem_append.2 ⟨htypes, forall_mem_singleton.2 ho⟩

/-- Well typed field patterns know the types of their places. -/
theorem places_of_wellTypedFields (hr : records.get? name = some r) : ∀ {fields o},
    Pattern.WellTypedFields records locals r fields → PartTy records ty o (.record name) →
    (∀ x ∈ fieldTypes o fields, PartTy records ty x.1 x.2) ∧
    (∀ x ∈ fieldTests o fields, PartTy records ty x.1 x.2.ty) ∧
    ∀ x ∈ fieldBindings o fields, BoundTo records locals ty x
  | [], _, _, _ => ⟨forall_mem_nil _, forall_mem_nil _, forall_mem_nil _⟩
  | ⟨_, _, index, p⟩ :: rest, o, ⟨⟨d, ⟨hd, _⟩, hp⟩, hrest⟩, ho => by
    have hchild : PartTy records ty (o.child index) d.ty :=
      partTy_child.2 ⟨.record name, ho, name, r, d, rfl, hr, hd, rfl⟩
    obtain ⟨htypes, htests, hbindings⟩ := places_of_wellTyped hp hchild
    obtain ⟨htypes', htests', hbindings'⟩ := places_of_wellTypedFields hr hrest ho
    exact ⟨forall_mem_append.2 ⟨htypes, htypes'⟩, forall_mem_append.2 ⟨htests, htests'⟩,
      forall_mem_append.2 ⟨hbindings, hbindings'⟩⟩

end

end Sluice.Flow

namespace Sluice.Decision

open List
open Typed (Arm)

/-! ## Trees -/

mutual

/-- **All tests of a tree are of some kind.** -/
def Tree.Tests (T : Occurrence → Literal → Prop) : Tree → Prop
  | .leaf _ _ | .fail => True
  | .guard _ _ fallback => fallback.Tests T
  | .test o branches none => Tree.BranchesTest T o branches
  | .test o branches (some default) => Tree.BranchesTest T o branches ∧ default.Tests T

/-- All comparisons of a place with the literals of branches are of some kind, and so are the
tests further down. -/
def Tree.BranchesTest (T : Occurrence → Literal → Prop) (o : Occurrence) :
    List (Literal × Tree) → Prop
  | [] => True
  | (l, t) :: rest => T o l ∧ t.Tests T ∧ Tree.BranchesTest T o rest

end

variable {T : Occurrence → Literal → Prop} {o : Occurrence}

theorem branchesTest_iff :
    Tree.BranchesTest T o branches ↔ ∀ x ∈ branches, T o x.1 ∧ x.2.Tests T := by
  induction branches with
  | nil => simp [Tree.BranchesTest]
  | cons x rest ih => simp [Tree.BranchesTest, ih, and_assoc]

/-- A tree makes the tests of its rows. -/
theorem Compiles.tests {rows t} (h : Compiles rows t)
    (hT : ∀ r ∈ rows, ∀ x ∈ r.tests, T x.1 x.2) : t.Tests T := by
  induction h with
  | fail | leaf _ _ => trivial
  | guard _ _ _ ih => exact ih (forall_mem_cons.1 hT).2
  | @test r rest o _ _ branches default _ hlits _ _ ih =>
    have hbranch : ∀ c t, Tree.Branch branches default c t → t.Tests T := by
      refine fun c t hbranch => ih c t hbranch fun q hq x hx => ?_
      obtain ⟨r, hr, hqr⟩ := exists_sheds_of_mem hq
      exact hT r hr x (hqr.tests.subset hx)
    have hbranches : Tree.BranchesTest T o branches := by
      refine branchesTest_iff.2 fun x hx => ⟨?_, hbranch _ x.2 (.is hx)⟩
      obtain ⟨r, hr, htest⟩ := mem_wanted.1 (hlits ▸ mem_map_of_mem hx)
      exact hT r hr (o, x.1) (mem_of_testAt?_eq_some htest)
    cases default with
    | none => exact hbranches
    | some d => exact ⟨hbranches, hbranch _ d .isNot⟩

/-- **A match makes the tests of its patterns.** -/
theorem tests_compile {ε} {arms : List (Arm ε)}
    (hT : ∀ a ∈ arms, ∀ x ∈ patternTests .root a.pattern, T x.1 x.2) : (compile arms).Tests T := by
  refine (compiles_compile arms).tests fun r hr => ?_
  obtain ⟨⟨a, i⟩, hmem, rfl⟩ := mem_map.1 hr
  exact hT a (mem_of_getElem? (mem_zipIdx_iff_getElem?.1 hmem))

end Sluice.Decision
