import Sluice.Flow.Lower
import Sluice.Proofs.Decision.Total
import Sluice.Typed.Sites

/-!
# The parts a match looks at

A tree looks at places of the patterns it was made from, and every place on the
way to one is a place of the same pattern. So the type of each part to load is
known, and since parts are listed by depth each comes after the part it lies in.
-/

namespace Sluice

open List

namespace Decision

open Typed (Arm)

variable {o : Occurrence} {l : Literal}

/-- The places a row looks at. -/
def Row.places (r : Row) : List Occurrence :=
  r.tests.map (·.1) ++ r.bindings.map (·.occurrence)

theorem mem_branchUsed : o ∈ Tree.branchUsed branches ↔ ∃ x ∈ branches, o ∈ x.2.used := by
  induction branches with
  | nil => simp [Tree.branchUsed]
  | cons x rest ih => simp [Tree.branchUsed, ih]

/-- A tree looks at places of its rows. -/
theorem Compiles.exists_place {rows t} (h : Compiles rows t)
    {place} (hplace : place ∈ t.used) : ∃ r ∈ rows, place ∈ r.places := by
  induction h with
  | fail => exact nomatch hplace
  | leaf _ _ => exact ⟨_, mem_cons_self, mem_append_right _ hplace⟩
  | guard _ _ _ ih =>
    rcases mem_append.1 hplace with hplace | hplace
    · exact ⟨_, mem_cons_self, mem_append_right _ hplace⟩
    · obtain ⟨r, hr, hplace⟩ := ih hplace
      exact ⟨r, mem_cons_of_mem _ hr, hplace⟩
  | @test row rest o _ _ branches default hrow _ _ _ ih =>
    have hself : place = o → ∃ r ∈ row :: rest, place ∈ r.places := by
      rintro rfl
      refine ⟨row, mem_cons_self, mem_append_left _ ?_⟩
      rw [hrow]
      exact mem_cons_self
    have hbranch : ∀ c t, Tree.Branch branches default c t → place ∈ t.used →
        ∃ r ∈ row :: rest, place ∈ r.places := by
      intro c t hbranch hplace
      obtain ⟨q, hq, hplace⟩ := ih c t hbranch hplace
      obtain ⟨r, hr, hqr⟩ := exists_sheds_of_mem hq
      refine ⟨r, hr, mem_append.2 ?_⟩
      exact (mem_append.1 hplace).imp (fun h => (hqr.tests.map _).subset h)
        fun h => hqr.bindings ▸ h
    have hbranches : place ∈ Tree.branchUsed branches → ∃ r ∈ row :: rest, place ∈ r.places := by
      intro h
      obtain ⟨x, hx, hplace⟩ := mem_branchUsed.1 h
      exact hbranch _ x.2 (.is hx) hplace
    cases default with
    | none => exact (mem_cons.1 hplace).elim hself hbranches
    | some d =>
      rw [Tree.used, mem_cons, mem_append] at hplace
      exact hplace.elim hself fun h => h.elim hbranches (hbranch _ d .isNot)

/-- The occurrences of a tree are those it uses and all on the way to them. -/
theorem mem_occurrences {t : Tree} : o ∈ t.occurrences ↔ ∃ used ∈ t.used, o <+: used := by
  rw [Tree.occurrences, (perm_sortBy _).mem_iff, mem_eraseDups, mem_flatMap]
  refine exists_congr fun used => and_congr_right fun _ => ?_
  rw [Occurrence.chain, mem_map]
  constructor
  · rintro ⟨n, -, rfl⟩
    exact take_prefix n used
  · intro h
    refine ⟨o.length, ?_, (prefix_iff_eq_take.1 h).symm⟩
    exact mem_range.2 (Nat.lt_succ_of_le h.length_le)

/-- A list of occurrences in which each comes after the one it lies in, given some before. -/
def Loadable (done : List Occurrence) : List Occurrence → Prop
  | [] => True
  | o :: rest => (∀ parent, o.parent? = some parent → parent ∈ done) ∧ Loadable (o :: done) rest

/-- An occurrence one step up lies on the way, one step less deep. -/
theorem parent?_eq_some (h : o.parent? = some parent) :
    parent <+: o ∧ parent.length + 1 = o.length := by
  cases o with
  | nil => cases h
  | cons i rest =>
    cases h
    exact ⟨List.dropLast_prefix _, by simp⟩

/-- Occurrences listed by depth are loadable, if all on the way to them are listed too. -/
theorem loadable_of_pairwise (hsorted : rest.Pairwise fun a b => a.length ≤ b.length)
    (hclosed : ∀ o ∈ rest, ∀ parent, o.parent? = some parent → parent ∈ done ∨ parent ∈ rest) :
    Loadable done rest := by
  induction rest generalizing done with
  | nil => trivial
  | cons o rest ih =>
    obtain ⟨ho, hrest⟩ := pairwise_cons.1 hsorted
    obtain ⟨hparent, hclosed⟩ := forall_mem_cons.1 hclosed
    refine ⟨fun parent h => (hparent parent h).resolve_right fun hmem => ?_, ih hrest ?_⟩
    · have hlen := (parent?_eq_some h).2
      rcases mem_cons.1 hmem with rfl | hmem
      · omega
      · have := ho parent hmem
        omega
    · intro o' ho' parent h
      rcases hclosed o' ho' parent h with hmem | hmem
      · exact .inl (mem_cons_of_mem _ hmem)
      · rcases mem_cons.1 hmem with rfl | hmem
        · exact .inl mem_cons_self
        · exact .inr hmem

/-- **The occurrences of a tree are loadable.** -/
theorem loadable_occurrences (t : Tree) : Loadable [] t.occurrences := by
  refine loadable_of_pairwise ?_ fun o ho parent h => .inr ?_
  · refine pairwise_sortBy ?_ ?_ ?_ _
    · intro a b h
      rcases Bool.or_eq_true _ _ ▸ h with h | h
      · exact Nat.le_of_lt (of_decide_eq_true h)
      · exact Nat.le_of_eq (beq_iff_eq.1 (Bool.and_eq_true _ _ ▸ h).1)
    · intro a b h
      exact Nat.le_of_not_lt (of_decide_eq_false (Bool.or_eq_false_iff.1 h).1)
    · exact fun _ _ _ => Nat.le_trans
  · obtain ⟨used, hused, hpre⟩ := mem_occurrences.1 ho
    exact mem_occurrences.2 ⟨used, hused, (parent?_eq_some h).1.trans hpre⟩

end Decision

namespace Flow

open Decision (Binding Occurrence patternBindings fieldBindings patternTests fieldTests)
open Typed (Arm Pattern)

/-! ## The places of a pattern -/

mutual

/-- The places of a pattern lie below the place it stands at, and all on the way from there are
places of it too. -/
theorem mem_patternTypes_of_isPrefix (o : Occurrence) : ∀ p place,
    place ∈ (patternTypes o p).map (·.1) →
      o <+: place ∧ ∀ way, o <+: way → way <+: place → way ∈ (patternTypes o p).map (·.1)
  | .wildcard _, place, h | .binding _ _, place, h | .literal _ _, place, h => by
    cases mem_singleton.1 h
    refine ⟨prefix_rfl, fun way h1 h2 => ?_⟩
    rw [h2.eq_of_length_le h1.length_le]
    exact h
  | .record _ _ fields, place, h => by
    rw [patternTypes, map_append, mem_append] at h
    rcases h with h | h
    · obtain ⟨hpre, hways⟩ := mem_fieldTypes_of_isPrefix o fields place h
      refine ⟨hpre, fun way h1 h2 => ?_⟩
      rw [patternTypes, map_append, mem_append]
      by_cases hway : way = o
      · exact .inr (mem_singleton.2 hway)
      · exact .inl (hways way h1 h2 hway)
    · cases mem_singleton.1 h
      refine ⟨prefix_rfl, fun way h1 h2 => ?_⟩
      rw [h2.eq_of_length_le h1.length_le, patternTypes, map_append]
      exact mem_append_right _ h

/-- The places of field patterns lie below the place of the record. -/
theorem mem_fieldTypes_of_isPrefix (o : Occurrence) : ∀ (fields : List (Typed.Field Pattern))
    (place : Occurrence), place ∈ (fieldTypes o fields).map (·.1) →
      o <+: place ∧ ∀ way, o <+: way → way <+: place → way ≠ o →
        way ∈ (fieldTypes o fields).map (·.1)
  | [], _, h => nomatch h
  | ⟨_, _, index, p⟩ :: rest, place, h => by
    rw [fieldTypes, map_append, mem_append] at h
    rcases h with h | h
    · obtain ⟨hpre, hways⟩ := mem_patternTypes_of_isPrefix (o.child index) p place h
      refine ⟨(prefix_append ..).trans hpre, fun way h1 h2 hne => ?_⟩
      rw [fieldTypes, map_append, mem_append]
      have hlt : o.length < way.length := by
        rcases Nat.lt_or_ge o.length way.length with hlt | hge
        · exact hlt
        · exact absurd (h1.eq_of_length_le hge).symm hne
      refine .inl (hways way (prefix_of_prefix_length_le hpre h2 ?_) h2)
      simpa [Occurrence.child] using Nat.succ_le_of_lt hlt
    · obtain ⟨hpre, hways⟩ := mem_fieldTypes_of_isPrefix o rest place h
      refine ⟨hpre, fun way h1 h2 hne => ?_⟩
      rw [fieldTypes, map_append, mem_append]
      exact .inr (hways way h1 h2 hne)

end

mutual

/-- A pattern's tests and bindings look at places of it. -/
theorem places_subset_patternTypes (o : Occurrence) : ∀ p place,
    place ∈ (patternTests o p).map (·.1) ++ (patternBindings o p).map (·.occurrence) →
      place ∈ (patternTypes o p).map (·.1)
  | .wildcard _, _, h => nomatch h
  | .binding _ _, _, h | .literal _ _, _, h => h
  | .record _ _ fields, place, h => by
    rw [patternTypes, map_append, mem_append]
    exact .inl (places_subset_fieldTypes o fields place h)

/-- The tests and bindings of field patterns look at places of them. -/
theorem places_subset_fieldTypes (o : Occurrence) : ∀ (fields : List (Typed.Field Pattern))
    (place : Occurrence),
    place ∈ (fieldTests o fields).map (·.1) ++ (fieldBindings o fields).map (·.occurrence) →
      place ∈ (fieldTypes o fields).map (·.1)
  | [], _, h => nomatch h
  | ⟨_, _, index, p⟩ :: rest, place, h => by
    have hp := places_subset_patternTypes (o.child index) p place
    have hrest := places_subset_fieldTypes o rest place
    simp only [fieldTests, fieldBindings, fieldTypes, map_append, mem_append]
      at h hp hrest ⊢
    tauto

end

mutual

/-- The types of a pattern's places are types of the pattern. -/
theorem patternTypes_sites (o : Occurrence) : ∀ p,
    ∀ entry ∈ patternTypes o p, ∃ info ∈ p.sites, info.ty = entry.2
  | .wildcard info, _, h | .binding info _, _, h | .literal info _, _, h => by
    cases mem_singleton.1 h
    exact ⟨info, mem_singleton_self info, rfl⟩
  | .record info _ fields, entry, h => by
    rw [patternTypes, mem_append] at h
    rcases h with h | h
    · obtain ⟨info', hmem, hty⟩ := fieldTypes_sites o fields entry h
      exact ⟨info', mem_cons_of_mem _ hmem, hty⟩
    · cases mem_singleton.1 h
      exact ⟨info, mem_cons_self, rfl⟩

/-- The types of the places of field patterns are types of them. -/
theorem fieldTypes_sites (o : Occurrence) : ∀ fields,
    ∀ entry ∈ fieldTypes o fields, ∃ info ∈ Pattern.fieldSites fields, info.ty = entry.2
  | [], _, h => nomatch h
  | ⟨_, _, index, p⟩ :: rest, entry, h => by
    rw [fieldTypes, mem_append] at h
    rcases h with h | h
    · obtain ⟨info, hmem, hty⟩ := patternTypes_sites (o.child index) p entry h
      exact ⟨info, mem_append_left _ hmem, hty⟩
    · obtain ⟨info, hmem, hty⟩ := fieldTypes_sites o rest entry h
      exact ⟨info, mem_append_right _ hmem, hty⟩

end

/-- **Every part that the tree of a match looks at is a place of one of its patterns.** -/
theorem mem_patternTypes_of_mem_occurrences {ε : Type} {arms : List (Arm ε)} {o}
    (h : o ∈ (Decision.compile arms).occurrences) :
    o ∈ ((arms.map (·.pattern)).flatMap (patternTypes .root)).map (·.1) := by
  obtain ⟨used, hused, hpre⟩ := Decision.mem_occurrences.1 h
  obtain ⟨r, hr, hplace⟩ := (Decision.compiles_compile _).exists_place hused
  obtain ⟨⟨a, i⟩, hmem, rfl⟩ := mem_map.1 hr
  have hmem : a ∈ arms := mem_of_getElem? (mem_zipIdx_iff_getElem?.1 hmem)
  have htypes := places_subset_patternTypes .root a.pattern used hplace
  have hway := (mem_patternTypes_of_isPrefix .root a.pattern used htypes).2 o nil_prefix hpre
  obtain ⟨entry, hentry, rfl⟩ := mem_map.1 hway
  refine mem_map_of_mem (mem_flatMap.2 ⟨a.pattern, ?_, hentry⟩)
  exact mem_map_of_mem hmem

end Flow

end Sluice
