import Mathlib.Data.Finset.Card
import Sluice.Proofs.Decision.Arms
import Sluice.Proofs.Lower.Places

/-!
# Ways down a decision tree

A way leads from a tree to one of its nodes. It is known by what the tests on it tell
and by the arms whose guards fail on it. Where a way ends in the tree of some rows, the
rows that are left are those that a scrutinee has to try that is as the tests tell
(`Compiles.exists_left`), and a scrutinee of the right types finds its way
(`Compiles.exists_way`).

On no way is a place tested twice or an earlier arm tried after a later one, so trees
are as deep as there are guards and places to test at most (`compile_tidy`).
-/

namespace Sluice.Decision

open Flow (PartTy)
open List Machine
open Typed (Arm Local Pattern)

/-- **A way down a tree:** what its tests tell, the arms whose guards fail, and where it leads. -/
inductive Tree.Way : Tree → Knowledge → List Nat → Tree → Prop
  | here (t : Tree) : Way t [] [] t
  | guard {arm : Nat} {bindings : List Binding} {t s : Tree} {k : Knowledge} {failed : List Nat} :
      Way t k failed s → Way (.guard arm bindings t) k (arm :: failed) s
  | test {o : Occurrence} {branches : List (Literal × Tree)} {default : Option Tree}
      {c : Constraint} {t s : Tree} {k : Knowledge} {failed : List Nat} :
      Branch branches default c t → Way t k failed s →
      Way (.test o branches default) ((o, c) :: k) failed s

/-- The arm that can be selected at a node. -/
def Tree.arm? : Tree → Option Nat
  | .leaf arm _ | .guard arm _ _ => some arm
  | .test _ _ _ | .fail => none

section

variable {rows left : List Row} {t s : Tree} {k : Knowledge} {failed : List Nat} {i : Nat}
variable {part : Scrutinee} {holds : Nat → Bool} {o : Occurrence} {c : Constraint}
  {branches : List (Literal × Tree)}

/-! ## Nodes -/

theorem mem_branchArms : i ∈ Tree.branchArms branches ↔ ∃ x ∈ branches, i ∈ x.2.arms := by
  induction branches with
  | nil => simp [Tree.branchArms]
  | cons x rest ih => simp [Tree.branchArms, ih]

theorem Compiles.exists_way_of_mem_arms (h : Compiles rows t) (hi : i ∈ t.arms) :
    ∃ k failed s, t.Way k failed s ∧ s.arm? = some i := by
  induction h with
  | fail => cases hi
  | leaf _ _ => exact ⟨[], [], _, .here _, by rw [mem_singleton.1 hi]; rfl⟩
  | guard _ _ _ ih =>
    rcases mem_cons.1 hi with rfl | hi
    · exact ⟨[], [], _, .here _, rfl⟩
    · obtain ⟨k, failed, s, hway, hs⟩ := ih hi
      exact ⟨k, _, s, hway.guard, hs⟩
  | @test r rest o _ _ branches default _ _ _ _ ih =>
    have hbranch : ∀ c t, Tree.Branch branches default c t → i ∈ t.arms →
        ∃ k failed s, (Tree.test o branches default).Way k failed s ∧ s.arm? = some i := by
      intro c t hbranch hi
      obtain ⟨k, failed, s, hway, hs⟩ := ih c t hbranch hi
      exact ⟨_, failed, s, .test hbranch hway, hs⟩
    have hbranches : i ∈ Tree.branchArms branches → _ := fun hi =>
      let ⟨x, hx, hi⟩ := mem_branchArms.1 hi
      hbranch _ x.2 (.is hx) hi
    cases default with
    | none => exact hbranches hi
    | some d => exact (mem_append.1 hi).elim hbranches (hbranch _ d .isNot)

theorem Tree.Way.mem_arms (h : t.Way k failed s) (hs : s.arm? = some i) : i ∈ t.arms := by
  induction h with
  | here t => cases t <;> cases hs <;> exact mem_cons_self
  | guard _ ih => exact mem_cons_of_mem _ (ih hs)
  | @test o branches default c t _ _ _ hbranch _ ih =>
    cases hbranch with
    | isNot => exact mem_append_right _ (ih hs)
    | is hmem =>
      have hi := mem_branchArms.2 ⟨_, hmem, ih hs⟩
      cases default with
      | none => exact hi
      | some d => exact mem_append_left _ hi

theorem branchFailure?_eq_some : ∀ {branches},
    Tree.branchFailure? o branches = some k →
    ∃ l t k', (l, t) ∈ branches ∧ t.firstFailure? = some k' ∧ k = (o, .is l) :: k'
  | [], h => by cases h
  | (l, t) :: rest, h => by
    rw [Tree.branchFailure?, Option.or_eq_some_iff] at h
    rcases h with h | ⟨-, h⟩
    · obtain ⟨k', hk', rfl⟩ := Option.map_eq_some_iff.1 h
      exact ⟨l, t, k', mem_cons_self, hk', rfl⟩
    · obtain ⟨l, t, k', hmem, hk'⟩ := branchFailure?_eq_some h
      exact ⟨l, t, k', mem_cons_of_mem _ hmem, hk'⟩

/-- The knowledge at the first failure is that of a way to it. -/
theorem Compiles.exists_way_of_firstFailure? (h : Compiles rows t)
    (hk : t.firstFailure? = some k) : ∃ failed, t.Way k failed .fail := by
  induction h generalizing k with
  | fail => cases hk; exact ⟨[], .here _⟩
  | leaf _ _ => cases hk
  | guard _ _ _ ih =>
    obtain ⟨failed, hway⟩ := ih hk
    exact ⟨_, hway.guard⟩
  | @test r rest o _ _ branches default _ _ _ _ ih =>
    have hbranches : Tree.branchFailure? o branches = some k →
        ∃ failed, (Tree.test o branches default).Way k failed .fail := by
      intro hk
      obtain ⟨l, t, k', hmem, hk', rfl⟩ := branchFailure?_eq_some hk
      obtain ⟨failed, hway⟩ := ih _ t (.is hmem) hk'
      exact ⟨failed, .test (.is hmem) hway⟩
    cases default with
    | none => exact hbranches hk
    | some d =>
      rw [Tree.firstFailure?, Option.or_eq_some_iff, Option.map_eq_some_iff] at hk
      rcases hk with hk | ⟨-, k', hk', rfl⟩
      · exact hbranches hk
      · obtain ⟨failed, hway⟩ := ih _ d .isNot hk'
        exact ⟨failed, .test .isNot hway⟩

theorem Tree.Way.firstFailure?_ne_none (h : t.Way k failed .fail) : t.firstFailure? ≠ none := by
  generalize hs : Tree.fail = s at h
  induction h with
  | here t => subst hs; exact Option.some_ne_none _
  | guard _ ih => exact ih hs
  | @test o branches default c t _ _ _ hbranch _ ih =>
    intro hnone
    cases hbranch with
    | isNot =>
      rw [firstFailure?, Option.or_eq_none_iff, Option.map_eq_none_iff] at hnone
      exact ih hs hnone.2
    | is hmem =>
      have hnone : branchFailure? o branches = none := by
        cases default with
        | none => exact hnone
        | some d => exact (Option.or_eq_none_iff.1 hnone).1
      exact ih hs (branchFailure?_eq_none.1 hnone _ hmem)

/-! ## Rows that are left -/

theorem nodup_eraseDups [BEq α] [LawfulBEq α] : ∀ xs : List α, xs.eraseDups.Nodup
  | [] => by simp
  | x :: xs => by
    rw [eraseDups_cons, nodup_cons, mem_eraseDups]
    exact ⟨by simp, nodup_eraseDups _⟩
termination_by xs => xs.length
decreasing_by exact Nat.lt_succ_of_le (List.length_filter_le _ _)

theorem length_wanted_le (o : Occurrence) (rows : List Row) :
    (wanted o rows).length ≤ rows.length :=
  ((nodup_eraseDups _).length_le_of_subset fun _ => mem_eraseDups.1).trans
    (length_filterMap_le _ _)

/-- What a test tells of a place comes from what rows want there. A test that tells what is not
there leaves something that can be there. -/
def Constraint.Stems (rows : List Row) (o : Occurrence) : Constraint → Prop
  | is l => ∃ r ∈ rows, (o, l) ∈ r.tests
  | isNot ls => ls ≠ [] ∧ (∀ l ∈ ls, ∃ r ∈ rows, (o, l) ∈ r.tests) ∧ coversAll ls = false ∧
      ls.length ≤ rows.length

theorem Constraint.Stems.exists_test (h : c.Stems rows o) : ∃ r ∈ rows, ∃ l, (o, l) ∈ r.tests := by
  cases c with
  | is l =>
    obtain ⟨r, hr, ht⟩ := h
    exact ⟨r, hr, l, ht⟩
  | isNot ls =>
    obtain ⟨l, hl⟩ := exists_mem_of_ne_nil _ h.1
    obtain ⟨r, hr, ht⟩ := h.2.1 l hl
    exact ⟨r, hr, l, ht⟩

theorem Constraint.Stems.mono (h : c.Stems rows o)
    (hsub : ∀ q ∈ rows, ∃ r ∈ rows', q.tests ⊆ r.tests) (hlen : rows.length ≤ rows'.length) :
    c.Stems rows' o := by
  have htest : ∀ l, (∃ q ∈ rows, (o, l) ∈ q.tests) → ∃ r ∈ rows', (o, l) ∈ r.tests := by
    rintro l ⟨q, hq, ht⟩
    obtain ⟨r, hr, hqr⟩ := hsub q hq
    exact ⟨r, hr, hqr ht⟩
  cases c with
  | is l => exact htest l h
  | isNot ls =>
    obtain ⟨hne, hls, hopen, hle⟩ := h
    exact ⟨hne, fun l hl => htest l (hls l hl), hopen, hle.trans hlen⟩

theorem Tree.Branch.stems {default} (h : Branch branches default c t) {l} (hl : l ∈ wanted o rows)
    (hlits : branches.map Prod.fst = wanted o rows)
    (hdefault : default.isNone = coversAll (wanted o rows)) : c.Stems rows o := by
  have htest : ∀ l ∈ wanted o rows, ∃ r ∈ rows, (o, l) ∈ r.tests := fun l hl =>
    let ⟨r, hr, ht⟩ := mem_wanted.1 hl
    ⟨r, hr, mem_of_testAt?_eq_some ht⟩
  cases h with
  | is hmem => exact htest _ (hlits ▸ mem_map_of_mem hmem)
  | isNot =>
    rw [hlits]
    exact ⟨ne_nil_of_mem hl, htest, hdefault.symm, length_wanted_le o rows⟩

/-- **Rows that are left of others** at the end of a way. -/
structure Left (rows : List Row) (k : Knowledge) (failed : List Nat) (left : List Row) : Prop where
  tests : ∀ q ∈ left, ∃ r ∈ rows, q.tests ⊆ r.tests
  places : (k.map Prod.fst).Nodup
  stems : ∀ x ∈ k, x.2.Stems rows x.1
  arms : (failed ++ left.map Row.arm).Sublist (rows.map Row.arm)
  pick : ∀ {part : Scrutinee} {holds : Nat → Bool}, (∀ x ∈ k, x.2.Holds (part x.1)) →
    (∀ i ∈ failed, holds i = false) →
    pick holds (rowCandidates part rows) = pick holds (rowCandidates part left)

theorem Left.refl (rows : List Row) : Left rows [] [] rows where
  tests q hq := ⟨q, hq, fun _ h => h⟩
  places := .nil
  stems := forall_mem_nil _
  arms := .refl _
  pick _ _ := rfl

theorem Left.guard (h : Left rows k failed left) (hr : r.tests = [])
    (hg : r.guarded = true) : Left (r :: rows) k (r.arm :: failed) left where
  tests q hq :=
    let ⟨p, hp, hqp⟩ := h.tests q hq
    ⟨p, mem_cons_of_mem _ hp, hqp⟩
  places := h.places
  stems x hx := (h.stems x hx).mono
    (fun q hq => ⟨q, mem_cons_of_mem _ hq, fun _ h => h⟩) (Nat.le_succ _)
  arms := h.arms.cons_cons _
  pick hk hfailed := by
    obtain ⟨hrow, hfailed⟩ := forall_mem_cons.1 hfailed
    rw [← h.pick hk hfailed]
    simp [rowCandidates, Row.passes, Decision.pick, Row.candidate, hr, hg, hrow]

/-- What a test leaves of a row as it is, it leaves in order. -/
theorem map_under_sublist {f : Row → α} (o : Occurrence) (c : Constraint)
    (hf : ∀ {q r}, q.Sheds o r → f q = f r) :
    ∀ rows : List Row, ((rowsUnder o c rows).map f).Sublist (rows.map f)
  | [] => .slnil
  | r :: rest => by
    have ih := map_under_sublist o c hf rest
    rw [rowsUnder] at ih ⊢
    rw [filterMap_cons]
    cases hu : r.under? o c with
    | none => exact ih.cons _
    | some q =>
      rw [map_cons, map_cons, hf (Row.sheds_of_under? hu)]
      exact ih.cons_cons _

theorem Left.test (h : Left (rowsUnder o c rows) k failed left) (hd : RowsDistinct rows)
    (hc : c.Stems rows o) (hw : ∀ l ∈ wanted o rows, ∀ ls, c = .isNot ls → l ∈ ls) :
    Left rows ((o, c) :: k) failed left where
  tests q hq := by
    obtain ⟨p, hp, hqp⟩ := h.tests q hq
    obtain ⟨r, hr, hpr⟩ := exists_sheds_of_mem hp
    exact ⟨r, hr, fun _ h => hpr.tests.subset (hqp h)⟩
  places := by
    refine nodup_cons.2 ⟨fun hmem => ?_, h.places⟩
    obtain ⟨x, hx, rfl⟩ := mem_map.1 hmem
    -- no row that is left has a test at this place
    obtain ⟨q, hq, l, ht⟩ := (h.stems x hx).exists_test
    obtain ⟨r, -, hqr⟩ := exists_sheds_of_mem hq
    exact hqr.fresh _ ht rfl
  stems := by
    refine forall_mem_cons.2 ⟨hc, fun x hx => (h.stems x hx).mono (fun q hq => ?_)
      (length_filterMap_le _ _)⟩
    obtain ⟨r, hr, hqr⟩ := exists_sheds_of_mem hq
    exact ⟨r, hr, hqr.tests.subset⟩
  arms := h.arms.trans (map_under_sublist o c Row.Sheds.arm rows)
  pick hk hfailed := by
    obtain ⟨ho, hk⟩ := forall_mem_cons.1 hk
    rw [← rowCandidates_under ho hd hw]
    exact h.pick hk hfailed

/-- **Every node of the tree of rows is the tree of the rows that are left there.** -/
theorem Compiles.exists_left (h : Compiles rows t) (hd : RowsDistinct rows)
    (hway : t.Way k failed s) : ∃ left, Compiles left s ∧ Left rows k failed left := by
  induction hway generalizing rows with
  | here t => exact ⟨rows, h, .refl rows⟩
  | guard _ ih =>
    cases h with
    | guard hr hg hrest =>
      obtain ⟨left, hleft, hL⟩ := ih hrest fun q hq => hd q (mem_cons_of_mem _ hq)
      exact ⟨left, hleft, hL.guard hr hg⟩
  | @test o _ _ _ _ _ _ _ hbranch _ ih =>
    cases h with
    | @test r rest _ l _ _ _ hr hlits hdefault hcompiles =>
      obtain ⟨left, hleft, hL⟩ := ih (hcompiles _ _ hbranch) hd.under
      have hl : l ∈ wanted o (r :: rest) :=
        mem_wanted.2 ⟨r, mem_cons_self, by simp [Row.testAt?, hr]⟩
      refine ⟨left, hleft, hL.test hd (hbranch.stems hl hlits hdefault) fun x hx ls hls => ?_⟩
      cases hbranch with
      | is _ => cases hls
      | isNot => cases hls; exact hlits ▸ hx

/-! ## Where a scrutinee comes to -/

/-- **A way comes to an end at a node**, where an arm is selected or none is left. -/
inductive Tree.Stops (holds : Nat → Bool) : Tree → Option Nat → Prop
  | leaf (i : Nat) (bindings : List Binding) : Stops holds (.leaf i bindings) (some i)
  | guard {i : Nat} (bindings : List Binding) (t : Tree) : holds i = true →
      Stops holds (.guard i bindings t) (some i)
  | fail : Stops holds .fail none

/-- **A scrutinee that is as the tests on a way tell comes to its end.** -/
theorem Compiles.pick_eq (h : Compiles rows t) (hd : RowsDistinct rows) (hway : t.Way k failed s)
    (hk : ∀ x ∈ k, x.2.Holds (part x.1)) (hfailed : ∀ i ∈ failed, holds i = false)
    (hs : s.Stops holds e) : (pick holds (rowCandidates part rows)).map Prod.fst = e := by
  obtain ⟨left, hleft, hL⟩ := h.exists_left hd hway
  rw [hL.pick hk hfailed]
  cases hs with
  | leaf i bindings =>
    cases hleft with
    | leaf hr hg => simp [rowCandidates, Row.passes, pick, Row.candidate, hr, hg]
  | guard bindings t hi =>
    cases hleft with
    | guard hr hg _ => simp [rowCandidates, Row.passes, pick, Row.candidate, hr, hg, hi]
  | fail => cases hleft; rfl

/-- **A scrutinee of the right types finds its way.** -/
theorem Compiles.exists_way (h : Compiles rows t) (ht : RowsTyped part rows) (holds : Nat → Bool) :
    ∃ k failed s e, t.Way k failed s ∧ (∀ x ∈ k, x.2.Holds (part x.1)) ∧
      (∀ i ∈ failed, holds i = false) ∧ s.Stops holds e := by
  induction h with
  | fail => exact ⟨[], [], _, _, .here _, forall_mem_nil _, forall_mem_nil _, .fail⟩
  | leaf _ _ =>
    exact ⟨[], [], _, _, .here _, forall_mem_nil _, forall_mem_nil _, .leaf _ _⟩
  | @guard r rest t _ _ _ ih =>
    cases hr : holds r.arm with
    | true =>
      exact ⟨[], [], _, _, .here _, forall_mem_nil _, forall_mem_nil _, .guard _ _ hr⟩
    | false =>
      obtain ⟨k, failed, s, e, hway, hk, hfailed, hs⟩ := ih (forall_mem_cons.1 ht).2
      exact ⟨k, _, s, e, hway.guard, hk, forall_mem_cons.2 ⟨hr, hfailed⟩, hs⟩
  | @test r rest o first tests branches default hr hlits hdefault _ ih =>
    have hfollow : ∀ c t, Tree.Branch branches default c t → c.Holds (part o) →
        ∃ k failed s e, (Tree.test o branches default).Way k failed s ∧
          (∀ x ∈ k, x.2.Holds (part x.1)) ∧ (∀ i ∈ failed, holds i = false) ∧ s.Stops holds e := by
      intro c t hbranch hc
      obtain ⟨k, failed, s, e, hway, hk, hfailed, hs⟩ := ih c t hbranch ht.under
      exact ⟨_, failed, s, e, .test hbranch hway, forall_mem_cons.2 ⟨hc, hk⟩, hfailed, hs⟩
    obtain ⟨l, hl, hprim⟩ := ht.exists_lit hr
    by_cases hin : l ∈ branches.map Prod.fst
    · obtain ⟨⟨_, t⟩, hmem, rfl⟩ := mem_map.1 hin
      exact hfollow _ t (.is hmem) hl
    · cases default with
      | none => exact absurd (hlits ▸ ((coversAll_iff hprim).1 hdefault.symm).2 l rfl) hin
      | some d =>
        exact hfollow _ d .isNot fun x hx hxl => hin (Value.lit.inj (hl.symm.trans hxl) ▸ hx)

/-! ## The shape of trees -/

/-- The places that rows test. -/
def testPlaces (rows : List Row) : Finset Occurrence :=
  ((rows.flatMap Row.tests).map Prod.fst).toFinset

theorem mem_testPlaces : o ∈ testPlaces rows ↔ ∃ r ∈ rows, ∃ l, (o, l) ∈ r.tests := by
  simp only [testPlaces, mem_toFinset, mem_map, mem_flatMap, Prod.exists]
  grind

theorem branchDepth_le (h : ∀ x ∈ branches, x.2.depth ≤ n) : Tree.branchDepth branches ≤ n := by
  induction branches with
  | nil => exact Nat.zero_le _
  | cons x rest ih =>
    obtain ⟨hx, hrest⟩ := forall_mem_cons.1 h
    exact Nat.max_le.2 ⟨hx, ih hrest⟩

/-- **A tree is not deeper than there are guards and places to test:** on a way down, each guard
takes away its row and each test its place. -/
theorem Compiles.depth_le (h : Compiles rows t) :
    t.depth ≤ 1 + (rows.map Row.guarded).count true + (testPlaces rows).card := by
  induction h with
  | fail | leaf _ _ => simp [Tree.depth, Nat.add_assoc]
  | @guard r rest t _ hg _ ih =>
    have hcard : (testPlaces rest).card ≤ (testPlaces (r :: rest)).card :=
      Finset.card_le_card fun o ho =>
        let ⟨q, hq, ht⟩ := mem_testPlaces.1 ho
        mem_testPlaces.2 ⟨q, mem_cons_of_mem _ hq, ht⟩
    rw [Tree.depth, map_cons, hg, count_cons_self]
    omega
  | @test r rest o l _ branches default hr _ _ _ ih =>
    have hbranch : ∀ c t, Tree.Branch branches default c t → t.depth ≤
        ((r :: rest).map Row.guarded).count true + (testPlaces (r :: rest)).card := by
      intro c t hbranch
      have hcount := (map_under_sublist o c Row.Sheds.guarded (r :: rest)).count_le true
      have hcard : (testPlaces (rowsUnder o c (r :: rest))).card <
          (testPlaces (r :: rest)).card := by
        refine Finset.card_lt_card ⟨fun place hplace => ?_, fun hsub => ?_⟩
        · obtain ⟨q, hq, x, ht⟩ := mem_testPlaces.1 hplace
          obtain ⟨p, hp, hqp⟩ := exists_sheds_of_mem hq
          exact mem_testPlaces.2 ⟨p, hp, x, hqp.tests.subset ht⟩
        · have ho : o ∈ testPlaces (r :: rest) :=
            mem_testPlaces.2 ⟨r, mem_cons_self, l, hr ▸ mem_cons_self⟩
          obtain ⟨q, hq, x, ht⟩ := mem_testPlaces.1 (hsub ho)
          obtain ⟨p, -, hqp⟩ := exists_sheds_of_mem hq
          exact hqp.fresh _ ht rfl
      have := ih c t hbranch
      omega
    have hbranches := branchDepth_le fun x hx => hbranch _ x.2 (.is hx)
    cases default with
    | none => rw [Tree.depth]; omega
    | some d =>
      have := hbranch _ d .isNot
      rw [Tree.depth]
      omega

end

/-! ## The trees of matches -/

variable {records : RecordTable} {locals : List Local} {ty : Ty} {ε : Type} {arms : List (Arm ε)}

theorem rowsDistinct_rows (hp : ∀ a ∈ arms, a.pattern.WellTyped records locals ty) :
    RowsDistinct (rows arms) := by
  intro r hr
  obtain ⟨a, ha, hr⟩ := exists_arm_of_mem_rows hr
  exact hr ▸ Pattern.nodup_tests .root (hp a ha).fits

/-- The tests of well typed arms look for literals of the types that there are. -/
theorem partTy_of_mem_rows (hp : ∀ a ∈ arms, a.pattern.WellTyped records locals ty) :
    ∀ r ∈ rows arms, ∀ test ∈ r.tests, PartTy records ty test.1 test.2.ty := by
  intro r hr
  obtain ⟨a, ha, hr⟩ := exists_arm_of_mem_rows hr
  exact hr ▸ (Flow.places_of_wellTyped (o := .root) (hp a ha) rfl).2.1

theorem map_arm_rows (arms : List (Arm ε)) : (rows arms).map Row.arm = List.range arms.length := by
  rw [rows, map_map, range_eq_range', ← zipIdx_map_snd]
  rfl

/-- On a way, arms are tried in their order. -/
theorem pairwise_of_way (hp : ∀ a ∈ arms, a.pattern.WellTyped records locals ty)
    (hway : (compile arms).Way k failed s) : (failed ++ s.arm?.toList).Pairwise (· < ·) := by
  obtain ⟨left, hleft, hL⟩ := (compiles_compile arms).exists_left (rowsDistinct_rows hp) hway
  refine .sublist ?_ (pairwise_lt_range (n := arms.length))
  rw [← map_arm_rows]
  refine Sublist.trans (Sublist.append_left ?_ failed) hL.arms
  cases hleft with
  | fail | test _ _ _ _ => exact nil_sublist _
  | leaf _ _ | guard _ _ _ => exact singleton_sublist.2 mem_cons_self

/-- **Decision trees test each part once.** The tree of well typed arms is what the recursion over
their rows comes to. On every way down it no place is tested twice, and the arms whose guards are
tried and the one that is selected ascend. Every test compares with different literals of one type;
it has no default exactly if they are all the values of a type with few of them. So the tree is no
deeper than there are arms with guards and places with literals, and one more. -/
theorem compile_tidy (hp : ∀ a ∈ arms, a.pattern.WellTyped records locals ty) :
    Compiles (rows arms) (compile arms) ∧
    (∀ k failed s, (compile arms).Way k failed s →
      (k.map Prod.fst).Nodup ∧ (failed ++ s.arm?.toList).Pairwise (· < ·)) ∧
    (∀ k failed o branches default, (compile arms).Way k failed (.test o branches default) →
      (branches.map Prod.fst).Nodup ∧ ∃ p : Prim, (∀ x ∈ branches, x.1.prim = p) ∧
        (default = none ↔ (p = .bool ∨ p = .unit) ∧
          ∀ l : Literal, l.prim = p → l ∈ branches.map Prod.fst)) ∧
    (compile arms).depth ≤
      1 + arms.countP (·.guard.isSome) + (testPlaces (rows arms)).card := by
  have hc := compiles_compile arms
  refine ⟨hc, fun k failed s hway => ?_, fun k failed o branches default hway => ?_, ?_⟩
  · obtain ⟨left, -, hL⟩ := hc.exists_left (rowsDistinct_rows hp) hway
    exact ⟨hL.places, pairwise_of_way hp hway⟩
  · obtain ⟨left, hleft, hL⟩ := hc.exists_left (rowsDistinct_rows hp) hway
    cases hleft with
    | @test r rest _ l tests _ _ hr hlits hdefault _ =>
      have htype : ∀ q ∈ r :: rest, ∀ x, (o, x) ∈ q.tests → PartTy records ty o x.ty := by
        intro q hq x hx
        obtain ⟨q', hq', hsub⟩ := hL.tests q hq
        exact partTy_of_mem_rows hp q' hq' (o, x) (hsub hx)
      have hprim : ∀ x ∈ branches.map Prod.fst, x.prim = l.prim := by
        intro x hx
        obtain ⟨q, hq, hqx⟩ := mem_wanted.1 (hlits ▸ hx)
        have hx := htype q hq x (mem_of_testAt?_eq_some hqx)
        exact Ty.prim.inj (hx.unique (htype r mem_cons_self l (hr ▸ mem_cons_self)))
      refine ⟨hlits ▸ nodup_eraseDups _, l.prim, forall_mem_map.1 hprim, ?_⟩
      rw [← coversAll_iff hprim, hlits, ← hdefault, Option.isNone_iff_eq_none]
  · have hcount : ((rows arms).map Row.guarded).count true = arms.countP (·.guard.isSome) := by
      have hmap : (rows arms).map Row.guarded = arms.map (·.guard.isSome) :=
        ext_getElem? fun i => by simp [rows_getElem?, Function.comp_def]
      rw [hmap, count_eq_countP, countP_map]
      exact countP_congr fun a _ => by simp
    exact hcount ▸ hc.depth_le

/-! ### A match on a link -/

/-- A record with another of its kind inside. -/
def linkRecords : RecordTable :=
  ⟨[⟨default, "Link", [⟨default, "on", .bool⟩, ⟨default, "count", .int⟩,
    ⟨default, "next", .record "Link"⟩], []⟩]⟩

/-- A pattern for some fields of a link. -/
def linkPattern (fields : List (Typed.Field Pattern)) : Pattern :=
  .record ⟨default, .record "Link"⟩ "Link" fields

/-- A pattern for a link that is on, if the count of the next one is zero. -/
def onPattern : Pattern :=
  linkPattern [⟨default, "on", 0, .literal ⟨default, .bool⟩ (.bool true)⟩,
    ⟨default, "next", 2, linkPattern [⟨default, "count", 1, .literal ⟨default, .int⟩ (.int 0)⟩]⟩]

/-- Arms for links: the second looks for what the first does, and links that are on before one with
another count are missing. -/
def linkArms : List (Arm Unit) :=
  [⟨default, onPattern, none, ()⟩, ⟨default, onPattern, some (), ()⟩,
    ⟨default, linkPattern [⟨default, "on", 0, .literal ⟨default, .bool⟩ (.bool false)⟩], none, ()⟩]

theorem linkArms_wellTyped :
    ∀ a ∈ linkArms, a.pattern.WellTyped linkRecords [] (.record "Link") := by
  have hon : onPattern.WellTyped linkRecords [] (.record "Link") :=
    ⟨rfl, rfl, by decide, _, rfl, ⟨_, ⟨rfl, rfl⟩, rfl, rfl⟩,
      ⟨_, ⟨rfl, rfl⟩, rfl, rfl, by decide, _, rfl, ⟨_, ⟨rfl, rfl⟩, rfl, rfl⟩, trivial⟩, trivial⟩
  simp only [linkArms, forall_mem_cons]
  exact ⟨hon, hon, ⟨rfl, rfl, by decide, _, rfl, ⟨_, ⟨rfl, rfl⟩, rfl, rfl⟩, trivial⟩,
    forall_mem_nil _⟩

theorem compile_tidy_linkArms :
    (∀ a ∈ linkArms, a.pattern.WellTyped linkRecords [] (.record "Link")) ∧
    (compile linkArms).depth = 3 ∧
    (compile linkArms).depth ≤
      1 + linkArms.countP (·.guard.isSome) + (testPlaces (rows linkArms)).card := by
  obtain ⟨-, -, -, hdepth⟩ := compile_tidy linkArms_wellTyped
  exact ⟨linkArms_wellTyped, by decide, hdepth⟩

end Sluice.Decision
