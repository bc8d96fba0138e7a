import Sluice.Decision.Compile
import Sluice.Proofs.Machine.World
import Sluice.Proofs.Sorted

/-!
# What a decision tree tries

On a given scrutinee a tree comes down to a list of arms to try one after the
other, its candidates: guarded ones, of which the first whose guard holds is
taken, and possibly one at the end that is taken without a guard. The rows a
tree is made from have candidates too, the rows all of whose tests pass.

`candidates_compileRows` says that the two lists are the same. It says nothing
about how guards come out, so it serves runs where they are evaluated as well
as statements where they are simply given.
-/

namespace Sluice.Decision

open List Machine

/-- An arm to try. -/
structure Candidate where
  arm : Nat
  bindings : List Binding
  guarded : Bool
  deriving DecidableEq, Repr

/-- The values of the parts of a scrutinee. -/
abbrev Scrutinee := Occurrence → Value

mutual

/-- **The candidates of a tree.** A test goes to the branch of the first literal its part is equal
to, else to the default, or to the last branch if there is none. -/
def Tree.candidates (part : Scrutinee) : Tree → List Candidate
  | .leaf arm bindings => [⟨arm, bindings, false⟩]
  | .guard arm bindings fallback => ⟨arm, bindings, true⟩ :: fallback.candidates part
  | .test o branches none => Tree.candidatesLast part (part o) branches
  | .test o branches (some default) =>
    Tree.candidatesAmong part (part o) (default.candidates part) branches
  | .fail => []

/-- The candidates of the branch for a value, or others if there is no such branch. -/
def Tree.candidatesAmong (part : Scrutinee) (v : Value) (others : List Candidate) :
    List (Literal × Tree) → List Candidate
  | [] => others
  | (l, t) :: rest =>
    if v = .lit l then t.candidates part else Tree.candidatesAmong part v others rest

/-- The candidates of the branch for a value, or of the last branch. -/
def Tree.candidatesLast (part : Scrutinee) (v : Value) : List (Literal × Tree) → List Candidate
  | [] => []
  | [(_, t)] => t.candidates part
  | (l, t) :: next :: rest =>
    if v = .lit l then t.candidates part else Tree.candidatesLast part v (next :: rest)

end

/-- Whether a row's tests all pass. -/
def Row.passes (part : Scrutinee) (r : Row) : Bool :=
  r.tests.all fun test => decide (part test.1 = .lit test.2)

/-- A row as a candidate. -/
def Row.candidate (r : Row) : Candidate :=
  ⟨r.arm, r.bindings, r.guarded⟩

/-- The candidates of rows: those that pass, up to the first without a guard. -/
def rowCandidates (part : Scrutinee) : List Row → List Candidate
  | [] => []
  | r :: rest =>
    if r.passes part then
      if r.guarded then r.candidate :: rowCandidates part rest else [r.candidate]
    else
      rowCandidates part rest

variable {part : Scrutinee} {o : Occurrence} {l : Literal} {c : Constraint}

/-! ## Choosing a branch -/

/-- Among branches for several literals, a value that is one of them finds a branch of its own. -/
theorem candidatesAmong_of_mem (part : Scrutinee) (others : List Candidate) :
    ∀ {branches}, l ∈ branches.map Prod.fst → ∃ t, (l, t) ∈ branches ∧
      Tree.candidatesAmong part (.lit l) others branches = t.candidates part
  | (x, t) :: rest, h => by
    by_cases hx : l = x
    · exact ⟨t, hx ▸ mem_cons_self, by rw [Tree.candidatesAmong, if_pos (hx ▸ rfl)]⟩
    · obtain ⟨u, hu, heq⟩ :=
        candidatesAmong_of_mem part others ((mem_cons.1 h).resolve_left hx)
      refine ⟨u, mem_cons_of_mem _ hu, ?_⟩
      rw [Tree.candidatesAmong, if_neg fun h => hx (Value.lit.inj h), heq]

/-- A value that is none of the literals finds no branch. -/
theorem candidatesAmong_of_not_mem (others : List Candidate) :
    ∀ {branches}, l ∉ branches.map Prod.fst →
      Tree.candidatesAmong part (.lit l) others branches = others
  | [], _ => rfl
  | (x, t) :: rest, h => by
    rw [map_cons, mem_cons, not_or] at h
    rw [Tree.candidatesAmong, if_neg fun hx => h.1 (Value.lit.inj hx)]
    exact candidatesAmong_of_not_mem others h.2

/-- Without a default too, a value that is one of the literals finds a branch of its own: if it is
none of the earlier ones it is the last. -/
theorem candidatesLast_of_mem (part : Scrutinee) :
    ∀ {branches}, l ∈ branches.map Prod.fst → ∃ t, (l, t) ∈ branches ∧
      Tree.candidatesLast part (.lit l) branches = t.candidates part
  | [(x, t)], h => ⟨t, by rw [mem_singleton.1 h]; exact mem_cons_self, rfl⟩
  | (x, t) :: y :: rest, h => by
    by_cases hx : l = x
    · exact ⟨t, hx ▸ mem_cons_self, by rw [Tree.candidatesLast, if_pos (hx ▸ rfl)]⟩
    · obtain ⟨u, hu, heq⟩ := candidatesLast_of_mem part ((mem_cons.1 h).resolve_left hx)
      refine ⟨u, mem_cons_of_mem _ hu, ?_⟩
      rw [Tree.candidatesLast, if_neg fun h => hx (Value.lit.inj h), heq]

/-! ## Rows -/

/-- What the tests of rows need of a scrutinee: each looks at a constant of its literal's type. -/
def RowsTyped (part : Scrutinee) (rows : List Row) : Prop :=
  ∀ r ∈ rows, ∀ test ∈ r.tests, ∃ l : Literal, part test.1 = .lit l ∧ l.prim = test.2.prim

/-- No row looks at a place twice. -/
def RowsDistinct (rows : List Row) : Prop :=
  ∀ r ∈ rows, (r.tests.map Prod.fst).Nodup

theorem mem_of_testAt?_eq_some {r : Row} (h : r.testAt? o = some l) : (o, l) ∈ r.tests :=
  mem_of_lookup h

theorem mem_wanted {rows} : l ∈ wanted o rows ↔ ∃ r ∈ rows, r.testAt? o = some l := by
  simp [wanted, mem_eraseDups]

/-- A row that passes finds every literal it wants. -/
theorem Row.part_eq_of_passes {r : Row} (hp : r.passes part = true) (h : r.testAt? o = some l) :
    part o = .lit l := by
  have := all_eq_true.1 hp (o, l) (mem_of_testAt?_eq_some h)
  simpa using this

/-- A row whose test at a place passes is a row without that test. -/
theorem Row.passes_passed {r : Row} (hd : (r.tests.map Prod.fst).Nodup) (h : r.testAt? o = some l)
    (hl : part o = .lit l) : (r.passed o).passes part = r.passes part := by
  have hmem := mem_of_testAt?_eq_some h
  rw [Bool.eq_iff_iff]
  simp only [passes, passed, all_eq_true, mem_filter, bne_iff_ne,
    decide_eq_true_eq]
  constructor
  · intro hall test ht
    by_cases he : test.1 = o
    · have : test = (o, l) := inj_on_of_nodup_map hd ht hmem he
      rw [this]
      exact hl
    · exact hall test ⟨ht, he⟩
  · intro hall test ht
    exact hall test ht.1

/-! ### Rows after a test -/

/-- A value is as a test tells. -/
def Constraint.Holds (v : Value) : Constraint → Prop
  | is l => v = .lit l
  | isNot ls => ∀ l ∈ ls, v ≠ .lit l

/-- What becomes of a row where a test tells something of a place. -/
def Row.under? (o : Occurrence) : Constraint → Row → Option Row
  | .is l, r => r.specialize? o l
  | .isNot _, r => if (r.testAt? o).isNone then some r else none

/-- **What is left of a row after a test of a place:** it has no test there any more. -/
structure Row.Sheds (o : Occurrence) (q r : Row) : Prop where
  arm : q.arm = r.arm
  bindings : q.bindings = r.bindings
  guarded : q.guarded = r.guarded
  tests : q.tests.Sublist r.tests
  fresh : ∀ test ∈ q.tests, test.1 ≠ o

theorem Row.sheds_of_testAt?_eq_none {r : Row} (h : r.testAt? o = none) : r.Sheds o r where
  arm := rfl
  bindings := rfl
  guarded := rfl
  tests := .refl _
  fresh test ht heq := by
    have hne := lookup_eq_none_iff.1 h test ht
    exact bne_iff_ne.1 hne heq.symm

theorem Row.sheds_passed (r : Row) (o : Occurrence) : (r.passed o).Sheds o r where
  arm := rfl
  bindings := rfl
  guarded := rfl
  tests := filter_sublist
  fresh _ ht := bne_iff_ne.1 (mem_filter.1 ht).2

theorem Row.sheds_of_under? {r q : Row} (h : r.under? o c = some q) : q.Sheds o r := by
  cases c with
  | isNot ls =>
    cases ht : r.testAt? o with
    | none =>
      rw [under?, ht] at h
      cases h
      exact sheds_of_testAt?_eq_none ht
    | some w => simp [under?, ht] at h
  | is l =>
    cases ht : r.testAt? o with
    | none =>
      rw [under?, specialize?, ht] at h
      cases h
      exact sheds_of_testAt?_eq_none ht
    | some w =>
      simp only [under?, specialize?, ht, Option.ite_none_right_eq_some, Option.some.injEq] at h
      exact h.2 ▸ sheds_passed r o

/-- What is left of rows after a test. -/
abbrev rowsUnder (o : Occurrence) (c : Constraint) (rows : List Row) : List Row :=
  rows.filterMap (Row.under? o c)

theorem exists_sheds_of_mem {rows} (h : q ∈ rowsUnder o c rows) : ∃ r ∈ rows, q.Sheds o r := by
  obtain ⟨r, hr, hq⟩ := mem_filterMap.1 h
  exact ⟨r, hr, Row.sheds_of_under? hq⟩

theorem RowsTyped.under {rows} (h : RowsTyped part rows) : RowsTyped part (rowsUnder o c rows) := by
  intro q hq test ht
  obtain ⟨r, hr, hqr⟩ := exists_sheds_of_mem hq
  exact h r hr test (hqr.tests.subset ht)

theorem RowsDistinct.under {rows} (h : RowsDistinct rows) : RowsDistinct (rowsUnder o c rows) := by
  intro q hq
  obtain ⟨r, hr, hqr⟩ := exists_sheds_of_mem hq
  exact (h r hr).sublist (hqr.tests.map _)

/-- Where what a test tells holds, a row that is left passes as before, and one that is not left
does not pass. -/
theorem Row.passes_under {r : Row} (hd : (r.tests.map Prod.fst).Nodup) (hc : c.Holds (part o))
    (hw : ∀ l, r.testAt? o = some l → ∀ ls, c = .isNot ls → l ∈ ls) :
    r.passes part = (r.under? o c).any (·.passes part) := by
  cases ht : r.testAt? o with
  | none => cases c <;> simp [under?, specialize?, ht]
  | some w =>
    have hfails : part o ≠ .lit w → r.passes part = false := fun hne =>
      Bool.eq_false_iff.2 fun hp => hne (part_eq_of_passes hp ht)
    cases c with
    | is l =>
      simp only [under?, specialize?, ht]
      split
      · rename_i hwl
        exact (passes_passed hd ht (hwl ▸ hc)).symm
      · rename_i hwl
        exact hfails fun h => hwl (Value.lit.inj (h.symm.trans hc))
    | isNot ls => simpa [under?, ht] using hfails (hc w (hw w ht ls rfl))

/-- Where what a test tells holds, the rows that are left have the same candidates. -/
theorem rowCandidates_under (hc : c.Holds (part o)) :
    ∀ {rows}, RowsDistinct rows →
      (∀ l ∈ wanted o rows, ∀ ls, c = .isNot ls → l ∈ ls) →
      rowCandidates part (rowsUnder o c rows) = rowCandidates part rows
  | [], _, _ => rfl
  | r :: rest, hd, hw => by
    have ih : rowCandidates part (rowsUnder o c rest) = rowCandidates part rest :=
      rowCandidates_under hc (fun q hq => hd q (mem_cons_of_mem _ hq)) fun l hl =>
        let ⟨q, hq, hql⟩ := mem_wanted.1 hl
        hw l (mem_wanted.2 ⟨q, mem_cons_of_mem _ hq, hql⟩)
    have hp := r.passes_under (hd r mem_cons_self) hc fun l hl =>
      hw l (mem_wanted.2 ⟨r, mem_cons_self, hl⟩)
    rw [rowsUnder, filterMap_cons, rowCandidates, hp]
    cases hu : r.under? o c with
    | none => exact ih
    | some q =>
      have hqr := Row.sheds_of_under? hu
      simp only [rowCandidates, Option.any_some, Row.candidate, hqr.arm, hqr.bindings, hqr.guarded,
        ih]

/-! ### The size of rows -/

theorem rowsSize_cons (r : Row) (rest : List Row) :
    rowsSize (r :: rest) = r.tests.length + 1 + rowsSize rest := by
  simp only [rowsSize, flatMap_cons, length_append, length_cons]
  omega

theorem rowsSize_under_le (o : Occurrence) (c : Constraint) (rows : List Row) :
    rowsSize (rowsUnder o c rows) ≤ rowsSize rows := by
  induction rows with
  | nil => exact Nat.le.refl
  | cons r rest ih =>
    rw [rowsUnder] at ih ⊢
    rw [filterMap_cons, rowsSize_cons]
    cases hu : r.under? o c with
    | none => exact Nat.le_add_left_of_le ih
    | some q =>
      have hle := (Row.sheds_of_under? hu).tests.length_le
      simp only [rowsSize_cons]
      omega

/-- A test takes something away from a row that has one at the place. -/
theorem rowsSize_under_lt {r : Row} (hr : r.tests = (o, l) :: tests) (c : Constraint)
    (rest : List Row) : rowsSize (rowsUnder o c (r :: rest)) < rowsSize (r :: rest) := by
  have hle := rowsSize_under_le o c rest
  rw [rowsUnder] at hle ⊢
  rw [filterMap_cons, rowsSize_cons]
  cases hu : r.under? o c with
  | none => exact Nat.lt_of_le_of_lt hle (by omega)
  | some q =>
    have hq := Row.sheds_of_under? hu
    have hlt : q.tests.length < r.tests.length := by
      refine Nat.lt_of_le_of_ne hq.tests.length_le fun heq => ?_
      have hmem : (o, l) ∈ q.tests := by
        rw [hq.tests.eq_of_length heq, hr]
        exact mem_cons_self
      exact hq.fresh _ hmem rfl
    simp only [rowsSize_cons]
    omega

/-! ## Compiling rows -/

/-- A test has a branch for what it tells of its place. -/
inductive Tree.Branch (branches : List (Literal × Tree)) : Option Tree → Constraint → Tree → Prop
  | is {default l t} : (l, t) ∈ branches → Branch branches default (.is l) t
  | isNot {t} : Branch branches (some t) (.isNot (branches.map Prod.fst)) t

/-- **The tree of some rows**, without a bound on the recursion: every tree that is asked for on the
way is there. -/
inductive Compiles : List Row → Tree → Prop
  | fail : Compiles [] .fail
  | leaf {r rest} : r.tests = [] → r.guarded = false → Compiles (r :: rest) (.leaf r.arm r.bindings)
  | guard {r rest t} :
    r.tests = [] → r.guarded = true →
      Compiles rest t → Compiles (r :: rest) (.guard r.arm r.bindings t)
  | test {r rest o l tests branches default} :
    r.tests = (o, l) :: tests →
      branches.map Prod.fst = wanted o (r :: rest) →
      default.isNone = coversAll (wanted o (r :: rest)) →
      (∀ c t, Tree.Branch branches default c t → Compiles (rowsUnder o c (r :: rest)) t) →
      Compiles (r :: rest) (.test o branches default)

/-- **The bound on the recursion is enough.** Every step takes away a row or a test. -/
theorem compiles_compileRows : ∀ steps rows, rowsSize rows ≤ steps →
    Compiles rows (compileRows steps rows) := by
  intro steps
  induction steps with
  | zero =>
    intro rows hsize
    cases rows with
    | nil => exact .fail
    | cons r rest => rw [rowsSize_cons] at hsize; omega
  | succ steps ih =>
    intro rows hsize
    cases rows with
    | nil => exact .fail
    | cons r rest =>
      cases hr : r.tests with
      | nil =>
        rw [compileRows, hr]
        cases hg : r.guarded with
        | false => exact .leaf hr hg
        | true => exact .guard hr hg (ih rest (by rw [rowsSize_cons] at hsize; omega))
      | cons test tests =>
        obtain ⟨o, first⟩ := test
        have hunder : ∀ c, Compiles (rowsUnder o c (r :: rest))
            (compileRows steps (rowsUnder o c (r :: rest))) := fun c =>
          ih _ (by have := rowsSize_under_lt hr c rest; omega)
        have hfilter : ∀ ls, rowsUnder o (.isNot ls) (r :: rest) =
            (r :: rest).filter fun q => (q.testAt? o).isNone := fun ls =>
          congrFun (filterMap_eq_filter (p := fun q : Row => (q.testAt? o).isNone)) _
        rw [compileRows, hr]
        refine .test hr ?_ ?_ fun c t hbranch => ?_
        · simp [Function.comp_def]
        · split <;> simp_all
        · have hmem : ∀ l t, (l, t) ∈ (wanted o (r :: rest)).map (fun l =>
              (l, compileRows steps ((r :: rest).filterMap (Row.specialize? o l)))) →
              Compiles (rowsUnder o (.is l) (r :: rest)) t := by
            rintro l t ht
            obtain ⟨x, -, hx⟩ := mem_map.1 ht
            cases hx
            exact hunder (.is l)
          split at hbranch
          · cases hbranch with
            | is h => exact hmem _ _ h
          · cases hbranch with
            | is h => exact hmem _ _ h
            | isNot => exact hfilter _ ▸ hunder (.isNot _)

theorem compiles_compile (arms : List (Typed.Arm ε)) : Compiles (rows arms) (compile arms) :=
  compiles_compileRows _ _ Nat.le.refl

/-- **Literals of one type cover it** exactly if it is a type of few values, and they are all of
them. -/
theorem coversAll_iff (hp : ∀ x ∈ literals, x.prim = p) :
    coversAll literals = true ↔
      (p = .bool ∨ p = .unit) ∧ ∀ l : Literal, l.prim = p → l ∈ literals := by
  cases literals with
  | nil =>
    simp only [coversAll, head?_nil, Option.map_none, Bool.false_eq_true, false_iff]
    rintro ⟨rfl | rfl, h⟩
    · exact absurd (h (.bool true) rfl) not_mem_nil
    · exact absurd (h .unit rfl) not_mem_nil
  | cons first rest =>
    simp only [coversAll, head?_cons, Option.map_some, hp first mem_cons_self]
    cases p with
    | int | str => simp
    | bool =>
      simp only [Bool.and_eq_true, contains_iff_mem, true_or, true_and]
      refine ⟨fun ⟨htrue, hfalse⟩ l hl => ?_, fun h => ⟨h _ rfl, h _ rfl⟩⟩
      cases l with
      | bool b => cases b <;> assumption
      | _ => cases hl
    | unit =>
      simp only [contains_iff_mem, or_true, true_and]
      refine ⟨fun hunit l hl => ?_, fun h => h _ rfl⟩
      cases l with
      | unit => exact hunit
      | _ => cases hl

/-- Where the first row has a test, there is a constant, and whatever rows want there has its
type. -/
theorem RowsTyped.exists_lit {r : Row} {rest tests} (ht : RowsTyped part (r :: rest))
    (hr : r.tests = (o, l) :: tests) :
    ∃ v : Literal, part o = .lit v ∧ ∀ x ∈ wanted o (r :: rest), x.prim = v.prim := by
  obtain ⟨v, hv, -⟩ := ht r mem_cons_self (o, l) (by rw [hr]; exact mem_cons_self)
  refine ⟨v, hv, fun x hx => ?_⟩
  obtain ⟨q, hq, hqx⟩ := mem_wanted.1 hx
  obtain ⟨v', hv', hx⟩ := ht q hq (o, x) (mem_of_testAt?_eq_some hqx)
  cases hv.symm.trans hv'
  exact hx.symm

/-- **A tree tries what its rows would**, following the branch that the scrutinee takes. -/
theorem Compiles.candidates_eq {rows t} (h : Compiles rows t) (hd : RowsDistinct rows)
    (ht : RowsTyped part rows) : t.candidates part = rowCandidates part rows := by
  induction h with
  | fail => rfl
  | leaf hr hg => simp [Tree.candidates, rowCandidates, Row.passes, Row.candidate, hr, hg]
  | guard hr hg _ ih =>
    have hrest := ih (fun q hq => hd q (mem_cons_of_mem _ hq))
      fun q hq => ht q (mem_cons_of_mem _ hq)
    simp [Tree.candidates, rowCandidates, Row.passes, Row.candidate, hr, hg, hrest]
  | @test r rest o first tests branches default hr hlits hdefault _ ih =>
    obtain ⟨l, hl, hsame⟩ := ht.exists_lit hr
    have hbranch : ∀ t, (l, t) ∈ branches → t.candidates part = rowCandidates part (r :: rest) := by
      intro t hmem
      rw [ih _ t (.is hmem) hd.under ht.under]
      exact rowCandidates_under (c := .is l) hl hd fun _ _ _ h => nomatch h
    cases default with
    | none =>
      have hmem := ((coversAll_iff hsame).1 hdefault.symm).2 l rfl
      obtain ⟨t, htl, heq⟩ := candidatesLast_of_mem part (hlits ▸ hmem)
      rw [Tree.candidates, hl, heq, hbranch t htl]
    | some d =>
      rw [Tree.candidates, hl]
      by_cases hin : l ∈ branches.map Prod.fst
      · obtain ⟨t, htl, heq⟩ := candidatesAmong_of_mem part (d.candidates part) hin
        rw [heq, hbranch t htl]
      · have hout : (Constraint.isNot (branches.map Prod.fst)).Holds (part o) := by
          intro x hx hxl
          exact hin (Value.lit.inj (hl.symm.trans hxl) ▸ hx)
        rw [candidatesAmong_of_not_mem _ hin, ih _ d .isNot hd.under ht.under]
        refine rowCandidates_under hout hd fun x hx ls hls => ?_
        cases hls
        exact hlits ▸ hx

end Sluice.Decision
