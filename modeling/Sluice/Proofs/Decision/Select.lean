import Sluice.Proofs.Decision.Candidates
import Sluice.Proofs.Typing.Values

/-!
# Decision trees select the first arm

The tests and bindings of a pattern, which is all that is left of it in a row,
say the same as the pattern: it accepts a value exactly if its tests pass
(`Pattern.admits_eq_all`), and its bindings lead to what it binds
(`Pattern.binds_eq_map`). With that, evaluating the tree of a match selects the
first arm whose pattern accepts the scrutinee and whose guard holds.
-/

namespace Sluice

open List Machine

namespace Decision

open Typed (Arm LocalId Pattern)

/-! ## Evaluating a tree -/

mutual

/-- **The arm a tree selects**, given the parts of the scrutinee and how the guards of the arms come
out, with the bindings it is selected with. -/
def Tree.select (part : Scrutinee) (holds : Nat → Bool) : Tree → Option (Nat × List Binding)
  | .leaf arm bindings => some (arm, bindings)
  | .guard arm bindings fallback =>
    if holds arm then some (arm, bindings) else fallback.select part holds
  | .test o branches none => Tree.selectLast part holds (part o) branches
  | .test o branches (some default) =>
    Tree.selectAmong part holds (part o) (default.select part holds) branches
  | .fail => none

/-- What the branch for a value selects, or another result if there is no such branch. -/
def Tree.selectAmong (part : Scrutinee) (holds : Nat → Bool) (v : Value)
    (otherwise : Option (Nat × List Binding)) :
    List (Literal × Tree) → Option (Nat × List Binding)
  | [] => otherwise
  | (l, t) :: rest =>
    if v = .lit l then t.select part holds else Tree.selectAmong part holds v otherwise rest

/-- What the branch for a value selects, or the last branch. -/
def Tree.selectLast (part : Scrutinee) (holds : Nat → Bool) (v : Value) :
    List (Literal × Tree) → Option (Nat × List Binding)
  | [] => none
  | [(_, t)] => t.select part holds
  | (l, t) :: next :: rest =>
    if v = .lit l then t.select part holds else Tree.selectLast part holds v (next :: rest)

end

/-- The first candidate that is taken. -/
def pick (holds : Nat → Bool) (candidates : List Candidate) : Option (Nat × List Binding) :=
  (candidates.find? fun c => !c.guarded || holds c.arm).map fun c => (c.arm, c.bindings)

variable {part : Scrutinee} {holds : Nat → Bool}

mutual

/-- A tree selects the first of its candidates that is taken. -/
theorem Tree.select_eq_pick : ∀ t : Tree, t.select part holds = pick holds (t.candidates part)
  | .leaf _ _ => by simp [select, candidates, pick]
  | .guard arm _ fallback => by
    rw [select, candidates, select_eq_pick fallback]
    cases h : holds arm <;> simp [pick, h]
  | .test _ branches none => by
    rw [select, candidates, selectLast_eq_pick branches]
  | .test _ branches (some default) => by
    rw [select, candidates, select_eq_pick default, selectAmong_eq_pick branches]
  | .fail => rfl

theorem Tree.selectAmong_eq_pick :
    ∀ branches : List (Literal × Tree),
      selectAmong part holds v (pick holds others) branches =
        pick holds (candidatesAmong part v others branches)
  | [] => rfl
  | (l, t) :: rest => by
    rw [selectAmong, candidatesAmong, select_eq_pick t, selectAmong_eq_pick rest]
    split <;> rfl

theorem Tree.selectLast_eq_pick : ∀ branches : List (Literal × Tree),
    selectLast part holds v branches = pick holds (candidatesLast part v branches)
  | [] => rfl
  | [(_, t)] => by rw [selectLast, candidatesLast, select_eq_pick t]
  | (l, t) :: next :: rest => by
    rw [selectLast, candidatesLast, select_eq_pick t, selectLast_eq_pick (next :: rest)]
    split <;> rfl

end

end Decision

/-! ## What is left of a pattern -/

namespace Typed

open Decision

variable {h : Heap} {v : Value}

theorem part_child (h : Heap) (v : Value) (o : Occurrence) (index : Nat) :
    h.part v (o.child index) = h.load (h.part v o) index := by
  simp [Heap.part, Occurrence.child]

mutual

/-- Whether a pattern admits what is at a place, given the values of parts. -/
def Pattern.admits (part : Scrutinee) (o : Occurrence) : Pattern → Bool
  | .wildcard _ | .binding _ _ => true
  | .literal _ value => decide (part o = .lit value)
  | .record _ _ fields => Pattern.admitsFields part o fields

/-- Whether field patterns admit what is at the fields of a place. -/
def Pattern.admitsFields (part : Scrutinee) (o : Occurrence) : List (Typed.Field Pattern) → Bool
  | [] => true
  | ⟨_, _, index, p⟩ :: rest =>
    p.admits part (o.child index) && Pattern.admitsFields part o rest

end

mutual

/-- A pattern accepts a part of a value exactly if it admits what is there. -/
theorem Pattern.accepts_eq_admits (o : Occurrence) : ∀ p : Pattern,
    p.accepts h (h.part v o) = p.admits (h.part v) o
  | .wildcard _ | .binding _ _ | .literal _ _ => rfl
  | .record _ _ fields => acceptsFields_eq_admits o fields

theorem Pattern.acceptsFields_eq_admits (o : Occurrence) : ∀ fields : List (Typed.Field Pattern),
    acceptsFields h (h.part v o) fields = admitsFields (h.part v) o fields
  | [] => rfl
  | ⟨_, _, index, p⟩ :: rest => by
    rw [acceptsFields, admitsFields, ← part_child,
      accepts_eq_admits (o.child index) p, acceptsFields_eq_admits o rest]

end

mutual

/-- **A pattern admits what is at a place exactly if its tests there pass.** -/
theorem Pattern.admits_eq_all (o : Occurrence) : ∀ p : Pattern,
    p.admits part o = (patternTests o p).all fun test => decide (part test.1 = .lit test.2)
  | .wildcard _ | .binding _ _ => rfl
  | .literal _ value => by simp [admits, patternTests]
  | .record _ _ fields => admitsFields_eq_all o fields

theorem Pattern.admitsFields_eq_all (o : Occurrence) :
    ∀ fields : List (Typed.Field Pattern), admitsFields part o fields =
      (fieldTests o fields).all fun test => decide (part test.1 = .lit test.2)
  | [] => rfl
  | ⟨_, _, index, p⟩ :: rest => by
    rw [admitsFields, fieldTests, all_append,
      admits_eq_all (o.child index) p, admitsFields_eq_all o rest]

end

theorem Pattern.accepts_eq_all (o : Occurrence) (p : Pattern) : p.accepts h (h.part v o) =
    (patternTests o p).all fun test => decide (h.part v test.1 = .lit test.2) :=
  (p.accepts_eq_admits o).trans (p.admits_eq_all o)

mutual

/-- **The bindings of a pattern lead to what it binds.** -/
theorem Pattern.binds_eq_map (o : Occurrence) : ∀ p : Pattern,
    p.binds h (h.part v o) = (patternBindings o p).map fun b => (b.id, h.part v b.occurrence)
  | .wildcard _ => rfl
  | .binding _ _ => rfl
  | .literal _ _ => rfl
  | .record _ _ fields => by
    rw [binds, patternBindings, bindsFields_eq_map o fields]

theorem Pattern.bindsFields_eq_map (o : Occurrence) : ∀ fields : List (Typed.Field Pattern),
    bindsFields h (h.part v o) fields =
      (fieldBindings o fields).map fun b => (b.id, h.part v b.occurrence)
  | [] => rfl
  | ⟨_, _, index, p⟩ :: rest => by
    rw [bindsFields, fieldBindings, map_append, ← part_child,
      binds_eq_map (o.child index) p, bindsFields_eq_map o rest]

end

mutual

/-- The tests of a pattern look inside the place it stands at. -/
theorem Pattern.isPrefix_of_mem_tests (o : Occurrence) : ∀ p,
    ∀ test ∈ patternTests o p, o <+: test.1
  | .wildcard _, _, ht | .binding _ _, _, ht => nomatch ht
  | .literal _ _, test, ht => by
    rw [patternTests, mem_singleton] at ht
    exact ht ▸ prefix_rfl
  | .record _ _ fields, test, ht => by
    obtain ⟨i, -, hi⟩ := isPrefix_of_mem_fieldTests o fields test ht
    exact (prefix_append o [i]).trans hi

theorem Pattern.isPrefix_of_mem_fieldTests (o : Occurrence) :
    ∀ fields,
    ∀ test ∈ fieldTests o fields, ∃ i ∈ fields.map (·.index), o ++ [i] <+: test.1
  | [], _, ht => nomatch ht
  | ⟨_, _, index, p⟩ :: rest, test, ht => by
    rw [fieldTests, mem_append] at ht
    rcases ht with ht | ht
    · exact ⟨index, by simp, isPrefix_of_mem_tests (o.child index) p test ht⟩
    · obtain ⟨i, hi, hpre⟩ := isPrefix_of_mem_fieldTests o rest test ht
      exact ⟨i, mem_cons_of_mem _ hi, hpre⟩

end

variable {records : RecordTable} {fns : FunctionTypes} {objs : ObjectTypes}

mutual

/-- A pattern that fits looks at no place twice: what lies below different fields is apart. -/
theorem Pattern.nodup_tests (o : Occurrence) :
    ∀ {p ty}, p.Fits records ty → ((patternTests o p).map Prod.fst).Nodup
  | .wildcard _, _, _ | .binding _ _, _, _ => nodup_nil
  | .literal _ _, _, _ => nodup_singleton _
  | .record _ _ fields, _, hp => by
    obtain ⟨-, hn, r, -, hf⟩ := hp
    exact nodup_fieldTests o hn hf

theorem Pattern.nodup_fieldTests (o : Occurrence) : ∀ {fields}
    {r}, (fields.map (·.index)).Nodup → Pattern.FitsFields records r fields →
    ((fieldTests o fields).map Prod.fst).Nodup
  | [], _, _, _ => nodup_nil
  | ⟨_, _, index, p⟩ :: rest, r, hn, hf => by
    obtain ⟨⟨d, -, hp⟩, hrest⟩ := hf
    rw [map_cons, nodup_cons] at hn
    rw [fieldTests, map_append]
    refine Nodup.append (nodup_tests (o.child index) hp)
      (nodup_fieldTests o hn.2 hrest) ?_
    intro place h1 h2
    obtain ⟨t1, ht1, rfl⟩ := mem_map.1 h1
    obtain ⟨t2, ht2, heq⟩ := mem_map.1 h2
    have hpre1 := isPrefix_of_mem_tests (o.child index) p t1 ht1
    obtain ⟨i, hi, hpre2⟩ := isPrefix_of_mem_fieldTests o rest t2 ht2
    rw [heq] at hpre2
    -- both lie below one field of the same place
    have hlen : (o ++ [i]).length = (o.child index).length := by simp [Occurrence.child]
    have hsame : o ++ [i] = o.child index :=
      List.IsPrefix.eq_of_length
        (prefix_of_prefix_length_le hpre2 hpre1 (Nat.le_of_eq hlen)) hlen
    have : i = index := by simpa [Occurrence.child] using hsame
    exact hn.1 (this ▸ hi)

end

mutual

/-- **A pattern that fits the type of a value looks at constants of the right types.** -/
theorem Pattern.exists_lit_of_mem_tests (hh : h.Typed records fns objs) (o : Occurrence) :
    ∀ {p ty}, p.Fits records ty → HasType fns objs (h.part v o) ty →
      ∀ test ∈ patternTests o p, ∃ l : Literal, h.part v test.1 = .lit l ∧ l.prim = test.2.prim
  | .wildcard _, _, _, _, _, ht | .binding _ _, _, _, _, _, ht => nomatch ht
  | .literal _ value, ty, hp, hv, test, ht => by
    rw [patternTests, mem_singleton] at ht
    rw [ht]
    rw [hp] at hv
    exact hv.exists_lit
  | .record _ name fields, ty, hp, hv, test, ht => by
    obtain ⟨rfl, -, r, hr, hf⟩ := hp
    exact exists_lit_of_mem_fieldTests hh o hr hf hv test ht

theorem Pattern.exists_lit_of_mem_fieldTests (hh : h.Typed records fns objs) (o : Occurrence) :
    ∀ {fields name r},
      records.get? name = some r → Pattern.FitsFields records r fields →
      HasType fns objs (h.part v o) (.record name) →
      ∀ test ∈ fieldTests o fields,
        ∃ l : Literal, h.part v test.1 = .lit l ∧ l.prim = test.2.prim
  | [], _, _, _, _, _, _, ht => nomatch ht
  | ⟨_, _, index, p⟩ :: rest, name, r, hr, hf, hv, test, ht => by
    obtain ⟨⟨d, hd, hp⟩, hrest⟩ := hf
    rw [fieldTests, mem_append] at ht
    rcases ht with ht | ht
    · refine exists_lit_of_mem_tests hh (o.child index) hp ?_ test ht
      rw [part_child]
      exact hh.load_field hv hr hd
    · exact exists_lit_of_mem_fieldTests hh o hr hrest hv test ht

end

end Typed

/-! ## Selection -/

namespace Decision

open Typed (Arm Pattern)

variable {ε : Type} {h : Heap} {v : Value} {holds : Nat → Bool}

/-- **An arm takes a value**: its pattern accepts the value and its guard, if it has one, holds. -/
def Takes (arms : List (Arm ε)) (h : Heap) (v : Value) (holds : Nat → Bool) (i : Nat) : Prop :=
  ∃ a, arms[i]? = some a ∧ a.pattern.accepts h v = true ∧ (a.guard.isSome = true → holds i = true)

/-- The first arm of a match, in source order, that takes a value. -/
def TakesFirst (arms : List (Arm ε)) (h : Heap) (v : Value) (holds : Nat → Bool) (i : Nat) :
    Prop :=
  Takes arms h v holds i ∧ ∀ j < i, ¬ Takes arms h v holds j

/-- Picking among the candidates of rows finds the first row that passes and is taken. -/
theorem pick_rowCandidates (rows : List Row) :
    pick holds (rowCandidates part rows) =
      (rows.find? fun r => r.passes part && (!r.guarded || holds r.arm)).map
        fun r => (r.arm, r.bindings) := by
  induction rows with
  | nil => rfl
  | cons r rest ih =>
    rw [rowCandidates, find?_cons]
    cases hp : r.passes part with
    | false => simpa using ih
    | true =>
      cases hg : r.guarded with
      | false => simp [pick, Row.candidate, hg]
      | true =>
        cases hh : holds r.arm with
        | false => simpa [pick, Row.candidate, hg, hh] using ih
        | true => simp [pick, Row.candidate, hg, hh]

theorem rows_getElem? (arms : List (Arm ε)) (i : Nat) :
    (rows arms)[i]? = arms[i]?.map fun a =>
      { arm := i
        tests := patternTests .root a.pattern
        bindings := patternBindings .root a.pattern
        guarded := a.guard.isSome } := by
  simp only [rows, getElem?_map, getElem?_zipIdx, Option.map_map]
  rw [Nat.zero_add]
  rfl

/-- An arm admits the parts of a scrutinee and its guard, if it has one, holds. -/
def Admitted (arms : List (Arm ε)) (part : Scrutinee) (holds : Nat → Bool) (i : Nat) : Prop :=
  ∃ a, arms[i]? = some a ∧ a.pattern.admits part .root = true ∧
    (a.guard.isSome = true → holds i = true)

/-- A row passes and is taken exactly if its arm admits the scrutinee. -/
theorem admitted_iff_row {arms : List (Arm ε)} :
    Admitted arms part holds i ↔ ∃ r, (rows arms)[i]? = some r ∧
      (r.passes part && (!r.guarded || holds r.arm)) = true := by
  simp only [Admitted, rows_getElem?, Option.map_eq_some_iff, Pattern.admits_eq_all]
  constructor
  · rintro ⟨a, ha, hacc, hg⟩
    refine ⟨_, ⟨a, ha, rfl⟩, ?_⟩
    rw [Bool.and_eq_true, Bool.or_eq_true]
    refine ⟨hacc, ?_⟩
    cases hs : a.guard.isSome with
    | false => exact Or.inl rfl
    | true => exact Or.inr (hg hs)
  · rintro ⟨r, ⟨a, ha, rfl⟩, hr⟩
    rw [Bool.and_eq_true, Bool.or_eq_true] at hr
    refine ⟨a, ha, hr.1, fun hs => ?_⟩
    rcases hr.2 with hg | hg
    · simp [hs] at hg
    · exact hg

/-- A row passes and is taken exactly if its arm takes the scrutinee. -/
theorem takes_iff_row {arms : List (Arm ε)} {i : Nat} :
    Takes arms h v holds i ↔ ∃ r, (rows arms)[i]? = some r ∧
      (r.passes (h.part v) && (!r.guarded || holds r.arm)) = true := by
  rw [← admitted_iff_row]
  have hacc : ∀ p : Pattern, p.accepts h v = p.admits (h.part v) .root :=
    Pattern.accepts_eq_admits .root
  simp only [Takes, Admitted, hacc]

variable {records : RecordTable} {fns : FunctionTypes} {objs : ObjectTypes} {ty : Ty}
variable {arms : List (Arm ε)}

theorem exists_arm_of_mem_rows (h : r ∈ rows arms) :
    ∃ a ∈ arms, r.tests = patternTests .root a.pattern := by
  obtain ⟨i, hi⟩ := mem_iff_getElem?.1 h
  rw [rows_getElem?, Option.map_eq_some_iff] at hi
  obtain ⟨a, ha, rfl⟩ := hi
  exact ⟨a, mem_of_getElem? ha, rfl⟩

/-- The candidates of a match's tree are those of its arms' rows. -/
theorem candidates_compile (hh : h.Typed records fns objs) (hv : HasType fns objs v ty)
    (hp : ∀ a ∈ arms, a.pattern.Fits records ty) :
    (compile arms).candidates (h.part v) = rowCandidates (h.part v) (rows arms) := by
  refine (compiles_compile arms).candidates_eq (fun r hr => ?_) (fun r hr test ht => ?_)
  · obtain ⟨a, ha, hr⟩ := exists_arm_of_mem_rows hr
    rw [hr]
    exact Pattern.nodup_tests .root (hp a ha)
  · obtain ⟨a, ha, hr⟩ := exists_arm_of_mem_rows hr
    rw [hr] at ht
    exact Pattern.exists_lit_of_mem_tests hh .root (hp a ha) hv test ht

/-- **Match compilation is correct.** For a value of the scrutinee's type and any outcome of the
guards, the tree selects an arm exactly if it is the first one that takes the value, with
bindings that lead to what the arm's pattern binds, and it selects none exactly if no arm takes
the value. -/
theorem compile_select (hh : h.Typed records fns objs) (hv : HasType fns objs v ty)
    (hp : ∀ a ∈ arms, a.pattern.Fits records ty) (holds : Nat → Bool) :
    (∀ i, (∃ bindings, (compile arms).select (h.part v) holds = some (i, bindings)) ↔
      TakesFirst arms h v holds i) ∧
    (∀ i bindings, (compile arms).select (h.part v) holds = some (i, bindings) →
      ∃ a, arms[i]? = some a ∧
        bindings.map (fun b => (b.id, h.part v b.occurrence)) = a.pattern.binds h v) ∧
    ((compile arms).select (h.part v) holds = none ↔ ∀ i, ¬ Takes arms h v holds i) := by
  have hsel : (compile arms).select (h.part v) holds =
      ((rows arms).find? fun r => r.passes (h.part v) && (!r.guarded || holds r.arm)).map
        fun r => (r.arm, r.bindings) := by
    rw [Tree.select_eq_pick, candidates_compile hh hv hp, pick_rowCandidates]
  -- a row found at some position is the row of the arm at that position
  have hfound : ∀ i bindings, (compile arms).select (h.part v) holds = some (i, bindings) →
      TakesFirst arms h v holds i ∧ ∃ a, arms[i]? = some a ∧
        bindings.map (fun b => (b.id, h.part v b.occurrence)) = a.pattern.binds h v := by
    intro i bindings hi
    rw [hsel, Option.map_eq_some_iff] at hi
    obtain ⟨r, hr, hri⟩ := hi
    obtain ⟨htaken, k, hk, hkr, hbefore⟩ := find?_eq_some_iff_getElem.1 hr
    have hrk : (rows arms)[k]? = some r := by rw [getElem?_eq_getElem hk, hkr]
    obtain ⟨a, ha, rfl⟩ := Option.map_eq_some_iff.1 (rows_getElem? arms k ▸ hrk)
    cases hri
    refine ⟨⟨takes_iff_row.2 ⟨_, hrk, htaken⟩, fun j hj htakes => ?_⟩, a, ha, ?_⟩
    · obtain ⟨q, hq, hqt⟩ := takes_iff_row.1 htakes
      obtain ⟨hjlt, hjq⟩ := List.getElem?_eq_some_iff.1 hq
      have := hbefore j hj
      rw [hjq, hqt] at this
      simp at this
    · exact (Pattern.binds_eq_map (h := h) (v := v) .root a.pattern).symm
  have hnone : (compile arms).select (h.part v) holds = none ↔
      ∀ i, ¬ Takes arms h v holds i := by
    rw [hsel, Option.map_eq_none_iff, find?_eq_none]
    constructor
    · intro hall i htakes
      obtain ⟨r, hr, hrt⟩ := takes_iff_row.1 htakes
      exact hall r (mem_of_getElem? hr) hrt
    · intro hall r hr hrt
      obtain ⟨i, hi⟩ := mem_iff_getElem?.1 hr
      exact hall i (takes_iff_row.2 ⟨r, hi, hrt⟩)
  refine ⟨fun i => ⟨fun ⟨bindings, hi⟩ => (hfound i bindings hi).1, fun hfirst => ?_⟩,
    fun i bindings hi => (hfound i bindings hi).2, hnone⟩
  cases hs : (compile arms).select (h.part v) holds with
  | none => exact absurd hfirst.1 (hnone.1 hs i)
  | some selected =>
    obtain ⟨j, bindings⟩ := selected
    obtain ⟨hj, -⟩ := hfound j bindings hs
    -- two first arms are the same arm
    have hij : j = i := by
      rcases Nat.lt_trichotomy j i with hlt | heq | hgt
      · exact absurd hj.1 (hfirst.2 j hlt)
      · exact heq
      · exact absurd hfirst.1 (hj.2 i hgt)
    exact ⟨bindings, by rw [hij]⟩

/-! ### A match on a pair -/

/-- A record with a truth value and an integer. -/
def pairRecords : RecordTable :=
  ⟨[⟨default, "Pair", [⟨default, "flag", .bool⟩, ⟨default, "count", .int⟩], []⟩]⟩

/-- A heap with one pair. -/
def pairHeap : Heap :=
  ⟨[⟨.record "Pair" 2, [.bool true, .lit (.int 7)]⟩]⟩

/-- The type of the pair in `pairHeap`. -/
def pairTypes : ObjectTypes := fun a => if a = 0 then some (.record "Pair") else none

/-- A pattern for the two fields of a pair. -/
def pairPattern (flag count : Pattern) : Pattern :=
  .record ⟨default, .record "Pair"⟩ "Pair"
    [⟨default, "flag", 0, flag⟩, ⟨default, "count", 1, count⟩]

/-- Arms for pairs: one that wants another flag, one with a guard, and one for the rest. -/
def pairArms : List (Arm Unit) :=
  [⟨default, pairPattern (.literal ⟨default, .bool⟩ (.bool false)) (.wildcard ⟨default, .int⟩),
      none, ()⟩,
    ⟨default, pairPattern (.literal ⟨default, .bool⟩ (.bool true)) (.binding ⟨default, .int⟩ 5),
      some (), ()⟩,
    ⟨default, .wildcard ⟨default, .record "Pair"⟩, none, ()⟩]

theorem pairHeap_typed : pairHeap.Typed pairRecords (fun _ _ _ => False) pairTypes := by
  intro a ty ha
  simp only [pairTypes] at ha
  split at ha
  · cases ha
    subst_vars
    refine ⟨_, rfl, _, rfl, fun i d hd => ?_⟩
    match i, hd with
    | 0, hd => cases hd; exact ⟨_, rfl, .lit _⟩
    | 1, hd => cases hd; exact ⟨_, rfl, .lit _⟩
  · cases ha

theorem pairArms_fit : ∀ a ∈ pairArms, a.pattern.Fits pairRecords (.record "Pair") := by
  intro a ha
  simp only [pairArms, mem_cons, not_mem_nil, or_false] at ha
  rcases ha with rfl | rfl | rfl
  · exact ⟨rfl, by decide, _, rfl, ⟨_, rfl, rfl⟩, ⟨_, rfl, trivial⟩, trivial⟩
  · exact ⟨rfl, by decide, _, rfl, ⟨_, rfl, rfl⟩, ⟨_, rfl, trivial⟩, trivial⟩
  · trivial

/-- The second arm takes the pair, and binds the count, if its guard holds. -/
theorem compile_select_pair :
    pairHeap.Typed pairRecords (fun _ _ _ => False) pairTypes ∧
    HasType (fun _ _ _ => False) pairTypes (.object 0) (.record "Pair") ∧
    (∀ a ∈ pairArms, a.pattern.Fits pairRecords (.record "Pair")) ∧
    ∃ bindings, (compile pairArms).select (pairHeap.part (.object 0)) (fun _ => true) =
        some (1, bindings) ∧
      bindings.map (fun b => (b.id, pairHeap.part (.object 0) b.occurrence)) =
        [(5, .lit (.int 7))] := by
  have hv : HasType (fun _ _ _ => False) pairTypes (.object 0) (.record "Pair") := .record rfl
  obtain ⟨hfirst, hbinds, -⟩ := compile_select pairHeap_typed hv pairArms_fit fun _ => true
  refine ⟨pairHeap_typed, hv, pairArms_fit, ?_⟩
  have htakes : TakesFirst pairArms pairHeap (.object 0) (fun _ => true) 1 := by
    refine ⟨⟨_, rfl, by decide, fun _ => rfl⟩, fun j hj => ?_⟩
    obtain rfl : j = 0 := by omega
    rintro ⟨a, ha, hacc, -⟩
    cases ha
    exact absurd hacc (by decide)
  obtain ⟨bindings, hb⟩ := (hfirst 1).2 htakes
  obtain ⟨a, ha, hmap⟩ := hbinds 1 bindings hb
  cases ha
  exact ⟨bindings, hb, hmap⟩

end Decision

end Sluice
