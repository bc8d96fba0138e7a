import Mathlib.Algebra.Group.Nat.Defs
import Sluice.Proofs.Decision.Ways

/-!
# Unreachable arms and missing cases

What is known on a way down the tree of well typed arms can always be: some
assignment of constants to the places with a primitive type is as the tests tell
(`exists_assigns`). So the arms that do not occur in the tree are exactly those that
nothing comes to (`errors_unreachable_iff`), and there is a failure exactly if
something comes past all arms without a guard (`errors_nonExhaustive_iff`). The
example that is reported shows all that is known at the first failure.
-/

namespace Sluice

open List

/-- The arm that cannot be reached, if that is the error. -/
def PatternError.arm? : PatternError → Option Nat
  | unreachableArm arm _ => some arm
  | nonExhaustive _ _ => none

/-- The example of a missing case, if that is the error. -/
def PatternError.witness? : PatternError → Option Decision.Witness
  | unreachableArm _ _ => none
  | nonExhaustive witness _ => some witness

namespace Decision

open Flow (HasField PartTy)
open Machine
open Typed (Arm Local Pattern)

/-! ## Constants outside a list -/

/-- Among one more than a list has, one is outside of it. -/
theorem firstOutside_not_mem (excluded : List Literal)
    (hf : ∀ m n, m ≤ excluded.length → n ≤ excluded.length → f m = f n → m = n) :
    ∃ n, firstOutside excluded f = f n ∧ f n ∉ excluded := by
  unfold firstOutside
  cases hfind : (List.range (excluded.length + 1)).find? fun n => !excluded.contains (f n) with
  | some n => exact ⟨n, rfl, by simpa using find?_some hfind⟩
  | none =>
    have hall : ((List.range (excluded.length + 1)).map f) ⊆ excluded := by
      intro x hx
      obtain ⟨n, hn, rfl⟩ := mem_map.1 hx
      simpa using find?_eq_none.1 hfind n hn
    have hnodup : ((List.range (excluded.length + 1)).map f).Nodup := by
      refine Nodup.map_on (fun m hm n hn h => ?_) nodup_range
      rw [mem_range] at hm hn
      exact hf m n (by omega) (by omega) h
    have hle := hnodup.length_le_of_subset hall
    rw [length_map, length_range] at hle
    omega

/-- **Literals that do not cover their type leave out the one that is shown.** -/
theorem exists_outside (hne : excluded ≠ []) (hp : ∀ l ∈ excluded, l.prim = p)
    (hopen : coversAll excluded = false) (hlen : excluded.length < 2 ^ 63) :
    ∃ l : Literal, outside excluded = .literal l ∧ l.prim = p ∧ l ∉ excluded := by
  obtain ⟨first, rest, rfl⟩ := exists_cons_of_ne_nil hne
  simp only [outside, coversAll, head?_cons, Option.map_some, hp first mem_cons_self] at hopen ⊢
  cases p with
  | int =>
    obtain ⟨n, hn, hout⟩ := firstOutside_not_mem (first :: rest)
      (f := fun n => .int (Int64.ofNat n)) fun m n hm hn h => by
        have h := congrArg Int64.toInt (Literal.int.inj h)
        rw [Int64.toInt_ofNat_of_lt (by omega), Int64.toInt_ofNat_of_lt (by omega)] at h
        exact Int.ofNat_inj.1 h
    exact ⟨_, rfl, hn ▸ rfl, hn ▸ hout⟩
  | str =>
    obtain ⟨n, hn, hout⟩ := firstOutside_not_mem (first :: rest)
      (f := fun n => .str (String.ofList (List.replicate n 'a'))) fun m n _ _ h => by
        have h := congrArg (·.toList.length) (Literal.str.inj h)
        simpa using h
    exact ⟨_, rfl, hn ▸ rfl, hn ▸ hout⟩
  | bool =>
    refine ⟨_, rfl, rfl, ?_⟩
    cases hfalse : (first :: rest).contains (.bool false) with
    | false => simpa using hfalse
    | true =>
      rw [hfalse, Bool.and_true] at hopen
      simpa using hopen
  | unit =>
    have hfirst : first = .unit := by
      cases first with
      | unit => rfl
      | _ => cases hp _ mem_cons_self
    simp [hfirst] at hopen

/-! ## Assignments -/

variable {records : RecordTable} {locals : List Local} {ty : Ty} {ε : Type} {arms : List (Arm ε)}
variable {part : Scrutinee} {holds : Nat → Bool} {k : Knowledge} {i : Nat}

/-- **The parts of primitive types are constants of these types.** -/
def Assigns (records : RecordTable) (ty : Ty) (part : Scrutinee) : Prop :=
  ∀ o p, PartTy records ty o (.prim p) → ∃ l : Literal, part o = .lit l ∧ l.prim = p

/-- The first arm of a match that admits a scrutinee. -/
def AdmittedFirst (arms : List (Arm ε)) (part : Scrutinee) (holds : Nat → Bool) (i : Nat) : Prop :=
  Admitted arms part holds i ∧ ∀ j < i, ¬ Admitted arms part holds j

theorem Assigns.rowsTyped (h : Assigns records ty part)
    (hp : ∀ a ∈ arms, a.pattern.WellTyped records locals ty) : RowsTyped part (rows arms) :=
  fun r hr test ht => h test.1 test.2.prim (partTy_of_mem_rows hp r hr test ht)

/-- The row that is picked is that of the first arm that admits the scrutinee. -/
theorem pick_rows_eq_some_iff :
    (pick holds (rowCandidates part (rows arms))).map Prod.fst = some i ↔
      AdmittedFirst arms part holds i := by
  have harm : ∀ {n : Nat} {r : Row}, (rows arms)[n]? = some r → r.arm = n := by
    intro n r hr
    obtain ⟨a, -, rfl⟩ := Option.map_eq_some_iff.1 (rows_getElem? arms n ▸ hr)
    rfl
  rw [pick_rowCandidates, Option.map_map, Option.map_eq_some_iff]
  simp only [AdmittedFirst, admitted_iff_row, find?_eq_some_iff_getElem]
  constructor
  · rintro ⟨r, ⟨hr, n, hn, hnr, hbefore⟩, rfl⟩
    have hget := List.getElem?_eq_some_iff.2 ⟨hn, hnr⟩
    obtain rfl := harm hget
    refine ⟨⟨r, hget, hr⟩, fun j hj => ?_⟩
    rintro ⟨q, hq, hqt⟩
    obtain ⟨hlt, rfl⟩ := List.getElem?_eq_some_iff.1 hq
    have hnot := hbefore j hj
    rw [hqt] at hnot
    cases hnot
  · rintro ⟨⟨r, hget, hr⟩, hbefore⟩
    obtain ⟨hn, hnr⟩ := List.getElem?_eq_some_iff.1 hget
    refine ⟨r, ⟨hr, i, hn, hnr, fun j hj => ?_⟩, harm hget⟩
    rw [Bool.not_eq_true']
    exact Bool.eq_false_iff.2 fun hq =>
      hbefore j hj ⟨_, getElem?_eq_getElem (hj.trans hn), hq⟩

/-- What is known can be, if no place is known twice and each can be as it is known. -/
theorem exists_assigns (hk : (k.map Prod.fst).Nodup)
    (hvalue : ∀ x ∈ k, ∃ l : Literal, PartTy records ty x.1 l.ty ∧ x.2.Holds (.lit l)) :
    ∃ part, Assigns records ty part ∧ ∀ x ∈ k, x.2.Holds (part x.1) := by
  induction k with
  | nil =>
    have hconst : ∀ p : Prim, ∃ l : Literal, l.prim = p
      | .int => ⟨.int 0, rfl⟩
      | .bool => ⟨.bool true, rfl⟩
      | .str => ⟨.str "", rfl⟩
      | .unit => ⟨.unit, rfl⟩
    have hplace : ∀ o, ∃ v : Value, ∀ p, PartTy records ty o (.prim p) →
        ∃ l : Literal, v = .lit l ∧ l.prim = p := by
      intro o
      by_cases ho : ∃ p, PartTy records ty o (.prim p)
      · obtain ⟨p, hp⟩ := ho
        obtain ⟨l, hl⟩ := hconst p
        exact ⟨.lit l, fun q hq => ⟨l, rfl, hl.trans (Ty.prim.inj (hp.unique hq))⟩⟩
      · exact ⟨.unit, fun p hp => absurd ⟨p, hp⟩ ho⟩
    choose part hpart using hplace
    exact ⟨part, hpart, forall_mem_nil _⟩
  | cons x k ih =>
    obtain ⟨hx, hk⟩ := nodup_cons.1 hk
    obtain ⟨⟨l, hl, hholds⟩, hvalue⟩ := forall_mem_cons.1 hvalue
    obtain ⟨part, hpart, hrest⟩ := ih hk hvalue
    refine ⟨Function.update part x.1 (.lit l), fun o p ho => ?_, ?_⟩
    · by_cases hox : o = x.1
      · subst hox
        exact ⟨l, by simp, Ty.prim.inj (hl.unique ho)⟩
      · simpa [hox] using hpart o p ho
    · refine forall_mem_cons.2 ⟨by simpa using hholds, fun y hy => ?_⟩
      have hyx : y.1 ≠ x.1 := fun heq => hx (heq ▸ mem_map_of_mem hy)
      simpa [hyx] using hrest y hy

/-- A constant of the right type is as a test tells, and it is the one that is shown. -/
theorem Constraint.Stems.exists_value {c : Constraint} (h : c.Stems (rows arms) o)
    (hp : ∀ a ∈ arms, a.pattern.WellTyped records locals ty) (hlen : arms.length < 2 ^ 63) :
    ∃ l : Literal, PartTy records ty o l.ty ∧ c.witness = .literal l ∧ c.Holds (.lit l) := by
  have htype : ∀ l, (∃ r ∈ rows arms, (o, l) ∈ r.tests) → PartTy records ty o l.ty :=
    fun l ⟨r, hr, ht⟩ => partTy_of_mem_rows hp r hr (o, l) ht
  cases c with
  | is l => exact ⟨l, htype l h, rfl, rfl⟩
  | isNot ls =>
    obtain ⟨hne, htests, hopen, hle⟩ := h
    obtain ⟨first, hfirst⟩ := exists_mem_of_ne_nil _ hne
    have hty := htype first (htests first hfirst)
    obtain ⟨l, hl, hprim, hout⟩ := exists_outside (p := first.prim) hne
      (fun l hl => Ty.prim.inj ((htype l (htests l hl)).unique hty)) hopen
      (by simp only [rows, length_map, length_zipIdx] at hle; omega)
    refine ⟨l, ?_, hl, fun x hx heq => hout (Value.lit.inj heq ▸ hx)⟩
    rw [Literal.ty, hprim]
    exact hty

/-- **Every way down the tree of well typed arms is taken** by an assignment. -/
theorem exists_assigns_of_way (hp : ∀ a ∈ arms, a.pattern.WellTyped records locals ty)
    (hlen : arms.length < 2 ^ 63) (hway : (compile arms).Way k failed s) :
    ∃ part, Assigns records ty part ∧ ∀ x ∈ k, x.2.Holds (part x.1) := by
  obtain ⟨left, -, hL⟩ := (compiles_compile arms).exists_left (rowsDistinct_rows hp) hway
  refine exists_assigns hL.places fun x hx => ?_
  obtain ⟨l, hl, -, hholds⟩ := (hL.stems x hx).exists_value hp hlen
  exact ⟨l, hl, hholds⟩

/-! ## Unreachable arms -/

/-- **The arms of the tree are those that something comes to.** -/
theorem mem_arms_compile (hp : ∀ a ∈ arms, a.pattern.WellTyped records locals ty)
    (hlen : arms.length < 2 ^ 63) : i ∈ (compile arms).arms ↔
      ∃ part holds, Assigns records ty part ∧ AdmittedFirst arms part holds i := by
  have hc := compiles_compile arms
  have hd := rowsDistinct_rows hp
  constructor
  · intro hi
    obtain ⟨k, failed, s, hway, hs⟩ := hc.exists_way_of_mem_arms hi
    obtain ⟨part, hpart, hk⟩ := exists_assigns_of_way hp hlen hway
    -- let the guard of this arm alone hold
    have hfailed : ∀ j ∈ failed, (j == i) = false := by
      have hlt := (pairwise_append.1 (pairwise_of_way hp hway)).2.2
      exact fun j hj => beq_false_of_ne (Nat.ne_of_lt (hlt j hj i (Option.mem_toList.2 hs)))
    have hstops : s.Stops (· == i) (some i) := by
      cases s <;> cases hs
      · exact .leaf _ _
      · exact .guard _ _ (beq_self_eq_true _)
    exact ⟨part, (· == i), hpart, pick_rows_eq_some_iff.1 (hc.pick_eq hd hway hk hfailed hstops)⟩
  · rintro ⟨part, holds, hpart, hfirst⟩
    obtain ⟨k, failed, s, e, hway, hk, hfailed, hs⟩ := hc.exists_way (hpart.rowsTyped hp) holds
    have hpick := hc.pick_eq hd hway hk hfailed hs
    rw [pick_rows_eq_some_iff.2 hfirst] at hpick
    subst hpick
    refine hway.mem_arms ?_
    cases hs <;> rfl

/-- The arms that are reported are those that do not occur in the tree. -/
theorem filterMap_arm?_errors (t : Tree) (arms : List (Arm ε)) (span : Span) :
    (errors records t arms ty span).filterMap PatternError.arm? =
      (List.range arms.length).filter (· ∉ t.reachable) := by
  have hfailure : ∀ x : Option Knowledge, ((x.map fun k => PatternError.nonExhaustive
      (k.witness records ty) span).toList.filterMap PatternError.arm?) = [] := by
    intro x
    cases x <;> rfl
  rw [errors, filterMap_append, hfailure, append_nil, unreachableArms,
    filterMap_filterMap, range_eq_range', ← zipIdx_map_snd, filter_map,
    ← filterMap_eq_filter, map_filterMap]
  refine filterMap_congr fun x _ => ?_
  by_cases hx : x.2 ∈ t.reachable <;> simp [hx, PatternError.arm?, Option.guard]

/-- **Reachability of arms is decided exactly.** For well typed arms, an arm is reported if and only
if no assignment of constants to the primitive parts of the scrutinee and no outcome of the guards
make it the first arm that matches and whose guard holds. The arms are reported in order, each
once. -/
theorem errors_unreachable_iff (hp : ∀ a ∈ arms, a.pattern.WellTyped records locals ty)
    (hlen : arms.length < 2 ^ 63) (span : Span) :
    ((errors records (compile arms) arms ty span).filterMap PatternError.arm?).Pairwise (· < ·) ∧
    ∀ i, i ∈ (errors records (compile arms) arms ty span).filterMap PatternError.arm? ↔
      i < arms.length ∧
        ¬ ∃ part holds, Assigns records ty part ∧ AdmittedFirst arms part holds i := by
  rw [filterMap_arm?_errors]
  refine ⟨pairwise_lt_range.filter _, fun i => ?_⟩
  rw [mem_filter, mem_range, decide_eq_true_eq, Tree.reachable, IdSet.mem_ofList,
    mem_arms_compile hp hlen]

/-- Nothing comes to an arm that looks for what an earlier one does. -/
theorem errors_unreachable_iff_linkArms :
    (∀ a ∈ linkArms, a.pattern.WellTyped linkRecords [] (.record "Link")) ∧
    linkArms.length < 2 ^ 63 ∧
    ¬ ∃ part holds, Assigns linkRecords (.record "Link") part ∧
      AdmittedFirst linkArms part holds 1 := by
  have hlen : linkArms.length < 2 ^ 63 := by decide
  obtain ⟨-, hiff⟩ := errors_unreachable_iff linkArms_wellTyped hlen default
  exact ⟨linkArms_wellTyped, hlen, ((hiff 1).1 (by decide)).2⟩

/-! ## Examples of missing cases -/

/-- **How an example is made** from what is known, without a bound on the recursion: it shows what
is known of a place, else the fields of a record that something is known inside of. -/
inductive Knowledge.Describes (records : RecordTable) (k : Knowledge) :
    Ty → Occurrence → Witness → Prop
  | known {ty o c} : k.lookup o = some c → Describes records k ty o c.witness
  | record {name r o fields} :
    k.lookup o = none → records.get? name = some r → (∃ x ∈ k, o <+: x.1) →
      fields.map Prod.fst = r.fields.map (·.name) →
      (∀ (i : Nat) d x, r.fields[i]? = some d → fields[i]? = some x →
        Describes records k d.ty (o.child i) x.2) →
      Describes records k (.record name) o (.record name fields)
  | any {ty o} :
    k.lookup o = none →
      (∀ name r, ty = .record name → records.get? name = some r → ¬ ∃ x ∈ k, o <+: x.1) →
      Describes records k ty o .any

theorem lookup_ne_none (hx : x ∈ k) : k.lookup x.1 ≠ none := by
  intro hnone
  exact bne_iff_ne.1 (lookup_eq_none_iff.1 hnone x hx) rfl

/-- **The bound on the levels is enough.** Nothing is known deeper down. -/
theorem describes_witnessAt : ∀ {levels ty o},
    (∀ x ∈ k, x.1.length ≤ o.length + levels) →
    k.Describes records ty o (k.witnessAt records levels ty o) := by
  intro levels
  induction levels with
  | zero =>
    intro ty o hk
    unfold Knowledge.witnessAt
    split
    · exact .known ‹_›
    · rename_i hnone
      refine .any hnone fun name r _ _ ⟨x, hx, hpre⟩ => ?_
      exact lookup_ne_none hx (hpre.eq_of_length_le (hk x hx) ▸ hnone)
  | succ levels ih =>
    intro ty o hk
    unfold Knowledge.witnessAt
    split
    · exact .known ‹_›
    · rename_i hnone
      cases ty with
      | record name =>
        have hinside : (k.any fun c => c.1.within o) = true ↔ ∃ x ∈ k, o <+: x.1 := by
          simp [any_eq_true, Occurrence.within]
        cases hr : records.get? name with
        | none =>
          simp only [hr]
          refine .any hnone fun name' r hname hr' => ?_
          cases hname
          cases hr.symm.trans hr'
        | some r =>
          simp only [hr, hinside]
          split
          · rename_i hany
            refine .record hnone hr hany (ext_getElem? fun i => by simp [Function.comp_def])
              fun i d x hd hx => ?_
            rw [getElem?_map, getElem?_zipIdx, hd, Nat.zero_add] at hx
            cases hx
            refine ih (o := o.child i) fun y hy => (hk y hy).trans (Nat.le_of_eq ?_)
            rw [Occurrence.child, length_append, length_singleton]
            omega
          · rename_i hany
            exact .any hnone fun _ _ _ _ => hany
      | _ => exact .any hnone fun _ _ hname => absurd hname (by simp)

theorem length_le_depth (hx : x ∈ k) : x.1.length ≤ k.depth := by
  have hfold : ∀ (xs : List Nat) (m : Nat), m ≤ xs.foldl max m ∧ ∀ n ∈ xs, n ≤ xs.foldl max m := by
    intro xs
    induction xs with
    | nil => exact fun m => ⟨Nat.le_refl m, forall_mem_nil _⟩
    | cons n rest ih =>
      intro m
      obtain ⟨hmax, hrest⟩ := ih (max m n)
      exact ⟨(Nat.le_max_left m n).trans hmax,
        forall_mem_cons.2 ⟨(Nat.le_max_right m n).trans hmax, hrest⟩⟩
  exact (hfold _ 0).2 _ (mem_map_of_mem hx)

/-- **Something agrees with an example:** it is the constant that is shown. -/
inductive Witness.Agrees (part : Scrutinee) : Occurrence → Witness → Prop
  | any {o} : Agrees part o .any
  | literal {o l} : part o = .lit l → Agrees part o (.literal l)
  | record {o name fields} :
    (∀ (i : Nat) x, fields[i]? = some x → Agrees part (o.child i) x.2) →
      Agrees part o (.record name fields)

/-- **What agrees with an example is as it is known.** -/
theorem Knowledge.Describes.agrees (hk : (k.map Prod.fst).Nodup)
    (hvalue : ∀ x ∈ k, ∃ l : Literal, PartTy records ty x.1 l.ty ∧ x.2.witness = .literal l ∧
      x.2.Holds (.lit l)) (h : k.Describes records object o w) (hpart : PartTy records ty o object)
    (hw : w.Agrees part o) : ∀ x ∈ k, o <+: x.1 → x.2.Holds (part x.1) := by
  -- something known further inside lies in a field
  have hfield : ∀ {o : Occurrence} {object : Ty}, PartTy records ty o object → ∀ x ∈ k,
      o <+: x.1 → x.1 ≠ o → ∃ i field, HasField records object i field ∧
        PartTy records ty (o.child i) field ∧ o.child i <+: x.1 := by
    rintro o object hpart x hx ⟨rest, hrest⟩ hne
    cases rest with
    | nil => exact absurd (hrest.symm.trans (append_nil o)) hne
    | cons i rest =>
      obtain ⟨l, hl, -⟩ := hvalue x hx
      obtain ⟨object', hobject', field, hfield, -⟩ := Flow.partTy_append.1 (hrest ▸ hl)
      cases hpart.unique hobject'
      exact ⟨i, field, hfield, Flow.partTy_child.2 ⟨object, hpart, hfield⟩, rest, by
        rw [← hrest, Occurrence.child, append_assoc]; rfl⟩
  induction h with
  | @known object o c hc =>
    intro x hx hpre
    have hmem := mem_of_lookup hc
    obtain ⟨l, hl, hwitness, hholds⟩ := hvalue _ hmem
    have hxo : x.1 = o := by
      by_contra hne
      obtain ⟨i, field, ⟨name, r, d, hname, -⟩, -⟩ := hfield hl x hx hpre hne
      cases hname
    obtain rfl : x = (o, c) := inj_on_of_nodup_map hk hx hmem hxo
    rw [hwitness] at hw
    cases hw with
    | literal heq => exact heq ▸ hholds
  | record hnone hr _ hnames _ ih =>
    intro x hx hpre
    obtain ⟨i, field, ⟨name, r', d, hname, hr', hd, rfl⟩, hpart, hpre⟩ :=
      hfield hpart x hx hpre fun heq => lookup_ne_none hx (heq ▸ hnone)
    cases hname
    cases hr.symm.trans hr'
    cases hw with
    | record hw =>
      have hshown := congrArg (·[i]?) hnames
      simp only [getElem?_map, hd, Option.map_some] at hshown
      obtain ⟨y, hy, -⟩ := Option.map_eq_some_iff.1 hshown
      exact ih i d y hd hy hpart (hw i y hy) x hx hpre
  | any hnone houtside =>
    intro x hx hpre
    obtain ⟨i, field, ⟨name, r, d, hname, hr, -⟩, -⟩ :=
      hfield hpart x hx hpre fun heq => lookup_ne_none hx (heq ▸ hnone)
    exact absurd ⟨x, hx, hpre⟩ (houtside name r hname hr)

theorem pick_rows_eq_none_iff : (pick (fun _ => false) (rowCandidates part (rows arms))).map
      Prod.fst = none ↔ ∀ a ∈ arms, a.guard = none → a.pattern.admits part .root = false := by
  rw [pick_rowCandidates, Option.map_map, Option.map_eq_none_iff, find?_eq_none]
  constructor
  · intro h a ha hguard
    obtain ⟨i, hi⟩ := mem_iff_getElem?.1 ha
    have hrow := rows_getElem? arms i
    rw [hi] at hrow
    simpa [Row.passes, Pattern.admits_eq_all, hguard] using h _ (mem_of_getElem? hrow)
  · intro h r hr
    obtain ⟨i, hi⟩ := mem_iff_getElem?.1 hr
    obtain ⟨a, ha, rfl⟩ := Option.map_eq_some_iff.1 (rows_getElem? arms i ▸ hi)
    cases hguard : a.guard with
    | none => simpa [Row.passes, Pattern.admits_eq_all] using h a (mem_of_getElem? ha) hguard
    | some _ => simp

/-- The example that is reported is that of the first failure of the tree. -/
theorem filterMap_witness?_errors (t : Tree) (arms : List (Arm ε)) (span : Span) :
    (errors records t arms ty span).filterMap PatternError.witness? =
      (t.firstFailure?.map (·.witness records ty)).toList := by
  have hunreachable : (unreachableArms t arms).filterMap PatternError.witness? = [] := by
    refine filterMap_eq_nil_iff.2 fun e he => ?_
    obtain ⟨x, -, hx⟩ := mem_filterMap.1 he
    obtain ⟨-, ⟨⟩⟩ := Option.ite_none_left_eq_some.1 hx
    rfl
  rw [errors, filterMap_append, hunreachable, nil_append]
  cases t.firstFailure? <;> rfl

/-- **The tree fails exactly if something comes past all arms without a guard.** -/
theorem firstFailure?_ne_none_iff (hp : ∀ a ∈ arms, a.pattern.WellTyped records locals ty)
    (hlen : arms.length < 2 ^ 63) : (compile arms).firstFailure? ≠ none ↔
      ∃ part, Assigns records ty part ∧
        ∀ a ∈ arms, a.guard = none → a.pattern.admits part .root = false := by
  have hc := compiles_compile arms
  have hd := rowsDistinct_rows hp
  constructor
  · intro hne
    obtain ⟨k, hk⟩ := Option.ne_none_iff_exists'.1 hne
    obtain ⟨failed, hway⟩ := hc.exists_way_of_firstFailure? hk
    obtain ⟨part, hpart, hk⟩ := exists_assigns_of_way hp hlen hway
    exact ⟨part, hpart, pick_rows_eq_none_iff.1 (hc.pick_eq hd hway hk (fun _ _ => rfl) .fail)⟩
  · rintro ⟨part, hpart, hnone⟩
    obtain ⟨k, failed, s, e, hway, hk, hfailed, hs⟩ :=
      hc.exists_way (hpart.rowsTyped hp) fun _ => false
    have hpick := hc.pick_eq hd hway hk hfailed hs
    rw [pick_rows_eq_none_iff.2 hnone] at hpick
    subst hpick
    cases hs
    exact hway.firstFailure?_ne_none

/-- **The example of the first failure is genuine:** no arm without a guard matches what agrees with
it. -/
theorem witness_genuine (hp : ∀ a ∈ arms, a.pattern.WellTyped records locals ty)
    (hlen : arms.length < 2 ^ 63) (hk : (compile arms).firstFailure? = some k) :
    k.Describes records ty .root (k.witness records ty) ∧
      ∀ part, (k.witness records ty).Agrees part .root →
        ∀ a ∈ arms, a.guard = none → a.pattern.admits part .root = false := by
  have hc := compiles_compile arms
  have hd := rowsDistinct_rows hp
  have hdescribes : k.Describes records ty .root (k.witness records ty) :=
    describes_witnessAt fun x hx => (length_le_depth hx).trans (Nat.le_add_left _ _)
  refine ⟨hdescribes, fun part hagrees => pick_rows_eq_none_iff.1 ?_⟩
  obtain ⟨failed, hway⟩ := hc.exists_way_of_firstFailure? hk
  obtain ⟨left, -, hL⟩ := hc.exists_left hd hway
  refine hc.pick_eq hd hway (fun x hx => ?_) (fun _ _ => rfl) .fail
  exact hdescribes.agrees hL.places (fun x hx => (hL.stems x hx).exists_value hp hlen) rfl hagrees
    x hx (List.nil_prefix ..)

/-- **Exhaustiveness is decided exactly, and the example is genuine.** For well typed arms, a
missing case is reported if and only if some assignment of constants to the primitive parts of the
scrutinee is matched by no arm without a guard, and it is reported once. Making the example comes
to an end, and no arm without a guard matches what agrees with it, in particular no value. -/
theorem errors_nonExhaustive_iff (hp : ∀ a ∈ arms, a.pattern.WellTyped records locals ty)
    (hlen : arms.length < 2 ^ 63) (span : Span) :
    ((errors records (compile arms) arms ty span).filterMap PatternError.witness?).length ≤ 1 ∧
    ((errors records (compile arms) arms ty span).filterMap PatternError.witness? ≠ [] ↔
      ∃ part, Assigns records ty part ∧
        ∀ a ∈ arms, a.guard = none → a.pattern.admits part .root = false) ∧
    ∀ w ∈ (errors records (compile arms) arms ty span).filterMap PatternError.witness?,
      (∃ k, (compile arms).firstFailure? = some k ∧ k.Describes records ty .root w) ∧
      (∀ part, w.Agrees part .root →
        ∀ a ∈ arms, a.guard = none → a.pattern.admits part .root = false) ∧
      ∀ (h : Heap) (v : Value), w.Agrees (h.part v) .root →
        ∀ a ∈ arms, a.guard = none → a.pattern.accepts h v = false := by
  rw [filterMap_witness?_errors, ← firstFailure?_ne_none_iff hp hlen]
  refine ⟨?_, by simp, fun w hw => ?_⟩
  · cases (compile arms).firstFailure? <;> simp
  · obtain ⟨k, hk, rfl⟩ := Option.map_eq_some_iff.1 (Option.mem_toList.1 hw)
    obtain ⟨hdescribes, hadmits⟩ := witness_genuine hp hlen hk
    refine ⟨⟨k, hk, hdescribes⟩, hadmits, fun h v hagrees a ha hguard => ?_⟩
    exact (a.pattern.accepts_eq_admits .root).trans (hadmits _ hagrees a ha hguard)

/-- The example shows what is known of the link and of the next one. -/
theorem errors_nonExhaustive_iff_linkArms :
    (∀ a ∈ linkArms, a.pattern.WellTyped linkRecords [] (.record "Link")) ∧
    linkArms.length < 2 ^ 63 ∧
    ∃ w, (errors linkRecords (compile linkArms) linkArms (.record "Link") default).filterMap
        PatternError.witness? = [w] ∧
      w.text = "Link \x7b on: true, count: _, next: Link \x7b on: _, count: 1, next: _ \x7d \x7d" ∧
      ∀ (h : Heap) (v : Value), w.Agrees (h.part v) .root →
        ∀ a ∈ linkArms, a.guard = none → a.pattern.accepts h v = false := by
  have hlen : linkArms.length < 2 ^ 63 := by decide
  obtain ⟨-, -, hgenuine⟩ := errors_nonExhaustive_iff linkArms_wellTyped hlen default
  refine ⟨linkArms_wellTyped, hlen, _, rfl, by decide +kernel, ?_⟩
  exact (hgenuine _ mem_cons_self).2.2

end Decision

end Sluice
