import Sluice.Proofs.Decision.Arms
import Sluice.Proofs.Lower.Simulate

/-!
# The code of a match takes the arm that evaluation takes

The code of a match loads the parts of its scrutinee, follows its tree, and
evaluates guards on the way. It comes to the block of the arm that is taken, with
the locals of the arm bound (`Match.tries_choose`). A match without a default
takes its last branch unseen, so this needs the scrutinee to be well typed.
-/

namespace Sluice.Flow

open List Machine
open Decision (Binding Candidate Occurrence Scrutinee Tree boundTo tryArms)
open Typed (Arm Env Eval Expr LocalId Program)

variable {K : Layout} {S : Setting K} {scope bound held : List LocalId} {env : Env}
  {objs : ObjectTypes} {s : State} {n n' : Nat} {p p1 p2 q : Spot} {o : Operand Reg} {v : Value}
  {parts : Parts}

/-! ## Parts and locals -/

/-- Registers hold the parts of a scrutinee. -/
def PartsHold (K : Layout) (n : Nat) (held : List LocalId) (parts : Parts) (part : Scrutinee)
    (s : State) : Prop :=
  ∀ o r, parts.lookup o = some r → Holds K n held (.reg r) ∧ s.get r = part o

theorem PartsHold.frame
    (h : PartsHold K n held parts part s) (hf : Frame K m bound s s') (hm : n ≤ m) (hn : n ≤ n')
    (hb : ∀ id ∈ held, id ∉ bound) : PartsHold K n' held parts part s' := by
  intro o r hr
  obtain ⟨hholds, hv⟩ := h o r hr
  exact ⟨hholds.mono hn fun _ h => h, (hholds.value_eq hf hm hb).trans hv⟩

theorem PartsHold.cons (h : PartsHold K n held parts part s) (hr : Holds K n held (.reg r))
    (hv : s.get r = part place) : PartsHold K n held ((place, r) :: parts) part s := by
  intro o r' hr'
  rw [lookup_cons] at hr'
  split at hr'
  · rename_i heq
    cases hr'
    rw [eq_of_beq heq]
    exact ⟨hr, hv⟩
  · exact h o r' hr'

/-- An occurrence one step down. -/
theorem eq_child {place parent : Occurrence} (hp : place.parent? = some parent)
    (hi : place.lastIndex? = some index) : place = parent.child index := by
  cases place with
  | nil => cases hp
  | cons i rest =>
    cases hp
    exact (dropLast_append_getLast? index hi).symm

/-- Parts are loaded from the parts they lie in. -/
theorem tracks_loads :
    ∀ {os parts parts' p q s},
      Code.loads root types parts os K p parts' q →
      Holds K p.next held (.reg root) → s.get root = v →
      PartsHold K p.next held parts (s.world.heap.part v) s →
      Tracks S p.rest s (.ok () s.world) fun _ is s' => is = q.rest ∧
        PartsHold K q.next held parts' (s.world.heap.part v) s' ∧ Frame K p.next [] s s'
  | [], _, _, _, _, _, h, _, _, hparts => by
    obtain ⟨rfl, rfl⟩ := h
    exact .done ⟨rfl, hparts, .refl⟩
  | place :: rest, _, _, p, _, s, h, hroot, hv, hparts => by
    rw [Code.loads] at h
    cases place with
    | nil => exact tracks_loads h hroot hv (hparts.cons hroot hv)
    | cons i path =>
      obtain ⟨index, hindex⟩ : ∃ index, Occurrence.lastIndex? (i :: path) = some index :=
        Option.isSome_iff_exists.1 (by simp [Occurrence.lastIndex?])
      have hparent : Occurrence.parent? (i :: path) = some (i :: path).dropLast := rfl
      simp only [hindex, hparent] at h
      obtain ⟨object, _, ⟨hobject, rfl⟩, ty, _, ⟨-, rfl⟩, r, p1, ht, _, p2, he, h⟩ := h
      obtain ⟨hholds, hget⟩ := hparts _ _ hobject
      have hload : s.world.heap.load (s.get object) index =
          s.world.heap.part v (i :: path) := by
        rw [eq_child hparent hindex, Typed.part_child, hget]
      refine (tracks_write ht he rfl).seq fun is s1 (hw : s1.world = s.world)
        (hcore : Core K p.next p2 (.reg r) held [] s _ is s1) => ?_
      obtain ⟨rfl, hr, hholds', hframe⟩ := hcore
      have hle : p.next ≤ p2.next :=
        Nat.le_trans (Code.steady _ ht) (Code.steady _ he)
      have hparts1 := hparts.frame hframe Nat.le.refl hle fun _ _ => not_mem_nil
      rw [← hw] at hparts1 ⊢
      refine (tracks_loads h (hroot.mono hle fun _ h => h) ?_
        (hparts1.cons hholds' (hr.trans (hw ▸ hload)))).mono ?_
      · exact (hroot.value_eq hframe Nat.le.refl fun _ _ => not_mem_nil).trans hv
      · rintro _ is s' ⟨hrest, hparts', hframe'⟩
        exact ⟨hrest, hparts', hframe.trans (hframe'.mono hle fun _ h => h)⟩

/-- Locals are bound to parts. -/
theorem tracks_binds :
    ∀ {bindings scope env p q s},
      Code.binds parts bindings K p () q → PartsHold K n held parts part s → n ≤ p.next →
      (∀ id ∈ held, id ∉ bindings.map (·.id)) → Agrees K scope env s →
      Tracks S p.rest s (.ok () s.world) fun _ is s' => is = q.rest ∧
        Agrees K (bindings.map (·.id) ++ scope) (env.bind (boundTo part bindings)) s' ∧
        Frame K p.next (bindings.map (·.id)) s s'
  | [], _, _, _, _, _, h, _, _, _, hagrees => by
    obtain ⟨-, rfl⟩ := h
    exact .done ⟨rfl, hagrees, .refl⟩
  | b :: rest, _, _, p, _, s, h, hparts, hn, hheld, hagrees => by
    obtain ⟨_, p3, ⟨src, _, ⟨hsrc, rfl⟩, dst, p2, ⟨hdst, hle, hrest2⟩, hi, hnext⟩, h⟩ := h
    obtain ⟨hholds, hget⟩ := hparts _ _ hsrc
    have hself : b.id ∈ [b.id] := mem_singleton_self _
    have hframe : Frame K p.next [b.id] s (s.set dst (part b.occurrence)) :=
      .set_local _ S.apart hdst hself
    have hheld' : ∀ id ∈ held, id ∉ [b.id] := fun id hid hmem =>
      hheld id hid (mem_singleton.1 hmem ▸ mem_cons_self)
    rw [← hrest2, hi]
    have hstep : (Instr.move dst (.reg src)).step S.calls s =
        .next (s.set dst (part b.occurrence)) := by
      rw [← hget]
      rfl
    refine .next hstep ((tracks_binds h
      (hparts.frame hframe hn Nat.le.refl hheld') (hnext ▸ Nat.le_trans hn hle)
      (fun id hid hmem => hheld id hid (mem_cons_of_mem _ hmem))
      (hagrees.bind S.apart hdst (part b.occurrence))).mono ?_)
    rintro _ is s' ⟨hrest, hagrees', hframe'⟩
    refine ⟨hrest, fun id hid => hagrees' id ?_, ?_⟩
    · simp only [map_cons, cons_append, mem_cons, mem_append] at hid ⊢
      tauto
    · exact (hframe.mono Nat.le.refl fun id hid => mem_singleton.1 hid ▸
        mem_cons_self).trans (hframe'.mono (hnext ▸ hle) fun _ => mem_cons_of_mem _)

/-! ## The tree -/

/-- Code follows an expression in which only some locals are bound. -/
def Follows (S : Setting K) (scope bound : List LocalId) (code : Code (Operand Reg)) (e : Expr) :
    Prop :=
  ∃ inner, (∀ id ∈ inner, id ∈ bound) ∧ Simulates S scope inner code e

/-- There is code for a guard if there is one, and it follows it. -/
def GuardFollows (S : Setting K) (scope bound : List LocalId) :
    Option (Code (Operand Reg)) → Option Expr → Prop
  | none, none => True
  | some code, some guard => Follows S scope bound code guard
  | _, _ => False

/-- A match at the moment its scrutinee has been loaded: the locals in scope, those whose registers
hold values and those the arms bind, the arms and their code, the environment, the heap and the
scrutinee, and the number of registers used so far. -/
structure Match where
  scope : List LocalId
  held : List LocalId
  bound : List LocalId
  arms : List (Arm Expr)
  ways : Code.Ways
  env : Env
  heap : Heap
  value : Value
  ty : Ty
  objs : ObjectTypes
  next : Nat

namespace Match

/-- The parts of the scrutinee. -/
def part (M : Match) : Scrutinee := M.heap.part M.value

/-- The environment of an arm. -/
def bind (M : Match) (a : Arm Expr) : Env := M.env.bind (a.pattern.binds M.heap M.value)

/-- Trying candidates. -/
def tries (M : Match) (calls : Calls) (candidates : List Candidate) : Eval Nat :=
  tryArms calls M.env (fun i => M.arms[i]?.bind (·.guard)) M.part candidates

/-- **What a match relies on:** the locals the arms bind are apart from what holds values, the
scrutinee and the patterns are well typed, the code of guards follows them, and the blocks of
arms exist. -/
structure Fine (S : Setting K) (M : Match) : Prop where
  names : ∀ a ∈ M.arms, ∀ id ∈ a.pattern.binders, id ∈ M.bound
  apart : ∀ id ∈ M.held, id ∉ M.bound
  scope_held : ∀ id ∈ M.scope, id ∈ M.held
  heap : M.heap.Typed S.prog.records S.prog.functionTypes M.objs
  value : HasType S.prog.functionTypes M.objs M.value M.ty
  patterns : ∀ a ∈ M.arms, a.pattern.WellTyped S.prog.records S.locals M.ty
  guards : ∀ (i : Nat) (a : Arm Expr), M.arms[i]? = some a →
    GuardFollows S (a.pattern.binders ++ M.scope) M.bound
      M.ways.guards[i]?.join a.guard
  blocks : ∀ (i : Nat) (l : Label) (a : Arm Expr), M.arms[i]? = some a →
    M.ways.targets[i]?.join = some l → ∃ is, K.blocks[l]? = some is

/-- A run has come to the block of an arm, with the arm's locals bound. -/
def AtArm (S : Setting K) (M : Match) (s : State) (i : Nat) (is : List (Instr Reg)) (s' : State) :
    Prop :=
  ∃ l a objs, M.ways.targets[i]?.join = some l ∧ K.blocks[l]? = some is ∧
    M.arms[i]? = some a ∧ M.objs.Grows objs ∧ Frame K M.next M.bound s s' ∧
    Meets S (a.pattern.binders ++ M.scope) (M.bind a) objs s'

/-- A state in which the arms of a match can be tried. -/
structure Ready (S : Setting K) (M : Match) (objs : ObjectTypes) (s : State) : Prop where
  parts : PartsHold K M.next M.held M.ways.parts M.part s
  grows : M.objs.Grows objs
  meets : Meets S M.scope M.env objs s

/-- **The code of a tail tries candidates** that are arms of the match. -/
def Tries (S : Setting K) (M : Match) (T : Tail) (candidates : List Candidate) : Prop :=
  ∀ p m objs s, T K p m → M.next ≤ p.next → Ready S M objs s →
    (∀ x ∈ candidates, ∃ a, M.arms[x.arm]? = some a ∧
      x.bindings = Decision.patternBindings .root a.pattern) →
    Tracks S p.rest s (M.tries S.calls candidates s.world) (AtArm S M s)

variable {M : Match}

/-- Arms can still be tried after code that leaves enough alone. -/
theorem Ready.after (hM : Fine S M) (h : Ready S M objs s)
    (hf : Frame K M.next M.bound s s') (hg : objs.Grows objs')
    (hw : s'.world.heap.Typed S.prog.records S.prog.functionTypes objs') :
    Ready S M objs' s' where
  parts := h.parts.frame hf Nat.le.refl Nat.le.refl hM.apart
  grows := h.grows.trans hg
  meets := ⟨h.meets.agrees.frame hf fun id hid => hM.apart id (hM.scope_held id hid),
    h.meets.suits.mono hg, hw⟩

/-- What holds of an arm reached later holds from the start. -/
theorem AtArm.after (hf : Frame K M.next M.bound s s')
    (h : AtArm S M s' i is s'') : AtArm S M s i is s'' := by
  obtain ⟨l, a, objs, hl, his, ha, hgrows, hframe, hm⟩ := h
  exact ⟨l, a, objs, hl, his, ha, hgrows, hf.trans hframe, hm⟩

/-- The bindings of a pattern give its locals what the pattern binds them to. -/
theorem boundTo_part (a : Arm Expr) : boundTo M.part (Decision.patternBindings .root a.pattern) =
    a.pattern.binds M.heap M.value :=
  (Typed.Pattern.binds_eq_map (h := M.heap) (v := M.value) .root a.pattern).symm

/-- A comparison leads to one of two tails. -/
theorem lead_compare {part value X Y m}
    (hcode : Code.compare part value X Y K p m) :
    ∃ p1 m1 s1, (if s.get part = .lit value then X K p1 m1 else Y K p1 m1) ∧ p.next ≤ p1.next ∧
      Leads S.calls S.function p.rest s p1.rest s1 ∧ s1.world = s.world ∧ Frame K p.next [] s s1 := by
  obtain ⟨r, p2, ⟨_, p1, ht, _, _, he, rfl, rfl⟩, yes, no, p3, p4, hbranch, hyes, hnext3, hx,
    hno, hy⟩ := hcode
  have hle : p.next ≤ p2.next :=
    Nat.le_trans (Code.steady _ ht) (Code.steady _ he)
  obtain ⟨rfl, -, hrest1, -, htemp⟩ := ht
  obtain ⟨hi, -⟩ := he
  let s1 := s.set p.next (.bool (decide (s.get part = .lit value)))
  have hstep : (Instr.binary .eq p.next (.reg part) (.imm value)).step S.calls s = .next s1 := rfl
  have hleads : ∀ l is, K.blocks[l]? = some is →
      (if s.get part = .lit value then yes else no) = l → Leads S.calls S.function p.rest s is s1 := by
    rintro l is hl rfl e t ht
    rw [← S.blocks] at hl
    obtain ⟨b, hb, rfl⟩ := Option.map_eq_some_iff.1 hl
    rw [← hrest1, hi, hbranch]
    refine .next hstep (.goto ?_ hb ht)
    simp only [Instr.step, Operand.value, s1, get_set_self, Value.isTrue]
    simp
  have hframe : Frame K p.next [] s s1 := .set_temp _ htemp Nat.le.refl
  by_cases heq : s.get part = .lit value
  · refine ⟨p3, p4.next, s1, ?_, hnext3 ▸ hle, hleads yes _ hyes (if_pos heq), rfl, hframe⟩
    rw [if_pos heq]
    exact hx
  · refine ⟨p4, m, s1, ?_, ?_, hleads no _ hno (if_neg heq), rfl, hframe⟩
    · rw [if_neg heq]
      exact hy
    · exact Nat.le_trans hle (hnext3 ▸ X.steady hx)

section

variable (hM : Fine S M)

include hM

/-- The locals of an arm are bound to what its pattern binds. -/
theorem tracks_binds_arm {i : Nat} (ha : M.arms[i]? = some a)
    (hcode : Code.binds M.ways.parts (Decision.patternBindings .root a.pattern) K p () q)
    (hn : M.next ≤ p.next) (hr : Ready S M objs s) :
    Tracks S p.rest s (.ok () s.world) fun _ is s' => is = q.rest ∧
      Meets S (a.pattern.binders ++ M.scope) (M.bind a) objs s' ∧
      Frame K M.next M.bound s s' := by
  have hmem := mem_of_getElem? ha
  have hids := a.pattern.map_id_patternBindings
  have htracks : Tracks S p.rest s _ _ := tracks_binds hcode hr.parts hn
    (fun id hid hid' => hM.apart id hid (hM.names a hmem id (hids ▸ hid'))) hr.meets.agrees
  rw [hids, boundTo_part] at htracks
  obtain ⟨is, s', hleads, hw, hrest, hagrees, hframe⟩ := htracks
  refine ⟨is, s', hleads, hw, hrest, ⟨hagrees, ?_, hw ▸ hr.meets.heap⟩,
    hframe.mono hn (hM.names a hmem)⟩
  exact hr.meets.suits.bind_pattern hM.heap hM.value hr.grows (hM.patterns a hmem)

/-- A jump to the block of an arm. -/
theorem tracks_enterArm (ha : M.arms[i]? = some a) (hcode : Code.enterArm M.ways.targets i K p m)
    (hgrows : M.objs.Grows objs) (hframe : Frame K M.next M.bound s0 s)
    (hm : Meets S (a.pattern.binders ++ M.scope) (M.bind a) objs s) :
    Tracks S p.rest s (.ok i s.world) (AtArm S M s0) := by
  obtain ⟨l, hl, hrest, -⟩ := hcode
  obtain ⟨is, his⟩ := hM.blocks i l a ha hl
  rw [hrest]
  exact .goto rfl his (.done ⟨l, a, objs, hl, his, ha, hgrows, hframe, hm⟩)

/-- A comparison tries the candidates of one of two tails. -/
theorem Tries.compare {place part} (hpart : M.ways.parts.lookup place = some part) {value X Y xs ys}
    (hX : Tries S M X xs) (hY : Tries S M Y ys) :
    Tries S M (Code.compare part value X Y)
      (if M.part place = .lit value then xs else ys) := by
  intro p m objs s hcode hn hr hknown
  have hvalue : s.get part = M.part place := (hr.parts place part hpart).2
  obtain ⟨p1, m1, s1, hnext, hle, hleads, hw, hframe⟩ := lead_compare hcode
  have hframe1 : Frame K M.next M.bound s s1 := hframe.mono hn (by simp)
  have hr1 := hr.after hM hframe1 .refl (hw ▸ hr.meets.heap)
  rw [hvalue] at hnext
  rw [← hw]
  refine .lead hleads (.mono ?_ fun _ _ _ => AtArm.after hframe1)
  split
  · rename_i heq
    rw [if_pos heq] at hnext hknown
    exact hX p1 m1 objs s1 hnext (Nat.le_trans hn hle) hr1 hknown
  · rename_i heq
    rw [if_neg heq] at hnext hknown
    exact hY p1 m1 objs s1 hnext (Nat.le_trans hn hle) hr1 hknown

/-- A guarded arm is taken if its guard holds, and else the tail after it goes on. -/
theorem Tries.guard {arm : Nat} (hT : Tries S M T rest) :
    Tries S M ((Code.binds M.ways.parts bindings).andThen fun _ =>
      match M.ways.guards[arm]?.join with
      | none => Code.enterArm M.ways.targets arm
      | some guard => guard.andThen fun o => Code.branchArm M.ways.targets arm o T)
      (⟨arm, bindings, true⟩ :: rest) := by
  intro p m objs s hcode hn hr hknown
  obtain ⟨⟨a, ha, hbindings⟩, hrest⟩ := forall_mem_cons.1 hknown
  obtain rfl : bindings = _ := hbindings
  have hguard := hM.guards arm a ha
  obtain ⟨_, q, hbinds, hcode⟩ := hcode
  refine (tracks_binds_arm hM ha hbinds hn hr).seq ?_
  rintro _ s1 hw ⟨rfl, hm, hframe⟩
  have hle : M.next ≤ q.next := Nat.le_trans hn (Code.steady _ hbinds)
  rw [← hw, tries, tryArms]
  simp only [ha, Option.bind_some]
  cases hc : M.ways.guards[arm]?.join with
  | none =>
    cases hg : a.guard with
    | some guard =>
      rw [hc, hg] at hguard
      exact hguard.elim
    | none =>
      simp only [hc] at hcode
      exact tracks_enterArm hM ha hcode hr.grows hframe hm
  | some code =>
    cases hg : a.guard with
    | none =>
      rw [hc, hg] at hguard
      exact hguard.elim
    | some guard =>
      rw [hc, hg] at hguard
      simp only [hc] at hcode
      obtain ⟨inner, hinner, hsim⟩ := hguard
      obtain ⟨o, q1, hcode, l, next, p2, hl, hbranch, hnext, hn2, hcode2⟩ := hcode
      rw [boundTo_part]
      refine (hsim hcode hm).bind ?_
      rintro v _ s2 - ⟨⟨rfl, rfl, -, hframe2⟩, objs2, hgrows2, hm2, -⟩
      have hframe3 := hframe.trans (hframe2.mono hle hinner)
      rw [hbranch]
      split
      · rename_i htrue
        obtain ⟨is, his⟩ := hM.blocks arm l a ha hl
        refine .goto (by simp only [Instr.step, htrue, if_true]) his (.done ?_)
        exact ⟨l, a, objs2, hl, his, ha, hr.grows.trans hgrows2, hframe3, hm2⟩
      · rename_i hfalse
        refine .goto (by simp only [Instr.step, hfalse]; rfl) hnext (.mono ?_ fun _ _ _ =>
          AtArm.after hframe3)
        exact hT p2 m objs2 s2 hcode2
          (hn2 ▸ Nat.le_trans hle (code.steady hcode))
          (hr.after hM hframe3 hgrows2 hm2.heap) hrest

set_option linter.unusedSectionVars false in
mutual

/-- **The code of a tree tries its candidates.** The induction follows the branch that the
scrutinee takes. -/
theorem tries_choose :
    ∀ t : Tree, Tries S M (Code.choose M.ways t) (t.candidates M.part)
  | .leaf arm bindings => by
    intro p m objs s hcode hn hr hknown
    obtain ⟨a, ha, rfl⟩ := hknown ⟨arm, bindings, false⟩ (mem_singleton_self _)
    obtain ⟨_, q, hbinds, henter⟩ := hcode
    refine (tracks_binds_arm hM ha hbinds hn hr).seq ?_
    rintro _ s1 hw ⟨rfl, hm, hframe⟩
    rw [← hw]
    exact tracks_enterArm hM ha henter hr.grows hframe hm
  | .guard arm bindings fallback => Tries.guard hM (tries_choose fallback)
  | .test place branches none => by
    intro p m objs s hcode hn hr hknown
    obtain ⟨part, _, ⟨hpart, rfl⟩, hcode⟩ := hcode
    exact tries_chooseLast hpart branches p m objs s hcode hn hr hknown
  | .test place branches (some default) => by
    intro p m objs s hcode hn hr hknown
    obtain ⟨part, _, ⟨hpart, rfl⟩, hcode⟩ := hcode
    exact tries_chooseAmong hpart (tries_choose default) branches p m objs s hcode hn
      hr hknown
  | .fail => fun _ _ _ _ hcode _ _ _ => hcode.elim

/-- The code of branches tries the candidates of one of them, or goes on. -/
theorem tries_chooseAmong {place part} (hpart : M.ways.parts.lookup place = some part)
    {others candidates} (ho : Tries S M others candidates) :
    ∀ branches : List (Literal × Tree), Tries S M
      (Code.chooseAmong M.ways part others branches)
      (Tree.candidatesAmong M.part (M.part place) candidates branches)
  | [] => ho
  | (_, t) :: rest =>
    Tries.compare hM hpart (tries_choose t) (tries_chooseAmong hpart ho rest)

/-- The code of branches without a default tries the candidates of one of them. -/
theorem tries_chooseLast {place part} (hpart : M.ways.parts.lookup place = some part) :
    ∀ branches : List (Literal × Tree), Tries S M
      (Code.chooseLast M.ways part branches)
      (Tree.candidatesLast M.part (M.part place) branches)
  | [] => fun _ _ _ _ hcode _ _ _ => hcode.elim
  | [(_, t)] => tries_choose t
  | (_, t) :: next :: rest =>
    Tries.compare hM hpart (tries_choose t) (tries_chooseLast hpart (next :: rest))

end

end

end Match

/-! ## The whole match -/

/-- The code of the guard and the body of an arm follows them, with the arm's locals in scope. -/
structure ArmFollows (S : Setting K) (scope bound : List LocalId) (a : Arm Expr)
    (guard : Option (Code (Operand Reg))) (body : Code (Operand Reg)) : Prop where
  names : ∀ id ∈ a.pattern.binders, id ∈ bound
  guard : GuardFollows S (a.pattern.binders ++ scope) bound guard a.guard
  body : Follows S (a.pattern.binders ++ scope) bound body a.body

/-- The code of the guards and bodies of arms follows them. -/
def ArmsFollow (S : Setting K) (scope bound : List LocalId) (arms : List (Arm Expr))
    (guards : List (Option (Code (Operand Reg)))) (bodies : List (Code (Operand Reg))) : Prop :=
  ∀ (i : Nat) (a : Arm Expr), arms[i]? = some a → ∃ body, bodies[i]? = some body ∧
    ArmFollows S scope bound a guards[i]?.join body

/-- The block of an arm holds the code of its body. -/
theorem armBodies_getElem? {dst meeting l body} :
    ∀ {bodies blocks} {i n n' : Nat},
      Code.armBodies K dst meeting bodies blocks n n' → blocks[i]?.join = some l →
      bodies[i]? = some body →
      ∃ p o q, K.blocks[l]? = some p.rest ∧ n ≤ p.next ∧ body K p o q ∧
        q.rest = [.move dst o, .jump meeting] ∧ q.next ≤ n'
  | code :: bodies, some l' :: _, 0, _, _, h, hl, hb => by
    obtain ⟨p, o, q, hp, rfl, hcode, hrest, h⟩ := h
    obtain rfl : l' = l := by simpa using hl
    obtain rfl : code = body := by simpa using hb
    exact ⟨p, o, q, hp, Nat.le.refl, hcode, hrest, Code.le_of_armBodies h⟩
  | code :: bodies, some _ :: _, _ + 1, _, _, h, hl, hb => by
    obtain ⟨p, o, q, -, rfl, hcode, -, h⟩ := h
    obtain ⟨p1, o1, q1, hp, hn, hbody⟩ := armBodies_getElem? h hl hb
    exact ⟨p1, o1, q1, hp, Nat.le_trans (code.steady hcode) hn, hbody⟩
  | _ :: _, none :: _, 0, _, _, _, hl, _ => by simp at hl
  | _ :: bodies, none :: _, _ + 1, _, _, h, hl, hb => by
    rw [Code.armBodies] at h
    exact armBodies_getElem? h hl hb
  | [], _, _, _, _, _, _, hb => by simp at hb
  | _ :: _, [], _, _, _, _, hl, _ => by simp at hl

/-- From where the parts are loaded, a run comes to the end of the match with the value of the
arm that is taken. -/
theorem Match.tracks_arms {M : Match}
    (hM : M.Fine S)
    (harms : ArmsFollow S M.scope M.bound M.arms M.ways.guards bodies)
    (hr : M.Ready S objs s) (htree : Code.choose M.ways (Decision.compile M.arms) K p n)
    (hn : M.next ≤ p.next) (hbodies : Code.armBodies K dst meeting bodies M.ways.targets n q.next)
    (hmeeting : K.blocks[meeting]? = some q.rest) (hdst : K.Temporary dst) (hlt : dst < M.next) :
    Tracks S p.rest s (Expr.evalArms S.calls M.env M.heap M.value M.arms s.world)
      fun v is s' => is = q.rest ∧ s'.get dst = v ∧ Frame K dst M.bound s s' := by
  have hfits : ∀ a ∈ M.arms, a.pattern.Fits S.prog.records M.ty := fun a ha =>
    (hM.patterns a ha).fits
  have hle : p.next ≤ n := Tail.steady _ htree
  rw [Decision.evalArms_eq_tryArms hM.heap hM.value hfits]
  refine (tries_choose hM _ p n objs s htree hn hr ?_).bind ?_
  · exact fun x hx => Decision.mem_candidates_compile hM.heap hM.value hfits hx
  rintro i _ s1 - ⟨l, a, objs1, hl, his, ha, -, hframe1, hm1⟩
  obtain ⟨code, hcode, -, -, inner, hinner, hsim⟩ := harms i a ha
  obtain ⟨p2, o, q2, hp2, hn2, hcode2, hrest2, -⟩ := armBodies_getElem? hbodies hl hcode
  obtain rfl := Option.some.inj (his.symm.trans hp2)
  have hbody : Decision.evalBody S.calls M.env M.heap M.value (M.arms[·]?) i =
      a.body.eval S.calls (M.bind a) := by
    simp only [Decision.evalBody, ha]
    rfl
  rw [hbody]
  refine (hsim hcode2 hm1).andThen ?_
  rintro v _ s2 ⟨⟨rfl, rfl, -, hframe2⟩, -⟩
  have hle2 : dst ≤ p2.next := Nat.le_trans (Nat.le_of_lt hlt)
    (Nat.le_trans hn (Nat.le_trans hle hn2))
  rw [hrest2]
  refine .next rfl (.goto rfl hmeeting (.done ⟨rfl, get_set_self .., ?_⟩))
  exact (hframe1.mono (Nat.le_of_lt hlt) fun _ h => h).trans
    ((hframe2.mono hle2 hinner).trans (.set_temp _ hdst Nat.le.refl))

/-- **The code of a match follows it.** -/
theorem simulates_ofMatch {info id scrutinee arms E}
    {inner : List LocalId} {guards bodies}
    (he : (Expr.cases info id scrutinee arms).WellTyped S.prog S.locals scope)
    (hd : Distinct scope (inner ++ bound))
    (hE : Simulates S scope inner E scrutinee)
    (harms : ArmsFollow S scope bound arms guards bodies) :
    Simulates S scope (inner ++ bound)
      (Code.ofMatch info scrutinee.ty E (arms.map (·.pattern)) guards bodies
        (Decision.compile arms)) (.cases info id scrutinee arms) := by
  refine Simulates.of_core he hd @fun env _ p _ q s hcode hm => ?_
  obtain ⟨o1, p1, hscrutinee, root, p2, hroot, parts, p3, hloads, dst, p4, hdst, _, _,
    ⟨meeting, targets, n, htree, hcodes, hmeeting⟩, rfl, rfl⟩ := hcode
  have hle : p.next ≤ p1.next := E.steady hscrutinee
  have hle1 : p1.next ≤ p2.next := Code.steady _ hroot
  have hle2 : p2.next ≤ p3.next := Code.steady _ hloads
  have hle4 : p4.next ≤ q.next :=
    Nat.le_trans (Tail.steady _ htree) (Code.le_of_armBodies hcodes)
  obtain ⟨rfl, hnext, hrest, -, htemp⟩ := hdst
  refine (hE hscrutinee hm).bind ?_
  rintro v _ s1 - ⟨⟨rfl, rfl, hholds, hframe1⟩, objs1, hgrows1, hm1, hv⟩
  refine (tracks_inRegister hroot hholds).seq ?_
  rintro _ s2 hw2 ⟨rfl, hroot2, hholds2, hframe2⟩
  refine (tracks_loads hloads hholds2 hroot2 nofun).seq ?_
  rintro _ s3 hw3 ⟨rfl, hparts, hframe3⟩
  have hw : s3.world = s1.world := hw3.trans hw2
  have hframe : Frame K p1.next [] s1 s3 := hframe2.trans (hframe3.mono hle1 fun _ h => h)
  have hm3 : Meets S scope env objs1 s3 := hm1.temps hframe hw
  rw [hw2, ← hw] at hparts
  rw [← hw, ← hrest]
  have hlt : p3.next < p4.next := hnext ▸ Nat.lt_succ_self _
  let M : Match := ⟨scope, scope ++ inner, bound, arms, ⟨parts, guards, targets⟩, env,
    s3.world.heap, o1.value s1, scrutinee.ty, objs1, p4.next⟩
  have hM : M.Fine S :=
    { names := fun a ha => by
        obtain ⟨i, hi⟩ := getElem?_of_mem ha
        exact (harms i a hi).elim fun _ h => h.2.names
      apart := (Distinct.append.1 hd).2.2
      scope_held := fun id hid => mem_append_left _ hid
      heap := hm3.heap
      value := hv
      patterns := fun _ => he.2.pattern
      guards := fun i a ha => (harms i a ha).elim fun _ h => h.2.guard
      blocks := fun i l a ha hl => by
        obtain ⟨code, hcode, -⟩ := harms i a ha
        obtain ⟨p, -, -, hp, -⟩ := armBodies_getElem? hcodes hl hcode
        exact ⟨p.rest, hp⟩ }
  have hready : M.Ready S objs1 s3 :=
    { parts := fun o r hr => ⟨(hparts o r hr).1.mono (Nat.le_of_lt hlt) fun _ h => h,
        (hparts o r hr).2⟩
      grows := .refl
      meets := hm3 }
  refine (M.tracks_arms hM harms hready htree Nat.le.refl hcodes hmeeting htemp hlt).mono ?_
  rintro v _ s4 ⟨rfl, hv4, hframe4⟩
  refine ⟨rfl, hv4, .of_temp htemp (Nat.lt_of_lt_of_le hlt hle4), ?_⟩
  exact hframe1.append ((hframe.mono Nat.le.refl nofun).trans
    (hframe4.mono (Nat.le_trans hle1 hle2) fun _ h => h)) hle

end Sluice.Flow
