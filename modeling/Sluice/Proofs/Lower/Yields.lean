import Mathlib.Data.List.ReduceOption
import Sluice.Proofs.Lower.Tied

/-!
# Expressions are built typed and tied

Every expression is built from one block that control comes to, to another, and its
value has the type of the expression (`yields_expr`). In a match every part is loaded
into a register of its type, so comparisons and bindings agree with it, and every arm
with a block has an edge to that block: a tree leaves the block it starts in behind, and
leads to an arm (`ensures_choose`). So control comes to where arms meet.
-/

namespace Sluice.Flow

open List Build
open Decision (Binding Decisions Occurrence Tree)
open Typed (Arm Expr HasLocal LocalId Program)

variable {α β : Type} {p : Program} {f : Typed.Function} {Γ Γ' : List Ty} {W V R S : List Label}
  {Q : β → Builder → Prop} {o : Operand Reg} {r dst : Reg} {l meeting : Label} {ty : Ty}
  {records : RecordTable}

theorem Amid.join (hdst : Γ[dst]? = some ty) (ho : o.HasTy Γ ty) (hperm : (W ++ R).Perm (V ++ S))
    (hl : meeting ∈ S) (hR : ∀ l ∈ S, l = meeting ∨ l ∈ R)
    (hk : Ensures (Past p f Γ V S) (k ()) Q) :
    Ensures (Amid p f Γ W R) (join dst meeting o >>= k) Q := by
  rw [Build.join, bind_assoc]
  refine (Yields.emit (i := .move dst o) rfl rfl ⟨ty, hdst, ho⟩).ensures fun _ Γ' hpre _ =>
    jump hperm hl hR fun b c b' hb h => ?_
  exact hk b c b' (hb.narrow hpre) h

/-- Branches have met, and the builder goes on where they did. -/
theorem Yields.meet {A : List Ty → α → Prop} (hpre : Γ <+: Γ') (ha : A Γ' a) :
    Ensures (Past p f Γ' W (l :: R)) (switchTo l >>= fun _ => Pure.pure a)
      fun a b => ∃ Γ', Γ <+: Γ' ∧ A Γ' a ∧ Amid p f Γ' W R b :=
  Past.switchTo (.refl _) (.pure fun _ hb => ⟨Γ', hpre, ha, hb⟩)

/-! ## Parts -/

/-- Parts of values of a type are in registers of the right types. -/
def Parts.Typed (records : RecordTable) (ty : Ty) (Γ : List Ty) (parts : Parts) : Prop :=
  ∀ o r, parts.lookup o = some r → ∃ part, PartTy records ty o part ∧ Γ[r]? = some part

theorem Parts.typed_nil : Parts.Typed records ty Γ [] := by
  rintro o r ⟨⟩

theorem Parts.Typed.mono {parts : Parts} (h : parts.Typed records ty Γ) (hpre : Γ <+: Γ') :
    parts.Typed records ty Γ' := by
  intro o r hr
  obtain ⟨part, hpart, hreg⟩ := h o r hr
  exact ⟨part, hpart, getElem?_of_isPrefix hreg hpre⟩

theorem Parts.Typed.cons {parts : Parts} (hpart : PartTy records ty place part)
    (hr : Γ[r]? = some part) (h : parts.Typed records ty Γ) :
    Parts.Typed records ty Γ ((place, r) :: parts) := by
  intro o' r' h'
  rw [lookup_cons] at h'
  split at h'
  · rename_i heq
    cases h'
    exact ⟨part, beq_iff_eq.1 heq ▸ hpart, hr⟩
  · exact h o' r' h'

/-- **Parts are loaded into registers of their types.** -/
theorem yields_loadParts {id} {root types}
    (htypes : ∀ x ∈ types, PartTy p.records ty x.1 x.2) : ∀ {os parts}
    {Γ}, Γ[root]? = some ty → parts.Typed p.records ty Γ →
    Yields p f Γ (loadParts id root types parts os) fun Γ parts => parts.Typed p.records ty Γ
  | [], _, _, _, hparts => .pure hparts
  | [] :: rest, parts, Γ, hroot, hparts => by
    have hroot' : Parts.Typed p.records ty Γ (([], root) :: parts) := .cons rfl hroot hparts
    have hrest : Yields p f Γ (loadParts id root types (([], root) :: parts) rest) _ :=
      yields_loadParts htypes hroot hroot'
    exact hrest
  | (index :: path) :: rest, _, _, hroot, hparts => by
    have hchild : (index :: path) = Occurrence.child (index :: path).dropLast
        ((index :: path).getLast (cons_ne_nil _ _)) :=
      (dropLast_append_getLast _).symm
    rw [loadParts.eq_def]
    dsimp only [Occurrence.parent?, Occurrence.lastIndex?]
    rw [getLast?_eq_getLast_of_ne_nil (cons_ne_nil _ _)]
    dsimp only
    split
    · rename_i object part hobject hpart
      obtain ⟨objectTy, hobjectTy, hreg⟩ := hparts _ object hobject
      have hplace := htypes (index :: path, part) (mem_of_lookup hpart)
      obtain ⟨objectTy', hobjectTy', hfield⟩ := partTy_child.1 (hchild ▸ hplace)
      cases hobjectTy.unique hobjectTy'
      refine Yields.newRegister.bind fun r Γ1 hpre hr =>
        (Yields.emit (i := .load r object _) rfl rfl ?_).bind fun _ Γ2 hpre' _ =>
          yields_loadParts htypes ?_ (.cons hplace ?_ ?_)
      · exact ⟨objectTy, part, getElem?_of_isPrefix hreg hpre, hfield, hr⟩
      · exact getElem?_of_isPrefix hroot (hpre.trans hpre')
      · exact getElem?_of_isPrefix hr hpre'
      · exact hparts.mono (hpre.trans hpre')
    · rintro W R b a b' _ ⟨⟩

/-! ## Trees -/

/-- An operand of a type is built, typed and tied, whatever registers there are. -/
def Makes (p : Program) (f : Typed.Function) (x : Build (Operand Reg)) (ty : Ty) : Prop :=
  ∀ Γ, Yields p f Γ x fun Γ o => o.HasTy Γ ty

/-- What the nodes of a tree rely on, for scrutinees of a type. -/
structure Choice.Typed (p : Program) (f : Typed.Function) (ty : Ty) (Γ : List Ty) (c : Choice) :
    Prop where
  function : c.function = f
  parts : c.parts.Typed p.records ty Γ
  guards : ∀ (arm : Nat) guard, c.guards[arm]?.join = some guard →
    Makes p f guard .bool

variable {c : Choice} {count : Nat} {blocks : ArmBlocks}

theorem Choice.Typed.mono (h : c.Typed p f ty Γ) (hpre : Γ <+: Γ') : c.Typed p f ty Γ' :=
  ⟨h.function, h.parts.mono hpre, h.guards⟩

theorem yields_part (hc : c.Typed p f ty Γ) (place : Occurrence) :
    Yields p f Γ (c.part place) fun Γ r =>
      ∃ part, PartTy p.records ty place part ∧ Γ[r]? = some part := by
  rw [Choice.part]
  split
  · rename_i r hr
    exact .pure (hc.parts place r hr)
  · rintro W R b a b' _ ⟨⟩

/-- A local is given the part it is bound to. -/
theorem yields_binds (hc : c.Typed p f ty Γ)
    (hbindings : ∀ x ∈ bindings, BoundTo p.records f.locals ty x) :
    Yields p f Γ (c.bind bindings) fun _ _ => True := by
  refine .forM fun x hx Γ1 hpre1 => (yields_part (hc.mono hpre1) _).bind
    fun src Γ2 _ ⟨part, hpart, hsrc⟩ => ?_
  obtain ⟨part', hpart', hlocal⟩ := hbindings x hx
  cases hpart.unique hpart'
  rw [hc.function]
  refine (Yields.bindLocal hlocal).bind fun dst Γ3 hpre3 hdst =>
    .emit (i := .move dst (.reg src)) rfl rfl ?_
  exact ⟨part, hdst, getElem?_of_isPrefix hsrc hpre3⟩

/-- An arm that gets a block is added to those that have one. -/
theorem perm_reduceOption_set : ∀ {blocks : ArmBlocks} {arm}, arm < blocks.length →
    blocks[arm]?.join = none → ∀ l, (blocks.set arm (some l)).reduceOption.Perm
      (l :: blocks.reduceOption)
  | [], _, harm, _, _ => absurd harm (Nat.not_lt_zero _)
  | none :: blocks, 0, _, _, _ => .refl _
  | some _ :: blocks, 0, _, hnone, _ => by cases hnone
  | none :: blocks, arm + 1, harm, hnone, l =>
    perm_reduceOption_set (Nat.lt_of_succ_lt_succ harm) hnone l
  | some l' :: blocks, _ + 1, harm, hnone, l =>
    ((perm_reduceOption_set (Nat.lt_of_succ_lt_succ harm) hnone l).cons l').trans (.swap ..)

/-- The block of an arm is known already, or waits for the edge that comes next. -/
theorem ensures_armBlock (harm : arm < blocks.length)
    (hk : ∀ l blocks' V, blocks'.length = blocks.length → l ∈ blocks'.reduceOption →
      (∀ l' ∈ blocks'.reduceOption, l' = l ∨ l' ∈ blocks.reduceOption) →
      (V ++ (blocks.reduceOption ++ R)).Perm (W ++ (blocks'.reduceOption ++ R)) →
      Ensures (Amid p f Γ V (blocks.reduceOption ++ R)) (k (l, blocks')) Q) :
    Ensures (Amid p f Γ W (blocks.reduceOption ++ R)) (armBlock arm blocks >>= k) Q := by
  rw [armBlock]
  cases hl : blocks[arm]?.join with
  | some l =>
    have hmem : l ∈ blocks.reduceOption :=
      reduceOption_mem_iff.2 (mem_of_getElem? (Option.join_eq_some_iff.1 hl))
    exact hk l blocks W rfl hmem (fun _ => .inr) (.refl _)
  | none =>
    dsimp only
    rw [bind_assoc]
    refine Amid.newBlock fun l => ?_
    rw [pure_bind]
    have hperm := perm_reduceOption_set harm hl l
    refine hk l _ _ length_set (hperm.mem_iff.2 mem_cons_self)
      (fun l' hl' => mem_cons.1 (hperm.mem_iff.1 hl')) ?_
    exact perm_middle.symm.trans ((hperm.symm.append_right R).append_left W)

/-- After a tree, control comes to all arms with a block, and there is one. -/
def Led (p : Program) (f : Typed.Function) (Γ : List Ty) (W R : List Label) (count : Nat)
    (blocks : ArmBlocks) (b : Builder) : Prop :=
  blocks.length = count ∧ blocks.reduceOption ≠ [] ∧
    Past p f Γ W (blocks.reduceOption ++ R) b

/-- Where no branch applied so far, control comes to all arms with a block. -/
def Skipped (p : Program) (f : Typed.Function) (Γ : List Ty) (W R : List Label) (count : Nat)
    (blocks : ArmBlocks) (b : Builder) : Prop :=
  blocks.length = count ∧ Amid p f Γ W (blocks.reduceOption ++ R) b

theorem Led.ensures (hx : blocks.length = count → blocks.reduceOption ≠ [] →
    Ensures (Past p f Γ W (blocks.reduceOption ++ R)) x Q) :
    Ensures (Led p f Γ W R count blocks) x Q :=
  fun b c b' ⟨hcount, hne, hb⟩ h => hx hcount hne b c b' hb h

theorem Skipped.ensures
    (hx : blocks.length = count → Ensures (Amid p f Γ W (blocks.reduceOption ++ R)) x Q) :
    Ensures (Skipped p f Γ W R count blocks) x Q :=
  fun b c b' ⟨hcount, hb⟩ h => hx hcount b c b' hb h

theorem Led.narrow (h : Led p f Γ' W R count blocks b) (hpre : Γ <+: Γ') :
    Led p f Γ W R count blocks b :=
  ⟨h.1, h.2.1, h.2.2.narrow hpre⟩

theorem ensures_enterArm (harm : arm < count) (hcount : blocks.length = count) :
    Ensures (Amid p f Γ W (blocks.reduceOption ++ R)) (enterArm arm blocks)
      (Led p f Γ W R count) := by
  refine ensures_armBlock (hcount ▸ harm) fun l blocks' V hlen hl hold hperm =>
    Amid.jump hperm (mem_append_left _ hl) (by grind) (.pure fun b hb => ?_)
  exact ⟨hlen.trans hcount, ne_nil_of_mem hl, hb⟩

/-- A comparison, what comes where it succeeds, and what comes where it fails. -/
theorem ensures_compare {k : ArmBlocks → Build β} (hpart : Γ[part]? = some value.ty)
    (hx : ∀ {Γ' R}, Γ <+: Γ' →
      Ensures (Amid p f Γ' W (blocks.reduceOption ++ R)) x (Led p f Γ' W R count))
    (hk : ∀ {blocks'}, blocks'.length = count →
      Ensures (Amid p f Γ W (blocks'.reduceOption ++ R)) (k blocks') Q) :
    Ensures (Amid p f Γ W (blocks.reduceOption ++ R)) (do
      let (equal, other) ← compareWith part value
      switchTo equal
      let blocks ← x
      switchTo other
      k blocks) Q := by
  simp only [compareWith, bind_assoc, pure_bind]
  refine Yields.newRegister.ensures fun condition Γ1 hpre1 hcondition =>
    (Yields.emit (i := .binary .eq condition (.reg part) (.imm value)) rfl rfl ?_).ensures
      fun _ Γ2 hpre2 _ => Amid.newBlock fun equal => Amid.newBlock fun other =>
        Amid.branch (V := W) (S := equal :: (blocks.reduceOption ++ other :: R))
          (getElem?_of_isPrefix hcondition hpre2) (by grind) (by simp) (by grind)
          (Past.switchTo (.refl _) ((hx (hpre1.trans hpre2)).bind fun blocks' =>
            Led.ensures fun hcount _ => Past.switchTo perm_middle fun b c b' hb h => ?_))
  · exact ⟨.bool, value.ty, value.ty, hcondition, getElem?_of_isPrefix hpart hpre1, rfl, rfl, rfl⟩
  · exact hk hcount b c b' (hb.narrow (hpre1.trans hpre2)) h

/-- One of so many arms binds parts of values of a type to locals of their types. -/
abbrev ArmBinds (p : Program) (f : Typed.Function) (ty : Ty) (count arm : Nat)
    (bindings : List Binding) : Prop :=
  arm < count ∧ ∀ x ∈ bindings, BoundTo p.records f.locals ty x

section

variable (hc : c.Typed p f ty Γ)

include hc

set_option linter.unusedSectionVars false in
mutual

/-- **A tree leaves the block it starts in behind, and leads to arms.** -/
theorem ensures_choose : ∀ (t : Tree), t.EndsAt (ArmBinds p f ty count) →
    t.Tests (fun o l => PartTy p.records ty o l.ty) →
    ∀ {Γ' blocks R}, Γ <+: Γ' → blocks.length = count →
    Ensures (Amid p f Γ' W (blocks.reduceOption ++ R)) (choose c blocks t)
      (Led p f Γ' W R count)
  | .leaf arm bindings, ht, _, _, _, _, hpre, hcount =>
    (yields_binds (hc.mono hpre) ht.2).ensures fun _ _ hpre1 _ =>
      (ensures_enterArm ht.1 hcount).mono fun _ _ h => h.narrow hpre1
  | .guard arm bindings fallback, ht, htests, _, _, R, hpre, hcount => by
    refine (yields_binds (hc.mono hpre) ht.1.2).ensures fun _ Γ1 hpre1 _ => ?_
    cases hguard : c.guards[arm]?.join with
    | none => exact (ensures_enterArm ht.1.1 hcount).mono fun _ _ h => h.narrow hpre1
    | some guard =>
      refine (hc.guards arm guard hguard Γ1).ensures fun o Γ2 hpre2 ho =>
        ensures_armBlock (hcount ▸ ht.1.1) fun l blocks' V hlen hl hold hperm =>
          Amid.newBlock fun next => Amid.branch (V := W) (S := next :: (blocks'.reduceOption ++ R))
            ho ?_ (by simp [hl]) (by grind) (Past.switchTo (.refl _)
              ((ensures_choose fallback ht.2 htests (hpre.trans (hpre1.trans hpre2))
                (hlen.trans hcount)).mono fun _ _ h => h.narrow (hpre1.trans hpre2)))
      exact (hperm.cons next).trans perm_middle.symm
  | .test o branches none, ht, htests, _, _, _, hpre, hcount =>
    (yields_part (hc.mono hpre) o).ensures fun part Γ1 hpre1 ⟨partTy, hpart, hreg⟩ =>
      (ensures_chooseLast hpart branches ht.1 ht.2 htests (hpre.trans hpre1) hreg
        hcount).mono fun _ _ h => h.narrow hpre1
  | .test o branches (some default), ht, htests, _, _, _, hpre, hcount =>
    (yields_part (hc.mono hpre) o).ensures fun part Γ1 hpre1 ⟨partTy, hpart, hreg⟩ =>
      (ensures_chooseAmong hpart branches ht.1 htests.1 (hpre.trans hpre1) hreg
        hcount).bind fun blocks' => Skipped.ensures fun hcount' =>
          (ensures_choose default ht.2 htests.2 (hpre.trans hpre1) hcount').mono
            fun _ _ h => h.narrow hpre1
  | .fail, ht, _, _, _, _, _, _ => ht.elim

/-- The branches of a test leave the block they start in behind, but for where none applies. -/
theorem ensures_chooseAmong {o partTy}
    (hpart : PartTy p.records ty o partTy) : ∀ (branches : List (Literal × Tree)),
    Tree.BranchesEndAt (ArmBinds p f ty count) branches →
    Tree.BranchesTest (fun o l => PartTy p.records ty o l.ty) o branches →
    ∀ {Γ' part blocks R}, Γ <+: Γ' →
    Γ'[part]? = some partTy → blocks.length = count →
    Ensures (Amid p f Γ' W (blocks.reduceOption ++ R)) (chooseAmong c part blocks branches)
      (Skipped p f Γ' W R count)
  | [], _, _, _, _, _, _, _, _, hcount => .pure fun _ hb => ⟨hcount, hb⟩
  | (value, t) :: rest, ht, htests, _, _, _, _, hpre, hreg, hcount => by
    cases hpart.unique htests.1
    exact ensures_compare hreg
      (fun hpre1 => ensures_choose t ht.1 htests.2.1 (hpre.trans hpre1) hcount)
      fun hcount' => ensures_chooseAmong hpart rest ht.2 htests.2.2 hpre hreg hcount'

/-- Branches one of which must apply leave the block they start in behind. -/
theorem ensures_chooseLast {o partTy}
    (hpart : PartTy p.records ty o partTy) : ∀ (branches : List (Literal × Tree)),
    branches ≠ [] → Tree.BranchesEndAt (ArmBinds p f ty count) branches →
    Tree.BranchesTest (fun o l => PartTy p.records ty o l.ty) o branches →
    ∀ {Γ' part blocks R}, Γ <+: Γ' →
    Γ'[part]? = some partTy → blocks.length = count →
    Ensures (Amid p f Γ' W (blocks.reduceOption ++ R)) (chooseLast c part blocks branches)
      (Led p f Γ' W R count)
  | [], hne, _, _, _, _, _, _, _, _, _ => absurd rfl hne
  | [(_, t)], _, ht, htests, _, _, _, _, hpre, _, hcount =>
    ensures_choose t ht.1 htests.2.1 hpre hcount
  | (value, t) :: next :: rest, _, ht, htests, _, _, _, _, hpre, hreg, hcount => by
    cases hpart.unique htests.1
    exact ensures_compare hreg
      (fun hpre1 => ensures_choose t ht.1 htests.2.1 (hpre.trans hpre1) hcount)
      fun hcount' => ensures_chooseLast hpart (next :: rest) (cons_ne_nil _ _) ht.2
        htests.2.2 hpre hreg hcount'

end

end

/-! ## Matches -/

/-- The bodies of arms lead to where arms meet. -/
theorem ensures_armBodies_of_reached : ∀ {bodies}
    {blocks}, bodies.length = blocks.length → Γ[dst]? = some ty → meeting ∈ R →
    (∀ body ∈ bodies, Makes p f body ty) →
    Ensures (Past p f Γ W (blocks.reduceOption ++ R)) (armBodies dst meeting bodies blocks)
      fun _ => Past p f Γ W R
  | [], [], _, _, _, _ => .pure fun _ hb => hb
  | _ :: _, none :: _, hlen, hdst, hmeeting, hbodies => by
    rw [armBodies]
    exact ensures_armBodies_of_reached (Nat.succ.inj hlen) hdst hmeeting
      (forall_mem_cons.1 hbodies).2
  | body :: _, some _ :: _, hlen, hdst, hmeeting, hbodies => by
    refine Past.switchTo (.refl _) ((hbodies body mem_cons_self Γ).ensures fun o Γ1 hpre ho =>
      Amid.join (getElem?_of_isPrefix hdst hpre) ho (.refl _) (mem_append_right _ hmeeting)
        (fun _ => .inr) fun b c b' hb h => ?_)
    exact ensures_armBodies_of_reached (Nat.succ.inj hlen) hdst hmeeting
      (forall_mem_cons.1 hbodies).2 b c b' (hb.narrow hpre) h

/-- The first body makes the edge that the meeting waits for. -/
theorem ensures_armBodies : ∀ {bodies}
    {blocks}, bodies.length = blocks.length → blocks.reduceOption ≠ [] →
    Γ[dst]? = some ty → (∀ body ∈ bodies, Makes p f body ty) →
    Ensures (Past p f Γ (meeting :: W) (blocks.reduceOption ++ R))
      (armBodies dst meeting bodies blocks) fun _ => Past p f Γ W (meeting :: R)
  | [], [], _, hne, _, _ => absurd rfl hne
  | _ :: _, none :: _, hlen, hne, hdst, hbodies => by
    rw [armBodies]
    exact ensures_armBodies (Nat.succ.inj hlen) hne hdst (forall_mem_cons.1 hbodies).2
  | body :: _, some _ :: blocks, hlen, _, hdst, hbodies => by
    refine Past.switchTo (S := blocks.reduceOption ++ R) (.refl _)
      ((hbodies body mem_cons_self Γ).ensures fun o Γ1 hpre ho =>
        Amid.join (V := W) (S := blocks.reduceOption ++ meeting :: R)
          (getElem?_of_isPrefix hdst hpre) ho (by grind) (by simp) (by grind) fun b c b' hb h => ?_)
    exact ensures_armBodies_of_reached (Nat.succ.inj hlen) hdst mem_cons_self
      (forall_mem_cons.1 hbodies).2 b c b' (hb.narrow hpre) h

theorem yields_buildMatch {decisions : Decisions} {info id scrutinee patterns guards bodies tree}
    (htree : decisions.lookup id = some tree)
    (hends : tree.EndsAt (ArmBinds p f ty patterns.length))
    (htests : tree.Tests fun o l => PartTy p.records ty o l.ty)
    (hpatterns : ∀ q ∈ patterns, q.WellTyped p.records f.locals ty)
    (hscrutinee : Makes p f scrutinee ty)
    (hguards : ∀ (arm : Nat) guard, guards[arm]?.join = some guard →
      Makes p f guard .bool) (hlen : bodies.length = patterns.length)
    (hbodies : ∀ body ∈ bodies, Makes p f body info.ty) :
    Yields p f Γ (buildMatch f decisions info id ty scrutinee patterns guards bodies)
      fun Γ o => o.HasTy Γ info.ty := by
  intro W R
  have htypes : ∀ x ∈ (Occurrence.root, ty) :: patterns.flatMap (patternTypes .root),
      PartTy p.records ty x.1 x.2 := by
    refine forall_mem_cons.2 ⟨rfl, fun x hx => ?_⟩
    obtain ⟨q, hq, hx⟩ := mem_flatMap.1 hx
    exact (places_of_wellTyped (hpatterns q hq) (o := .root) rfl).1 x hx
  simp only [buildMatch, htree]
  refine (hscrutinee Γ).ensures fun o Γ1 hpre1 ho => (Yields.inRegister ho).ensures
    fun root Γ2 hpre2 hroot => (yields_loadParts htypes hroot Parts.typed_nil).ensures
      fun parts Γ3 hpre3 hparts => Yields.newRegister.ensures fun dst Γ4 hpre4 hdst =>
        Amid.newBlock fun meeting => ?_
  have hc : Choice.Typed p f ty Γ4 ⟨f, id, parts, guards⟩ := ⟨rfl, hparts.mono hpre4, hguards⟩
  have hnone : (patterns.map fun _ => (none : Option Label)).reduceOption = [] := by
    simp [List.reduceOption]
  have hchoose := ensures_choose (W := meeting :: W) (R := R) hc tree hends htests
    prefix_rfl (length_map (fun _ : Typed.Pattern => (none : Option Label)))
  rw [hnone] at hchoose
  refine hchoose.bind fun blocks => Led.ensures fun hcount hne =>
    (ensures_armBodies (hlen.trans hcount.symm) hne hdst hbodies).bind fun _ => Yields.meet ?_ hdst
  exact hpre1.trans (hpre2.trans (hpre3.trans hpre4))

/-! ## Expressions -/

variable {decisions : Decisions}

/-- A register is given the value of an expression, and the builder goes on elsewhere. -/
theorem ensures_assign (hdst : Γ[dst]? = some ty) (hE : Makes p f E ty)
    (hperm : (W ++ R).Perm (V ++ S)) (hl : meeting ∈ S) (hR : ∀ l ∈ S, l = meeting ∨ l ∈ R)
    (hk : ∀ Γ', Γ <+: Γ' → Ensures (Past p f Γ' V S) (k ()) Q) :
    Ensures (Amid p f Γ W R) (E >>= fun o => join dst meeting o >>= k) Q :=
  (hE Γ).ensures fun _ Γ' hpre ho =>
    Amid.join (getElem?_of_isPrefix hdst hpre) ho hperm hl hR (hk Γ' hpre)

/-- A second operand that is only built where the first does not decide. -/
theorem yields_shortcut {enter : Operand Reg → Label → Label → Instr Reg}
    (henter : ∀ o l l', enter o l l' = .branch o l l' ∨ enter o l l' = .branch o l' l)
    (hlhs : Makes p f lhs .bool)
    (hrhs : Makes p f rhs .bool) :
    Yields p f Γ (do
      let lhs ← lhs
      let dst ← newRegister .bool
      emit (.move dst lhs)
      let second ← newBlock
      let meeting ← newBlock
      emit (enter lhs second meeting)
      switchTo second
      join dst meeting (← rhs)
      switchTo meeting
      return Operand.reg dst) fun Γ o => o.HasTy Γ .bool := by
  intro W R
  refine (hlhs Γ).ensures fun o Γ1 hpre1 ho => Yields.newRegister.ensures fun dst Γ2 hpre2 hdst =>
    (Yields.emit (i := .move dst o) rfl rfl ⟨.bool, hdst, ho.mono hpre2⟩).ensures
      fun _ Γ3 hpre3 _ => Amid.newBlock fun second => Amid.newBlock fun meeting =>
        ?_
  have hleave : ∀ {k : Unit → Build (Operand Reg)} {Q : Operand Reg → Builder → Prop},
      Ensures (Past p f Γ3 W (second :: meeting :: R)) (k ()) Q →
      Ensures (Amid p f Γ3 (meeting :: second :: W) R) (emit (enter o second meeting) >>= k) Q := by
    intro k Q hk
    have ho := ho.mono (hpre2.trans hpre3)
    rcases henter o second meeting with heq | heq
    · exact heq ▸ Amid.branch ho (by grind) (by simp) (by grind) hk
    · exact heq ▸ Amid.branch ho (by grind) (by simp) (by grind) hk
  exact hleave (Past.switchTo (.refl _) (ensures_assign (getElem?_of_isPrefix hdst hpre3) hrhs
    (.refl _) mem_cons_self (fun _ => .inr) fun Γ4 hpre4 => Yields.meet
      (hpre1.trans (hpre2.trans (hpre3.trans hpre4)))
      (getElem?_of_isPrefix hdst (hpre3.trans hpre4))))

/-- A call of a known function. -/
theorem yields_direct (hdecl : p.Declares kind symbol params ty)
    (hargs : ∀ Γ, Yields p f Γ args fun Γ os => Forall₂ (Operand.HasTy Γ) os params) :
    Yields p f Γ (do
      let os ← args
      let r ← newRegister ty
      emit (.call r (.direct symbol) os)
      return Operand.reg r) fun Γ o => o.HasTy Γ ty := by
  exact (hargs Γ).bind fun os Γ1 _ hos => .write fun r Γ2 hpre hr =>
    ⟨ty, params, hr, Operand.HasTy.mono_all hos hpre, kind, hdecl⟩

theorem map_fst_indexed (values : List (Operand Reg)) :
    (indexed values).map (·.1) = List.range values.length := by
  rw [indexed, map_map, range_eq_range', ← zipIdx_map_snd 0 values]
  rfl

/-- A numbered value has one of the types that values have. -/
theorem exists_of_mem_indexed (h : Forall₂ (Operand.HasTy Γ) values tys)
    (hx : x ∈ indexed values) : ∃ ty ∈ tys, x.2.HasTy Γ ty := by
  obtain ⟨⟨o, i⟩, hy, rfl⟩ := mem_map.1 hx
  exact exists_of_forall₂_left h (fst_mem_of_mem_zipIdx hy)

mutual

/-- **An expression is built typed and tied**, and its value has its type. -/
theorem yields_expr : ∀ {e scope}, e.WellTyped p f.locals scope →
    Decided decisions (Decision.sites e) →
    Makes p f (build f decisions e) e.ty
  | .literal _ _, _, hwt, _, _ => .pure hwt.symm
  | .var _ _, _, hwt, _, _ => (Yields.readLocal hwt.2).bind fun _ _ _ hr => .pure hr
  | .function _ _, _, ⟨params, ret, hdecl, hty⟩, _, _ => by
    refine .write fun r Γ' _ hr => ⟨params, ret, ?_, hdecl⟩
    rw [hr, ← hty]
  | .letIn info id value body, _, ⟨hlocal, hty, hvalue, hbody⟩, hd, Γ => by
    have hty : (Expr.letIn info id value body).ty = body.ty := hty
    rw [hty]
    refine (yields_expr hvalue hd.left Γ).bind fun o Γ1 _ ho => (Yields.bindLocal hlocal).bind
      fun dst Γ2 hpre2 hdst => (Yields.emit (i := .move dst o) rfl rfl ?_).bind
        fun _ Γ3 _ _ => yields_expr hbody hd.right Γ3
    exact ⟨value.ty, hdst, ho.mono hpre2⟩
  | .block info items, _, ⟨hty, hitems⟩, hd, Γ => by
    have hunit : Operand.HasTy Γ (.imm .unit) .unit := rfl
    have hblock := yields_block hitems hd Γ hunit
    rw [← hty] at hblock
    exact hblock
  | .ifThen info c a, _, ⟨hty, hc, _, hcond, hpos⟩, hd, Γ => by
    intro W R
    refine (yields_expr hcond hd.left Γ).ensures fun o Γ1 hpre1 ho => ?_
    refine Amid.newBlock fun yes => Amid.newBlock fun meeting => ?_
    refine Amid.branch (V := W) (S := yes :: meeting :: R) (hc ▸ ho) (by grind) (by simp)
      (by grind) (Past.switchTo (.refl _) ?_)
    refine (yields_expr hpos hd.right Γ1).ensures fun _ Γ2 hpre2 _ => ?_
    exact Amid.jump (.refl _) mem_cons_self (fun _ => .inr)
      (Yields.meet (hpre1.trans hpre2) hty.symm)
  | .ifElse info c a b, _, ⟨hc, ha, hb, hcond, hpos, hneg⟩, hd, Γ => by
    intro W R
    refine (yields_expr hcond hd.left.left Γ).ensures fun o Γ1 hpre1 ho =>
      Yields.newRegister.ensures fun dst Γ2 hpre2 hdst => ?_
    refine Amid.newBlock fun yes => Amid.newBlock fun no => Amid.newBlock fun meeting => ?_
    refine Amid.branch (V := meeting :: W) (S := yes :: no :: R) ((hc ▸ ho).mono hpre2) (by grind)
      (by simp) (by grind) (Past.switchTo (.refl _) ?_)
    refine ensures_assign (V := W) (S := no :: meeting :: R) hdst
      (ha ▸ yields_expr hpos hd.left.right) (by grind) (by simp) (by grind) fun Γ3 hpre3 =>
        Past.switchTo (.refl _) ?_
    refine ensures_assign (getElem?_of_isPrefix hdst hpre3) (hb ▸ yields_expr hneg hd.right)
      (.refl _) mem_cons_self (fun _ => .inr) fun Γ4 hpre4 => Yields.meet ?_ ?_
    · exact hpre1.trans (hpre2.trans (hpre3.trans hpre4))
    · exact getElem?_of_isPrefix hdst (hpre3.trans hpre4)
  | .record info name fields, _, ⟨hty, r, hr, hperm, hfields⟩, hd, Γ => by
    refine (yields_fields hfields hd Γ).bind fun values Γ1 _ ⟨hindices, hvalues⟩ =>
      .object ⟨hty, r, hr, ?_⟩ (hindices ▸ ?_) fun x hx => ?_
    · simpa using hperm.length_eq.symm
    · have hcount : fields.length = r.fields.length := by simpa using hperm.length_eq
      rw [Shape.size, hcount]
      exact hperm
    · obtain ⟨d, hd, hx⟩ := hvalues x hx
      exact ⟨d.ty, .inl ⟨name, r, d, hty, hr, hd, rfl⟩, hx⟩
  | .field info target name index, _, ⟨⟨owner, r, d, htarget, hr, ⟨hd, _⟩, hty⟩, hwt⟩, hs, Γ => by
    have hfield : HasField p.records target.ty index d.ty := ⟨owner, r, d, htarget, hr, hd, rfl⟩
    refine (yields_expr hwt hs Γ).bind fun _ _ _ ho => (Yields.inRegister ho).bind
      fun object Γ2 _ hobject => .write fun r' Γ3 hpre hr' =>
        ⟨target.ty, d.ty, getElem?_of_isPrefix hobject hpre, hfield, ?_⟩
    rw [hr', ← hty]
  | .callFunction _ _ _, _, ⟨hdecl, hargs⟩, hd, _ => yields_direct hdecl (yields_list hargs hd)
  | .callMethod _ _ _ _ _, _, ⟨_, _, hdecl, hargs⟩, hd, _ =>
    yields_direct hdecl (yields_list hargs hd)
  | .callValue info callee args, _, ⟨hty, hcallee, hargs⟩, hd, Γ => by
    refine (yields_expr hcallee hd.left Γ).bind fun _ _ _ ho => (Yields.inRegister ho).bind
      fun callee Γ2 _ hreg => (yields_list hargs hd.right Γ2).bind fun os Γ3 hpre3 hos =>
        .write fun r Γ4 hpre4 hr =>
          ⟨info.ty, args.map (·.ty), hr, Operand.HasTy.mono_all hos hpre4, ?_⟩
    rw [hty] at hreg
    exact getElem?_of_isPrefix hreg (hpre3.trans hpre4)
  | .cases info id scrutinee arms, _, ⟨hscrutinee, harms⟩, hd, _ => by
    obtain ⟨⟨hlookup, hfail⟩, hd⟩ := forall_mem_cons.1 hd
    obtain ⟨hguards, hlen, hbodies⟩ := yields_arms harms (Decided.right hd)
    refine yields_buildMatch hlookup ?_ ?_ ?_ (yields_expr hscrutinee (Decided.left hd)) hguards
      ?_ hbodies
    · refine Decision.endsAt_compile (fun arm a ha => ⟨?_, ?_⟩) hfail
      · rw [length_map]
        exact (List.getElem?_eq_some_iff.1 ha).1
      · exact (places_of_wellTyped (o := .root) (harms.pattern (mem_of_getElem? ha)) rfl).2.2
    · refine Decision.tests_compile fun a ha => ?_
      exact (places_of_wellTyped (o := .root) (harms.pattern ha) rfl).2.1
    · exact forall_mem_map.2 fun a ha => harms.pattern ha
    · rw [hlen, length_map]
  | .list info elems, _, ⟨⟨elem, hty, helems⟩, hwt⟩, hd, Γ => by
    refine (yields_list hwt hd Γ).bind fun values Γ1 _ hvalues => .object ⟨elem, hty⟩ ?_ ?_
    · rw [map_fst_indexed, Shape.size, hvalues.length_eq, length_map]
    · intro x hx
      obtain ⟨valueTy, hmem, hx⟩ := exists_of_mem_indexed hvalues hx
      exact ⟨elem, .inr hty, helems valueTy hmem ▸ hx⟩
  | .binary info op lhs rhs, _, ⟨hrule, hlhs, hrhs⟩, hd, Γ => by
    have hl := yields_expr hlhs hd.left
    have hr := yields_expr hrhs hd.right
    by_cases hshort : op = .and ∨ op = .or
    · obtain ⟨hlty, hrty, hty⟩ : lhs.ty = .bool ∧ rhs.ty = .bool ∧
          (Expr.binary info op lhs rhs).ty = .bool := by
        rcases hshort with rfl | rfl <;> exact hrule
      rw [hlty] at hl
      rw [hrty] at hr
      rw [hty]
      rcases hshort with rfl | rfl
      · exact yields_shortcut (fun _ _ _ => .inl rfl) hl hr
      · exact yields_shortcut (fun _ _ _ => .inr rfl) hl hr
    obtain ⟨hand, hor⟩ := not_or.1 hshort
    rw [build_binary hand hor]
    exact (hl Γ).bind fun o Γ1 _ ho => (hr Γ1).bind fun o' Γ2 hpre2 ho' =>
      .write fun r Γ3 hpre3 hr =>
        ⟨info.ty, lhs.ty, rhs.ty, hr, ho.mono (hpre2.trans hpre3), ho'.mono hpre3, hrule⟩
  | .unary info op operand, _, ⟨hrule, hwt⟩, hd, Γ =>
    (yields_expr hwt hd Γ).bind fun _ _ _ ho => .write fun r Γ' hpre hr =>
      ⟨info.ty, operand.ty, hr, ho.mono hpre, hrule⟩

theorem yields_list : ∀ {es scope},
    Expr.WellTypedList p f.locals scope es → Decided decisions (Decision.sitesList es) →
    ∀ Γ, Yields p f Γ (buildList f decisions es) fun Γ os =>
      Forall₂ (Operand.HasTy Γ) os (es.map (·.ty))
  | [], _, _, _, _ => .pure .nil
  | _ :: _, _, ⟨he, hes⟩, hd, Γ =>
    (yields_expr he hd.left Γ).bind fun _ Γ1 _ ho => (yields_list hes hd.right Γ1).bind
      fun _ _ hpre hos => .pure (.cons (ho.mono hpre) hos)

/-- The value of a block is that of its last expression. -/
theorem yields_block : ∀ {es scope},
    Expr.WellTypedList p f.locals scope es → Decided decisions (Decision.sitesList es) →
    ∀ Γ {last lastTy}, last.HasTy Γ lastTy →
    Yields p f Γ (buildBlock f decisions last es) fun Γ o =>
      o.HasTy Γ (es.getLast?.elim lastTy (·.ty))
  | [], _, _, _, _, _, _, hlast => .pure hlast
  | e :: rest, _, ⟨he, hes⟩, hd, Γ, _, _, _ => by
    refine (yields_expr he hd.left Γ).bind fun o Γ1 _ ho => ?_
    rw [Typed.getLast?_elim_cons]
    exact yields_block hes hd.right Γ1 ho

theorem yields_fields {r} : ∀ {fields}
    {scope}, Expr.WellTypedFields p f.locals scope r fields →
    Decided decisions (Decision.sitesFields fields) →
    ∀ Γ, Yields p f Γ (buildFields f decisions fields) fun Γ xs =>
      xs.map (·.1) = fields.map (·.index) ∧
      ∀ x ∈ xs, ∃ d, r.fields[x.1]? = some d ∧ x.2.HasTy Γ d.ty
  | [], _, _, _, _ => .pure ⟨rfl, forall_mem_nil _⟩
  | ⟨_, _, index, e⟩ :: _, _, ⟨⟨d, ⟨hd, _⟩, hty⟩, he, hrest⟩, hsites, Γ => by
    refine (yields_expr he hsites.left Γ).bind fun o Γ1 _ ho =>
      (yields_fields hrest hsites.right Γ1).bind fun xs Γ2 hpre ⟨hindices, hxs⟩ =>
        .pure ⟨congrArg (index :: ·) hindices, ?_⟩
    exact forall_mem_cons.2 ⟨⟨d, hd, hty ▸ ho.mono hpre⟩, hxs⟩

/-- Guards are truth values, and bodies have the type of the match. -/
theorem yields_arms : ∀ {arms scope},
    Expr.WellTypedArms p f.locals scope scrutineeTy result arms →
    Decided decisions (Decision.sitesArms arms) →
    (∀ (i : Nat) guard, (buildGuards f decisions arms)[i]?.join = some guard →
      Makes p f guard .bool) ∧
    (buildBodies f decisions arms).length = arms.length ∧
    ∀ body ∈ buildBodies f decisions arms, Makes p f body result
  | [], _, _, _ => ⟨nofun, rfl, forall_mem_nil _⟩
  | ⟨_, _, none, _⟩ :: _, _, ⟨_, hty, hbody, hrest⟩, hd => by
    obtain ⟨hguards, hlen, hbodies⟩ := yields_arms hrest hd.right
    refine ⟨?_, congrArg Nat.succ hlen,
      forall_mem_cons.2 ⟨hty ▸ yields_expr hbody hd.left, hbodies⟩⟩
    rintro (_ | i) guard hguard
    · cases hguard
    · exact hguards i guard hguard
  | ⟨_, _, some _, _⟩ :: _, _, ⟨_, hbool, hty, hguard, hbody, hrest⟩, hd => by
    obtain ⟨hguards, hlen, hbodies⟩ := yields_arms hrest hd.right
    refine ⟨?_, congrArg Nat.succ hlen,
      forall_mem_cons.2 ⟨hty ▸ yields_expr hbody hd.left.right, hbodies⟩⟩
    rintro (_ | i) guard hg
    · cases hg
      exact hbool ▸ yields_expr hguard hd.left.left
    · exact hguards i guard hg

end

/-! ## Bodies -/

/-- The registers of parameters have the types of the parameters. -/
theorem yields_bindLocals : ∀ {ids : List LocalId}, (∀ id ∈ ids, id < f.locals.length) → ∀ Γ,
    Yields p f Γ (ids.mapM (bindLocal f)) fun Γ rs => Forall₂ (fun r ty => Γ[r]? = some ty) rs
      (ids.filterMap fun id => f.locals[id]?.map (·.ty))
  | [], _, _ => .pure .nil
  | id :: rest, hids, _ => by
    obtain ⟨hid, hrest⟩ := forall_mem_cons.1 hids
    have hlocal := getElem?_eq_getElem hid
    rw [mapM_cons, filterMap_cons_some (by rw [hlocal]; rfl)]
    refine (Yields.bindLocal ⟨_, hlocal, rfl⟩).bind fun r Γ1 _ hr =>
      (yields_bindLocals hrest Γ1).bind fun rs Γ2 hpre hrs => .pure (.cons ?_ hrs)
    exact getElem?_of_isPrefix hr hpre

/-- The builder starts at the entry. -/
theorem amid_start : Amid p f [] [] [] (({} : Builder).addBlock.moveTo entry) := by
  have hblocks : ∀ is ∈ (({} : Builder).addBlock.moveTo entry).blocks, is = [] :=
    fun _ => mem_singleton.1
  have hnone : ∀ is ∈ (({} : Builder).addBlock.moveTo entry).blocks, ∀ i, i ∉ is :=
    fun is his i hi => absurd (hblocks is his ▸ hi) not_mem_nil
  have hfirst : ∀ l < (({} : Builder).addBlock.moveTo entry).blocks.length, l = entry :=
    fun l => Nat.lt_one_iff.1
  refine ⟨List.nil_prefix, ⟨fun is his i hi => absurd hi (hnone is his i), fun is his => ?_, nofun⟩,
    ⟨fun l hl => .inr ?_, nofun, fun is his i hi => absurd hi (hnone is his i)⟩,
    ⟨Nat.one_pos, nodup_singleton _, fun l hl => ⟨[], ?_, nofun⟩, fun l is hl hU => ?_,
      fun is his i hi => absurd hi (hnone is his i)⟩, not_mem_nil, .refl⟩
  · rw [hblocks is his]
    exact .nil
  · rw [hfirst l hl]
    exact .refl
  · rw [mem_singleton.1 hl]
    rfl
  · refine absurd (mem_singleton.2 ?_) hU
    exact hfirst l (List.getElem?_eq_some_iff.1 hl).1

/-- **A body is built typed and tied**, and then its value is returned. -/
theorem amid_of_buildBody {params b} (hf : f.WellTyped p)
    (hd : Decided decisions (Decision.sites f.body))
    (h : buildBody f decisions {} = .ok (params, b)) :
    ∃ b0 o, Amid p f [] [] [] b0 ∧ b = b0.adds [.ret o] ∧ o.HasTy b0.registers f.ret ∧
      Forall₂ (fun r ty => b0.registers[r]? = some ty) params f.paramTypes := by
  have hparams : ∀ id ∈ f.params, id < f.locals.length := by
    intro id hid
    have hmem := mem_append_left f.body.binders hid
    rw [hf.locals_eq] at hmem
    exact mem_range.1 hmem
  rw [buildBody, run_newBlock, run_switchTo] at h
  obtain ⟨params, b1, hrun1, h⟩ := run_bind_eq_ok h
  obtain ⟨o, b2, hrun2, h⟩ := run_bind_eq_ok h
  obtain ⟨Γ1, -, hparams, hb1⟩ := yields_bindLocals hparams [] [] [] _ _ _ amid_start hrun1
  obtain ⟨Γ2, hpre, ho, hb2⟩ := yields_expr hf.body_typed hd Γ1 [] [] _ _ _ hb1 hrun2
  cases h
  refine ⟨b2, o, hb2.narrow nil_prefix, rfl, ?_, ?_⟩
  · rw [← hf.body_ty]
    exact ho.mono hb2.registers
  · exact hparams.imp fun r ty hr => getElem?_of_isPrefix hr (hpre.trans hb2.registers)

/-! ## Functions -/

variable {g : Function Reg}

/-- **What is lowered is well typed** under the types of its registers. -/
theorem typed_of_lower (hf : f.WellTyped p) (hd : Decided decisions (Decision.sites f.body))
    (h : lower f decisions = .ok g) :
    Forall₂ (fun r ty => g.registers[r]? = some ty) g.params f.paramTypes ∧
    ∀ block ∈ g.blocks, (∀ i ∈ block.instrs, i.WellTyped p f.ret g.registers) ∧
      Filled block.instrs := by
  obtain ⟨b, hrun, hblocks, hregisters, -⟩ := exists_buildBody_of_lower h
  obtain ⟨b0, o, hb0, rfl, ho, hparams⟩ := amid_of_buildBody hf hd hrun
  have hret : Instr.WellTyped p f.ret b0.registers (.ret o) := ho
  have htyped : (b0.adds [.ret o]).Typed p f :=
    hb0.typed.adds (forall_mem_singleton.2 hret) (.singleton rfl)
  rw [hregisters]
  refine ⟨hparams, fun block hblock => ?_⟩
  have hmem : block.instrs ∈ (b0.adds [.ret o]).blocks :=
    hblocks ▸ mem_map_of_mem hblock
  exact ⟨htyped.instrs _ hmem, htyped.filled _ hmem⟩

/-- **A lowered function is in order.** -/
theorem plain_of_lower (hf : f.WellTyped p) (hd : Decided decisions (Decision.sites f.body))
    (h : lower f decisions = .ok g) : g.Plain ∧ g.Current ∧ g.name = f.name := by
  obtain ⟨b, hrun, hblocks, -, hcurrent, hname⟩ := exists_buildBody_of_lower h
  obtain ⟨b0, o, hb0, rfl, -⟩ := amid_of_buildBody hf hd hrun
  obtain ⟨hparams, htyped⟩ := typed_of_lower hf hd h
  refine ⟨plain_of_whole (hb0.whole.finish rfl fun _ hl => absurd hl not_mem_nil) hblocks
    (fun r hr => ?_) fun c hc i hi => ?_, hcurrent, hname⟩
  · obtain ⟨ty, -, hreg⟩ := exists_of_forall₂_left hparams hr
    exact lt_length_of_getElem? hreg
  · have hi : i.WellTyped p f.ret g.registers := (htyped c hc).1 i hi
    exact ⟨fun r => hi.lt_length, hi.slot?_eq_none⟩

end Sluice.Flow
