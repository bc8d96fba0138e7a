import Sluice.Proofs.Decision.Arms
import Sluice.Proofs.Decision.Sites
import Sluice.Proofs.Lower.Emit
import Sluice.Proofs.Typing.Parts

/-!
# Lowering gives code

Building a well typed expression succeeds and gives its code, provided that the
trees of its matches are at hand and have no failures. So a well typed function
without a failing match can be lowered, and what it is lowered to is the code of
its body, followed by a return (`lower_eq_ok`).
-/

namespace Sluice

open List

namespace Typed

open Machine

variable {records : RecordTable} {locals : List Local}

mutual

/-- The locals of a well typed pattern are declared. -/
theorem Pattern.WellTyped.hasLocal : ∀ {p : Pattern} {ty}, p.WellTyped records locals ty →
    ∀ id ∈ p.binders, ∃ ty, HasLocal locals id ty
  | .wildcard _, _, _, _, h | .literal _ _, _, _, _, h => nomatch h
  | .binding _ id, ty, hp, _, h => by
    cases mem_singleton.1 h
    exact ⟨ty, hp.2⟩
  | .record _ _ fields, _, hp, id, h => by
    obtain ⟨-, -, -, r, -, hfields⟩ := hp
    exact Pattern.WellTypedFields.hasLocal hfields id h

/-- The locals of well typed field patterns are declared. -/
theorem Pattern.WellTypedFields.hasLocal : ∀ {fields r},
    Pattern.WellTypedFields records locals r fields →
    ∀ id ∈ Pattern.fieldBinders fields, ∃ ty, HasLocal locals id ty
  | [], _, _, _, h => nomatch h
  | ⟨_, _, _, p⟩ :: rest, _, hfields, id, h => by
    obtain ⟨⟨d, -, hp⟩, hrest⟩ := hfields
    rcases mem_append.1 h with h | h
    · exact Pattern.WellTyped.hasLocal hp id h
    · exact Pattern.WellTypedFields.hasLocal hrest id h

end

end Typed

namespace Flow

open Build
open Decision (Decisions Site)
open Typed (Arm Expr Info LocalId Program)

/-! ## Expressions -/

/-- All types in a list are known. -/
def Resolved (sites : List Info) : Prop := ∀ site ∈ sites, site.ty.isUnresolved = false

/-- The tree of every match in a list is at hand, and has no failures. -/
def Decided (decisions : Decisions) (sites : List Site) : Prop :=
  ∀ site ∈ sites, decisions.lookup site.id = some (Decision.compile site.arms) ∧
    (Decision.compile site.arms).firstFailure? = none

theorem Resolved.tail (h : Resolved (i :: s)) : Resolved s :=
  (forall_mem_cons.1 h).2

theorem Resolved.left (h : Resolved (s ++ t)) : Resolved s :=
  (forall_mem_append.1 h).1

theorem Resolved.right (h : Resolved (s ++ t)) : Resolved t :=
  (forall_mem_append.1 h).2

theorem Decided.left (h : Decided decisions (s ++ t)) : Decided decisions s :=
  (forall_mem_append.1 h).1

theorem Decided.right (h : Decided decisions (s ++ t)) : Decided decisions t :=
  (forall_mem_append.1 h).2

theorem Resolved.ty {e : Expr} (h : Resolved e.sites) : e.ty.isUnresolved = false :=
  h _ e.info_mem_sites

/-- The locals of the pattern of an arm. -/
def armNames (arms : List (Arm Expr)) (i : Nat) : List LocalId :=
  (arms[i]?.map (·.pattern.binders)).getD []

variable {p : Program} {f : Typed.Function} {decisions : Decisions} {scope : List LocalId}

/-- What a match knows of its arms. -/
theorem armKnown {arms : List (Arm Expr)}
    (harms : Expr.WellTypedArms p f.locals scope ty result arms)
    (hlocals : ∀ l ∈ f.locals, l.ty.isUnresolved = false) (ha : arms[i]? = some a) :
    Build.Arm.Known f (armNames arms) (arms.map (·.pattern)).length i
      (Decision.patternBindings .root a.pattern) := by
  refine ⟨?_, ?_, fun b hb => ?_⟩
  · rw [length_map]
    exact (List.getElem?_eq_some_iff.1 ha).1
  · rw [armNames, ha]
    exact a.pattern.map_id_patternBindings
  · have hid : b.id ∈ a.pattern.binders :=
      a.pattern.map_id_patternBindings ▸ mem_map_of_mem hb
    obtain ⟨_, l, hl, -⟩ := (harms.pattern (mem_of_getElem? ha)).hasLocal b.id hid
    exact ⟨l, hl, hlocals l (mem_of_getElem? hl)⟩

/-- The type of every part that the tree of a match looks at is known. -/
theorem lookup_types {arms scrutineeTy} (hty : scrutineeTy.isUnresolved = false)
    (hr : Resolved (Expr.armSites arms)) {o} (ho : o ∈ (Decision.compile arms).occurrences) :
    ∃ ty, List.lookup o ((.root, scrutineeTy) ::
      (arms.map (·.pattern)).flatMap (patternTypes .root)) = some ty ∧
        ty.isUnresolved = false := by
  rw [lookup_cons]
  split
  · exact ⟨scrutineeTy, rfl, hty⟩
  · obtain ⟨ty, hlookup⟩ : ∃ ty, List.lookup o
        ((arms.map (·.pattern)).flatMap (patternTypes .root)) = some ty := by
      rw [← Option.isSome_iff_exists, lookup_isSome_iff]
      obtain ⟨entry, hentry, rfl⟩ := mem_map.1 (mem_patternTypes_of_mem_occurrences ho)
      exact ⟨entry, hentry, by simp⟩
    refine ⟨ty, hlookup, ?_⟩
    obtain ⟨pattern, hpattern, hentry⟩ := mem_flatMap.1 (mem_of_lookup hlookup)
    obtain ⟨a, ha, rfl⟩ := mem_map.1 hpattern
    obtain ⟨info, hinfo, rfl⟩ := patternTypes_sites .root a.pattern _ hentry
    exact hr info (Expr.mem_armSites ha hinfo)

theorem GuardsBuild.cons {a rest} {guard? : Option (Build (Operand Reg))}
    {code? : Option (Code (Operand Reg))} {guards codes} (hguard : match guard?, code? with
      | none, none => True
      | some guard, some code =>
        Builds (a.pattern.binders ++ scope) guard code (a.pattern.binders ++ scope)
      | _, _ => False) (h : GuardsBuild (armNames rest) scope guards codes) :
    GuardsBuild (armNames (a :: rest)) scope (guard? :: guards) (code? :: codes)
  | 0 => hguard
  | i + 1 => h i

theorem BodiesBuild.cons (hbody : Builds (a.pattern.binders ++ scope) body code scope)
    (h : BodiesBuild (armNames rest) scope bodies codes) :
    BodiesBuild (armNames (a :: rest)) scope (body :: bodies) (code :: codes) := by
  refine ⟨congrArg Nat.succ h.1, fun i => ?_⟩
  cases i with
  | zero =>
    rintro _ _ ⟨⟩ ⟨⟩
    exact hbody
  | succ i => exact h.2 i

/-- Operators that look at both operands. -/
theorem build_binary (hand : op ≠ .and) (hor : op ≠ .or) (info : Info) (lhs rhs : Expr) :
    build f decisions (.binary info op lhs rhs) = (do
      let lhs ← build f decisions lhs
      let rhs ← build f decisions rhs
      let r ← newRegister info.ty
      emit (.binary op r lhs rhs)
      return .reg r) := by
  cases op
  case and => exact absurd rfl hand
  case or => exact absurd rfl hor
  all_goals rfl

theorem Code.ofExpr_binary (hand : op ≠ .and) (hor : op ≠ .or) (info : Info) (lhs rhs : Expr) :
    ofExpr (.binary info op lhs rhs) = (do
      let lhs ← ofExpr lhs
      let rhs ← ofExpr rhs
      let r ← temp info.ty
      emit (.binary op r lhs rhs)
      return .reg r) := by
  cases op
  case and => exact absurd rfl hand
  case or => exact absurd rfl hor
  all_goals rfl

/-- A call, given its arguments. -/
theorem builds_call (hty : ty.isUnresolved = false) (callee : Callee Reg)
    (hargs : Builds scope args code scope) :
    Builds scope (do
      let args ← args
      let r ← newRegister ty
      emit (.call r callee args)
      return Operand.reg r) (do
      let args ← code
      let r ← Code.temp ty
      Code.emit (.call r callee args)
      return Operand.reg r) scope :=
  hargs.bind fun _ => (Builds.newRegister hty).bind fun _ => (Builds.emit _).bind fun _ => .pure _

/-- An operator that need not look at its second operand. -/
theorem builds_detour (enter : Operand Reg → Label → Label → Instr Reg)
    (hlhs : Builds scope lhs lhsCode scope) (hrhs : Builds scope rhs rhsCode scope) :
    Builds scope (do
      let lhs ← lhs
      let dst ← newRegister .bool
      emit (.move dst lhs)
      let second ← newBlock
      let meeting ← newBlock
      emit (enter lhs second meeting)
      switchTo second
      join dst meeting (← rhs)
      switchTo meeting
      return Operand.reg dst) (do
      let lhs ← lhsCode
      let dst ← Code.temp .bool
      Code.emit (.move dst lhs)
      Code.detour (enter lhs) (do Code.emit (.move dst (← rhsCode)))
      return Operand.reg dst) scope := by
  refine hlhs.bind fun l => (Builds.newRegister rfl).bind fun dst =>
    (Builds.emit _).bind fun _ => ?_
  have h := (Builds.detour (enter l) (hrhs.bind fun o => .emit (.move dst o))).bind
    fun _ => Builds.pure (Operand.reg dst)
  simpa only [bind_assoc, join] using h

section

variable (hlocals : ∀ l ∈ f.locals, l.ty.isUnresolved = false)

include hlocals

set_option linter.unusedSectionVars false in
mutual

/-- **Building a well typed expression gives its code.** -/
theorem builds_expr : ∀ {e : Expr} {scope}, e.WellTyped p f.locals scope →
    Resolved e.sites → Decided decisions (Decision.sites e) →
    Builds scope (build f decisions e) (Code.ofExpr e) scope
  | .literal _ value, _, _, _, _ => .pure _
  | .var _ id, _, he, _, _ => (Builds.readLocal he.1).bind fun _ => .pure _
  | .function info name, _, _, hr, _ =>
    (Builds.newRegister hr.ty).bind fun _ => (Builds.emit _).bind fun _ => .pure _
  | .letIn info id value body, _, he, hr, hd => by
    obtain ⟨⟨l, hl, -⟩, -, hvalue, hbody⟩ := he
    refine (builds_expr hvalue hr.tail.left hd.left).bind fun _ =>
      (Builds.bindLocal hl (hlocals l (mem_of_getElem? hl))).bind fun _ =>
      (Builds.emit _).bind fun _ => (builds_expr hbody hr.tail.right hd.right).weaken ?_
    exact fun _ => mem_cons_of_mem _
  | .block info items, _, he, hr, hd =>
    builds_block he.2 hr.tail hd (.imm .unit)
  | .ifThen info c a, _, he, hr, hd => by
    obtain ⟨-, -, -, hc, ha⟩ := he
    refine (builds_expr hc hr.tail.left hd.left).bind fun o => ?_
    have ha := builds_expr ha hr.tail.right hd.right
    have h := (Builds.detour (.branch o) (ha.bind fun _ => .pure ())).bind
      fun _ => Builds.pure (Operand.imm (ρ := Reg) .unit)
    simpa only [bind_assoc, pure_bind] using h
  | .ifElse info c a b, _, he, hr, hd => by
    obtain ⟨-, -, -, hc, ha, hb⟩ := he
    have ha := builds_expr ha hr.tail.left.right hd.left.right
    have hb := builds_expr hb hr.tail.right hd.right
    refine (builds_expr hc hr.tail.left.left hd.left.left).bind fun o =>
      (Builds.newRegister hr.ty).bind fun dst => ?_
    have h := (Builds.fork o (ha.bind fun o => .emit (.move dst o))
      (hb.bind fun o => .emit (.move dst o))).bind fun _ => Builds.pure (Operand.reg dst)
    simpa only [bind_assoc, join] using h
  | .record info name fields, _, he, hr, hd => by
    obtain ⟨-, r, -, -, hfields⟩ := he
    exact (builds_fields hfields hr.tail hd).bind (.object hr.ty _)
  | .field info target _ index, _, he, hr, hd =>
    (builds_expr he.2 hr.tail hd).bind fun o => (Builds.inRegister hr.tail.ty o).bind fun _ =>
      (Builds.newRegister hr.ty).bind fun _ => (Builds.emit _).bind fun _ => .pure _
  | .callFunction info symbol args, _, he, hr, hd =>
    builds_call hr.ty (.direct symbol) (builds_list he.2 hr.tail hd)
  | .callMethod info _ _ symbol args, _, he, hr, hd =>
    builds_call hr.ty (.direct symbol) (builds_list he.2.2.2 hr.tail hd)
  | .callValue info callee args, _, he, hr, hd => by
    obtain ⟨-, hcallee, hargs⟩ := he
    exact (builds_expr hcallee hr.tail.left hd.left).bind fun o =>
      (Builds.inRegister hr.tail.left.ty o).bind fun r =>
        builds_call hr.ty (.indirect r) (builds_list hargs hr.tail.right hd.right)
  | .cases info id scrutinee arms, _, he, hr, hd => by
    obtain ⟨hscrutinee, harms⟩ := he
    obtain ⟨⟨hlookup, hfail⟩, hd⟩ := forall_mem_cons.1 hd
    obtain ⟨hguards, hbodies⟩ := builds_arms harms hr.tail.right (Decided.right hd)
    refine Builds.ofMatch hlookup ?_ (builds_expr hscrutinee hr.tail.left (Decided.left hd))
      hr.tail.left.ty hr.ty ?_ hguards hbodies
    · exact Decision.endsAt_compile (fun _ _ ha => armKnown harms hlocals ha) hfail
    · exact fun o ho => lookup_types hr.tail.left.ty hr.tail.right ho
  | .list info elems, _, he, hr, hd =>
    (builds_list he.2 hr.tail hd).bind fun values => .object hr.ty _ _
  | .binary info op lhs rhs, _, he, hr, hd => by
    obtain ⟨-, hlhs, hrhs⟩ := he
    have hlhs := builds_expr hlhs hr.tail.left hd.left
    have hrhs := builds_expr hrhs hr.tail.right hd.right
    by_cases hand : op = .and
    · subst hand
      exact builds_detour (.branch) hlhs hrhs
    by_cases hor : op = .or
    · subst hor
      exact builds_detour (fun lhs second meeting => .branch lhs meeting second) hlhs hrhs
    rw [build_binary hand hor, Code.ofExpr_binary hand hor]
    exact hlhs.bind fun _ => hrhs.bind fun _ => (Builds.newRegister hr.ty).bind fun _ =>
      (Builds.emit _).bind fun _ => .pure _
  | .unary info op operand, _, he, hr, hd =>
    (builds_expr he.2 hr.tail hd).bind fun _ => (Builds.newRegister hr.ty).bind fun _ =>
      (Builds.emit _).bind fun _ => .pure _

/-- Building expressions gives their code. -/
theorem builds_list : ∀ {es scope},
    Expr.WellTypedList p f.locals scope es → Resolved (Expr.listSites es) →
    Decided decisions (Decision.sitesList es) →
    Builds scope (buildList f decisions es) (Code.ofList es) scope
  | [], _, _, _, _ => .pure _
  | _ :: _, _, hes, hr, hd =>
    (builds_expr hes.1 hr.left hd.left).bind fun _ =>
      (builds_list hes.2 hr.right hd.right).bind fun _ => .pure _

/-- Building a block gives its code. -/
theorem builds_block : ∀ {es scope},
    Expr.WellTypedList p f.locals scope es → Resolved (Expr.listSites es) →
    Decided decisions (Decision.sitesList es) →
    ∀ last, Builds scope (buildBlock f decisions last es) (Code.ofBlock last es) scope
  | [], _, _, _, _, _ => .pure _
  | _ :: _, _, hes, hr, hd, _ =>
    (builds_expr hes.1 hr.left hd.left).bind fun o =>
      builds_block hes.2 hr.right hd.right o

/-- Building field initializers gives their code. -/
theorem builds_fields : ∀ {fields scope}
    {r}, Expr.WellTypedFields p f.locals scope r fields →
    Resolved (Expr.fieldSites fields) → Decided decisions (Decision.sitesFields fields) →
    Builds scope (buildFields f decisions fields) (Code.ofFields fields) scope
  | [], _, _, _, _, _ => .pure _
  | ⟨_, _, index, e⟩ :: rest, _, _, hfields, hr, hd => by
    obtain ⟨-, he, hrest⟩ := hfields
    exact (builds_expr he hr.left hd.left).bind fun _ =>
      (builds_fields hrest hr.right hd.right).bind fun _ => .pure _

/-- Building the guards and bodies of arms gives their code. -/
theorem builds_arms : ∀ {arms scope ty result},
    Expr.WellTypedArms p f.locals scope ty result arms → Resolved (Expr.armSites arms) →
    Decided decisions (Decision.sitesArms arms) →
    GuardsBuild (armNames arms) scope (buildGuards f decisions arms) (Code.ofGuards arms) ∧
      BodiesBuild (armNames arms) scope (buildBodies f decisions arms) (Code.ofBodies arms)
  | [], _, _, _, _, _, _ => ⟨fun _ => trivial, rfl, fun _ _ _ h => by cases h⟩
  | ⟨_, pattern, none, body⟩ :: rest, scope, ty, result, harms, hr, hd => by
    obtain ⟨-, -, hbody, hrest⟩ := harms
    obtain ⟨hguards, hbodies⟩ := builds_arms hrest hr.right hd.right
    refine ⟨GuardsBuild.cons trivial hguards, BodiesBuild.cons ?_ hbodies⟩
    exact (builds_expr hbody hr.left.right hd.left).weaken fun _ => mem_append_right _
  | ⟨_, pattern, some guard, body⟩ :: rest, _, _, _, harms, hr, hd => by
    obtain ⟨-, -, -, hguard, hbody, hrest⟩ := harms
    obtain ⟨hguards, hbodies⟩ := builds_arms hrest hr.right hd.right
    refine ⟨GuardsBuild.cons (builds_expr hguard hr.left.left.right hd.left.left) hguards,
      BodiesBuild.cons ?_ hbodies⟩
    exact (builds_expr hbody hr.left.right hd.left.right).weaken fun _ => mem_append_right _

end

end

/-! ## The trees of a function -/

/-- The matches of a well typed function are decided, if none of them fails. -/
theorem decided_decisions (hf : f.WellTyped p)
    (htotal : ∀ site ∈ Decision.sites f.body, (Decision.compile site.arms).firstFailure? = none) :
    Decided (Decision.decisions f) (Decision.sites f.body) :=
  fun site hsite => ⟨Decision.lookup_decisions hf.matches_eq hsite, htotal site hsite⟩

/-! ## Functions -/

/-- **A flow function is the code of a typed function:** its parameters are the registers of the
locals, and its entry is the code of the body and a return. -/
structure Lowered (f : Typed.Function) (g : Function Reg) (K : Layout) : Prop where
  blocks : ∀ l : Label, g.blocks[l]?.map (·.instrs) = K.blocks[l]?
  params : List.Forall₂ (fun id r => K.reg? id = some r) f.params g.params
  inj : ∀ id id' r, K.reg? id = some r → K.reg? id' = some r → id = id'
  body : ∃ p o q, K.blocks[entry]? = some p.rest ∧ Code.ofExpr f.body K p o q ∧ q.rest = [.ret o]

/-- Parameters get registers. -/
theorem run_bindLocals : ∀ {ids b}, b.Good →
    (∀ id ∈ ids, ∃ l, f.locals[id]? = some l ∧ l.ty.isUnresolved = false) →
    ∃ rs b', ids.mapM (bindLocal f) b = .ok (rs, b') ∧ b'.Good ∧ b.Extends [] b' ∧
      (∀ id ∈ ids, b'.Binds id) ∧
      ∀ K : Layout, K.Inside b' → K.Inside b ∧ (b'.spot K).rest = (b.spot K).rest ∧
        Forall₂ (fun id r => K.reg? id = some r) ids rs
  | [], b, hb, _ => ⟨[], b, rfl, hb, .refl, by simp, fun _ hK => ⟨hK, rfl, .nil⟩⟩
  | id :: rest, b, hb, hids => by
    obtain ⟨⟨l, hl, hty⟩, hids⟩ := forall_mem_cons.1 hids
    obtain ⟨r, b1, hrun1, hb1, hext1, hs1, hE⟩ := Builds.bindLocal hl hty b hb
      fun _ h => absurd h not_mem_nil
    obtain ⟨rs, b2, hrun2, hb2, hext2, hs2, hrest⟩ := run_bindLocals hb1 hids
    refine ⟨r :: rs, b2, ?_, hb2, hext1.trans hext2, ?_, fun K hK => ?_⟩
    · rw [mapM_cons, run_bind hrun1, run_bind hrun2]
      rfl
    · exact forall_mem_cons.2 ⟨hext2.binds id (hs1 id mem_cons_self), hs2⟩
    · obtain ⟨hK1, hspot1, hregs⟩ := hrest K hK
      obtain ⟨hK0, hr, -, hspot0⟩ := hE K hK1
      exact ⟨hK0, hspot1.trans hspot0, .cons hr hregs⟩

/-- A body is built in a block of its own, from the first one on. -/
theorem run_buildBody (hf : f.WellTyped p) (hd : Decided decisions (Decision.sites f.body)) :
    ∃ params b, buildBody f decisions {} = .ok (params, b) ∧ b.Good ∧
      ∀ K : Layout, K.Sealed b →
        Forall₂ (fun id r => K.reg? id = some r) f.params params ∧
        ∃ p o q, K.blocks[entry]? = some p.rest ∧ Code.ofExpr f.body K p o q ∧
          q.rest = [.ret o] := by
  have hlocals : ∀ l ∈ f.locals, l.ty.isUnresolved = false := fun l hl =>
    hf.resolved ⟨l.span, l.ty⟩ (mem_append_left _ (mem_map.2 ⟨l, hl, rfl⟩))
  have hbody : Resolved f.body.sites := fun site hsite =>
    hf.resolved site (mem_append_right _ (mem_cons_of_mem _ hsite))
  have hparams : ∀ id ∈ f.params, ∃ l, f.locals[id]? = some l ∧ l.ty.isUnresolved = false := by
    intro id hid
    have hlt : id < f.locals.length :=
      mem_range.1 (hf.locals_eq ▸ mem_append_left _ hid)
    exact ⟨_, getElem?_eq_getElem hlt, hlocals _ (getElem_mem hlt)⟩
  have hempty : ({} : Builder).addBlock.blocks[entry]? = some [] := rfl
  have hb0 : (({} : Builder).addBlock.moveTo entry).Good := by
    refine ⟨by decide, fun id r h => ?_, fun id id' r h => ?_, fun ty h => ?_⟩ <;> cases h
  obtain ⟨params, b1, hrun1, hb1, -, hs1, hcode1⟩ := run_bindLocals hb0 hparams
  obtain ⟨o, b2, hrun2, hb2, -, -, hcode2⟩ :=
    builds_expr hlocals hf.body_typed hbody hd b1 hb1 hs1
  refine ⟨params, b2.add (.ret o), ?_, hb2.add, fun K hK => ?_⟩
  · rw [buildBody, run_newBlock, run_switchTo]
    exact (run_bind hrun1).trans (run_bind hrun2)
  · obtain ⟨hK2, hret⟩ := Layout.Sealed.of_add hb2 hK
    obtain ⟨hK1, hcode⟩ := hcode2 K hK2
    obtain ⟨hK0, hspot, hregs⟩ := hcode1 K hK1
    exact ⟨hregs, _, o, _, hspot ▸ hK0.starts hempty, hcode, hret⟩

theorem instrs_withPredecessors (g : Function ρ) (l : Label) :
    g.withPredecessors.blocks[l]?.map (·.instrs) = g.blocks[l]?.map (·.instrs) := by
  simp only [Function.withPredecessors, getElem?_map, getElem?_zipIdx, Option.map_map]
  rfl

/-- **A well typed function without a failing match is lowered to its code.** -/
theorem lower_eq_ok (hf : f.WellTyped p)
    (htotal : ∀ site ∈ Decision.sites f.body, (Decision.compile site.arms).firstFailure? = none) :
    ∃ g K, lower f (Decision.decisions f) = .ok g ∧ Lowered f g K := by
  obtain ⟨params, b, hrun, hb, hcode⟩ := run_buildBody hf (decided_decisions hf htotal)
  have hfind : b.registers.find? Ty.isUnresolved = none := by
    rw [find?_eq_none]
    intro ty hty
    rw [hb.resolved ty hty]
    simp
  -- the function is the builder's own blocks, so it is covered by itself
  let K : Layout := ⟨b.registers, b.blocks, fun id => b.locals.lookup id⟩
  have hK : K.Sealed b :=
    ⟨prefix_rfl, fun _ _ h => h, fun _ _ h _ => h,
      fun _ is h => ⟨is, h, prefix_rfl, fun _ _ => rfl⟩⟩
  obtain ⟨hparams, hbody⟩ := hcode K hK
  let g : Function Reg :=
    { name := f.name, params, registers := b.registers
      blocks := b.blocks.map fun instrs => { instrs, preds := ∅ } }
  refine ⟨g.withPredecessors, K, ?_, ⟨fun l => ?_, hparams, hb.local_inj, hbody⟩⟩
  · rw [lower, hrun]
    simp only [bind, Except.bind, hfind]
    rfl
  · rw [instrs_withPredecessors]
    simp [g, K, Function.comp_def]

end Flow

end Sluice
