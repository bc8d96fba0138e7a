import Sluice.Proofs.Infer.Carry

/-!
# What equality is applied to

Whether two values can be compared is asked when the comparison is checked, and
a type that is not known by then passes. So that the operands end up with a
primitive type it takes that types are known in time: then the type of every
expression is known when it has been checked, and a known type that passes is
primitive.
-/

namespace Sluice

open List

/-! ## Equalities -/

namespace Typed

/-- The operands of an equality. -/
def Expr.equands? : Expr → Option (Expr × Expr)
  | .binary _ op lhs rhs => if op.opClass = .equality then some (lhs, rhs) else none
  | _ => none

/-- The operands of all equalities in an expression. -/
def Expr.equated (e : Expr) : List (Expr × Expr) :=
  e.parts.filterMap Expr.equands?

theorem Expr.mem_equated {e lhs rhs : Expr} : (lhs, rhs) ∈ e.equated ↔
    ∃ info op, op.opClass = .equality ∧ .binary info op lhs rhs ∈ e.parts := by
  rw [equated, mem_filterMap]
  constructor
  · rintro ⟨x, hx, heq⟩
    cases x with
    | binary info op lhs' rhs' =>
      rw [equands?] at heq
      split at heq
      · rename_i hop
        cases heq
        exact ⟨info, op, hop, hx⟩
      · cases heq
    | _ => cases heq
  · rintro ⟨info, op, hop, hx⟩
    exact ⟨_, hx, if_pos hop⟩

end Typed

/-! ## Known types -/

/-- A type of which the outermost form is known, and if it is a function's, what a call gives. -/
def Ty.Known : Ty → Prop
  | .prim _ | .list _ | .record _ => True
  | .fn _ ret => ret.Known
  | .var _ | .error => False

/-- What is written down is known. -/
theorem Source.TypeExpr.Allows.known : ∀ {a : TypeExpr} {ty}, a.Allows records ty → ty.Known
  | .named _ name, ty, h => by
    rw [Allows] at h
    split at h
    · obtain ⟨_, rfl⟩ := h
      exact trivial
    · split at h
      · rw [h]
        exact trivial
      · rw [h.2]
        exact trivial
  | .list _ _, _, ⟨_, rfl, _⟩ => trivial
  | .bareList _, _, ⟨_, rfl⟩ => trivial
  | .fn _ _ _, _, ⟨_, _, rfl, _, hret⟩ => hret.known

theorem Source.TypeExpr.AllowsList.known :
    ∀ {as} {tys}, AllowsList records as tys → ∀ ty ∈ tys, ty.Known
  | [], _, h => by
    rw [AllowsList] at h
    exact h ▸ forall_mem_nil _
  | _ :: _, _, ⟨_, _, rfl, ha, hrest⟩ => forall_mem_cons.2 ⟨ha.known, hrest.known⟩

namespace Source

mutual

/-- An expression that mentions known names only, and in which every match has an arm. -/
def Expr.Draws (known : String → Prop) : Expr → Prop
  | .literal _ _ => True
  | .ident _ name => known name.name
  | .letIn _ _ _ value body => value.Draws known ∧ body.Draws known
  | .block _ items | .list _ items => Expr.DrawsList known items
  | .ifThen _ c a => c.Draws known ∧ a.Draws known
  | .ifElse _ c a b => c.Draws known ∧ a.Draws known ∧ b.Draws known
  | .record _ _ fields => Expr.DrawsFields known fields
  | .field _ target _ => target.Draws known
  | .call _ target args => target.Draws known ∧ Expr.DrawsList known args
  | .methodCall _ receiver method args =>
    known method.name ∧ receiver.Draws known ∧ Expr.DrawsList known args
  | .cases _ scrutinee arms => arms ≠ [] ∧ scrutinee.Draws known ∧ Expr.DrawsArms known arms
  | .binary _ _ lhs rhs => lhs.Draws known ∧ rhs.Draws known
  | .unary _ _ operand => operand.Draws known

def Expr.DrawsList (known : String → Prop) : List Expr → Prop
  | [] => True
  | e :: rest => e.Draws known ∧ Expr.DrawsList known rest

def Expr.DrawsFields (known : String → Prop) : List (Named Expr) → Prop
  | [] => True
  | ⟨_, _, e⟩ :: rest => e.Draws known ∧ Expr.DrawsFields known rest

def Expr.DrawsArms (known : String → Prop) : List (Arm Expr) → Prop
  | [] => True
  | ⟨_, _, none, body⟩ :: rest => body.Draws known ∧ Expr.DrawsArms known rest
  | ⟨_, _, some guard, body⟩ :: rest =>
    guard.Draws known ∧ body.Draws known ∧ Expr.DrawsArms known rest

end

theorem Expr.DrawsList.mem : ∀ {es}, DrawsList known es → ∀ e ∈ es, e.Draws known
  | [], _ => nofun
  | _ :: _, h => forall_mem_cons.2 ⟨h.1, mem h.2⟩

theorem Expr.DrawsFields.mem :
    ∀ {fields}, DrawsFields known fields → ∀ e ∈ fields.map (·.value), e.Draws known
  | [], _ => nofun
  | _ :: _, h => forall_mem_cons.2 ⟨h.1, mem h.2⟩

theorem Expr.DrawsArms.mem :
    ∀ {arms}, DrawsArms known arms → ∀ e ∈ armChildren arms, e.Draws known
  | [], _ => nofun
  | ⟨_, _, none, _⟩ :: _, h => forall_mem_cons.2 ⟨h.1, mem h.2⟩
  | ⟨_, _, some _, _⟩ :: _, h =>
    forall_mem_cons.2 ⟨h.1, forall_mem_cons.2 ⟨h.2.1, mem h.2.2⟩⟩

theorem Expr.Draws.child {e : Expr} (h : e.Draws known) : ∀ x ∈ e.children, x.Draws known := by
  cases e with
  | literal | ident => exact nofun
  | letIn | ifThen | binary => exact forall_mem_cons.2 ⟨h.1, forall_mem_singleton.2 h.2⟩
  | ifElse =>
    exact forall_mem_cons.2 ⟨h.1, forall_mem_cons.2 ⟨h.2.1, forall_mem_singleton.2 h.2.2⟩⟩
  | field | unary => exact forall_mem_singleton.2 h
  | block | list => exact DrawsList.mem h
  | record => exact DrawsFields.mem h
  | call => exact forall_mem_cons.2 ⟨h.1, DrawsList.mem h.2⟩
  | methodCall => exact forall_mem_cons.2 ⟨h.2.1, DrawsList.mem h.2.2⟩
  | cases => exact forall_mem_cons.2 ⟨h.2.1, DrawsArms.mem h.2.2⟩

/-- **Definitions in order:** one that leaves its result type to inference is used by later ones
only, and every match has an arm. -/
def InOrder : List Definition → Prop
  | [] => True
  | d :: rest =>
    d.body.Draws (fun name => ∀ e ∈ d :: rest, e.ret = none → e.name.name ≠ name) ∧ InOrder rest

end Source

namespace Infer

open Typed (Function Local)
open Unify (Table)
open Unify.Table (Solves)

variable {g : Globals} {t t' : Table} {s s' : State} {scope : Scope} {ty : Ty}
  {known : String → Prop} {source : Source.Program} {op : BinaryOp} {q : Pending}

/-! ## Types known to a table -/

/-- A type is known whatever becomes of the variables that are still open. -/
def Knows (t : Table) (ty : Ty) : Prop :=
  ∀ θ, Solves θ t → (ty.subst θ).Known

theorem Knows.mono (h : Knows t ty) (ht : t.Refines t') : Knows t' ty :=
  fun θ hθ => h θ (ht.solves θ hθ)

theorem Knows.of_eq (h : Knows t a) (heq : ∀ θ, Solves θ t → b.subst θ = a.subst θ) :
    Knows t b := by
  intro θ hθ
  rw [heq θ hθ]
  exact h θ hθ

theorem knows_prim (p : Prim) : Knows t (.prim p) := fun _ _ => trivial

/-- A free variable is not known: the table itself leaves it open. -/
theorem not_knows_of_isFree (ht : t.Sound) (hv : t.IsFree v) : ¬ Knows t (.var v) := by
  intro h
  have hknown := h _ ht.solves_resolve
  have hread := ht.resolve_var v
  rw [hv.unbound] at hread
  rw [show (Ty.var v).subst (t.resolveVar t.size) = .var (t.root v) from hread] at hknown
  exact hknown

/-- The outermost form of a known type is at hand. -/
theorem Knows.shallow (ht : t.Sound) (hty : ty.Sound t.size) (h : Knows t ty) :
    Knows t (t.shallow ty) ∧ ∀ v, t.shallow ty ≠ .var v := by
  obtain ⟨-, heq, hfree⟩ := Unify.shallow_spec ht hty
  have hknows := h.of_eq heq
  refine ⟨hknows, fun v hv => ?_⟩
  rw [hv] at hknows
  exact not_knows_of_isFree ht (hfree v hv) hknows

/-- A known type that may be compared is primitive. -/
theorem Knows.prim_of_comparable (ht : t.Sound) (hty : ty.Sound t.size) (h : Knows t ty)
    (hc : comparable (t.shallow ty) = true) : ∃ q, ∀ θ, Solves θ t → ty.subst θ = .prim q := by
  obtain ⟨hsound, heq, -⟩ := Unify.shallow_spec ht hty
  obtain ⟨-, hvar⟩ := h.shallow ht hty
  cases hshallow : t.shallow ty with
  | prim q => exact ⟨q, fun θ hθ => by rw [← heq θ hθ, hshallow]; rfl⟩
  | var v =>
    -- the test lets a variable pass, but what is known is no variable
    exact absurd hshallow (hvar v)
  | error =>
    rw [hshallow] at hsound
    exact absurd hsound.no_error (by decide)
  | list | record | fn =>
    rw [hshallow] at hc
    cases hc

/-- What a call of something known gives is known. -/
theorem CallStep.knows (hs : s.Sound)
    (hcallee : callee.Sound s.table.size) (h : Knows s.table callee)
    (hcall : CallStep s callee args ty s') : Knows s'.table ty := by
  obtain ⟨hknows, hvar⟩ := h.shallow hs.table_sound hcallee
  cases hcall with
  | unknown hv _ => exact absurd hv (hvar _)
  | known hfn _ hparams =>
    rw [hfn] at hknows
    have hret : Knows s.table ty := fun θ hθ => hknows θ hθ
    exact hret.mono hparams.grows.refines

/-! ## Checked expressions are known -/

/-- What is known about what a body can refer to: the types of fields, and those of functions and
methods with a known name. -/
structure Informed (g : Globals) (known : String → Prop) (t : Table) : Prop where
  field_known : ∀ name r, g.records.get? name = some r → ∀ d ∈ r.fields, Knows t d.ty
  function_known : ∀ name sig, known name → g.function? name = some sig → Knows t sig.ty
  method_known : ∀ owner r m, known m.name → g.records.get? owner = some r → m ∈ r.methods →
    Knows t m.ty

theorem Informed.mono (h : Informed g known t) (ht : t.Refines t') : Informed g known t' :=
  ⟨fun name r hr d hd => (h.field_known name r hr d hd).mono ht,
    fun name sig hname hsig => (h.function_known name sig hname hsig).mono ht,
    fun owner r m hname hr hm => (h.method_known owner r m hname hr hm).mono ht⟩

/-- An equality whose left operand has a primitive type under every solution. -/
def ComparesIn (t : Table) : Typed.Expr → Prop
  | .binary _ op lhs _ =>
    op.opClass = .equality → ∀ θ, Solves θ t → ∃ q, lhs.ty.subst θ = .prim q
  | _ => True

theorem ComparesIn.mono (h : ComparesIn t e) (ht : t.Refines t') : ComparesIn t' e := by
  cases e with
  | binary info op lhs rhs => exact fun hop θ hθ => h hop θ (ht.solves θ hθ)
  | _ => exact h

/-- Operands that passed the check of an equality and were known have a primitive type. -/
theorem BinaryStep.prim (h : BinaryStep s op lhs rhs ty s') (hop : op.opClass = .equality)
    (hl : Knows s.table lhs) : ∀ θ, Solves θ s'.table → ∃ q, lhs.subst θ = .prim q := by
  cases h with
  | known hop' _ _ =>
    rw [hop] at hop'
    cases hop'
  | equality _ hu hc =>
    obtain ⟨q, hq⟩ := (hl.mono hu.grows.refines).prim_of_comparable hu.grows.sound.table_sound
      (hu.grows.mono hu.left_sound) hc
    exact fun θ hθ => ⟨q, hq θ hθ⟩

/-- **Where names are known, checks carry along that types are known.** A match is known by its
first arm. -/
def knowing (g : Globals) (known : String → Prop) : Carrying g where
  draws e := e.Draws known
  table := Informed g known
  type := Knows
  meets _ := True
  expr := ComparesIn
  draws_child h := h.child
  draws_cases h harm := absurd harm h.1
  type_mono := Knows.mono
  type_prim := knows_prim _
  type_list _ _ := trivial
  type_record _ _ _ := trivial
  type_field h hr hd := h.field_known _ _ hr _ hd
  type_function h hname hsig := h.function_known _ _ hname hsig
  type_method h hdraws hr hm := by
    -- a method is called by the name it was declared under
    have hname := find?_some hm
    simp only [beq_iff_eq] at hname
    exact h.method_known _ _ _ (hname ▸ hdraws.1) hr (mem_of_find?_eq_some hm)
  meets_var := trivial
  meets_type _ := trivial
  fresh ht h := h.mono (Table.refines_newVariable ht)
  annotated ht h hx :=
    have ha := annotated_annotates _ ht hx
    ⟨h.mono ha.refines, fun θ _ => (ha.allowed θ).known⟩
  unify hu h _ hb :=
    ⟨h.mono hu.grows.refines, (hb.mono hu.grows.refines).of_eq fun _ hθ => hu.agree hθ⟩
  call h hs hcallee hg hknows _ := ⟨hg.mono (h.grows hs).refines, h.knows hs hcallee hknows⟩
  expr_mono := ComparesIn.mono
  expr_field := trivial
  expr_binary h hl hop := h.prim hop hl
  expr_other {_ _ _ e _} _ hne := by
    cases e with
    | binary info op lhs rhs => exact absurd rfl (hne info op lhs rhs)
    | _ => exact trivial

/-! ## Programs -/

/-- What the declarations of a program tell about the types of its bodies: whatever can be called
is one of them, and what is written down is known. -/
structure Announced (g : Globals) (pending : List Pending) : Prop where
  field_known : ∀ name r, g.records.get? name = some r → ∀ d ∈ r.fields, ∀ t, Knows t d.ty
  function_pending : ∀ name sig, g.function? name = some sig →
    ∃ q ∈ pending, q.definition.name.name = name ∧ q.signature.ty = sig.ty
  method_pending : ∀ owner r m, g.records.get? owner = some r → m ∈ r.methods →
    ∃ q ∈ pending, q.definition.name.name = m.name ∧ q.signature.ty = m.ty
  params_known : ∀ q ∈ pending, ∀ x ∈ q.params, ∀ t, Knows t x.2
  ret_known : ∀ q ∈ pending, q.definition.ret ≠ none → ∀ t, Knows t q.signature.ty

theorem Pending.Follows.params_known {records kind definition}
    (h : q.Follows records kind definition) : ∀ x ∈ q.params, ∀ t, Knows t x.2 := by
  intro x hx t θ _
  have hmem : x.2 ∈ q.signature.params := h.params_eq'.1 ▸ mem_map_of_mem hx
  obtain ⟨tys, hsig, hallows⟩ := h.params_eq
  rw [hsig, mem_append] at hmem
  rcases hmem with hmem | hmem
  · cases kind with
    | free => exact nomatch hmem
    | method owner method =>
      rw [mem_singleton.1 hmem]
      exact trivial
  · refine (hallows θ).known _ ?_
    rw [Ty.substList_eq_map]
    exact mem_map_of_mem hmem

theorem Pending.Follows.ret_known {records kind definition} (h : q.Follows records kind definition)
    (hret : q.definition.ret ≠ none) (t : Table) : Knows t q.signature.ty := by
  intro θ _
  rw [h.definition_eq] at hret
  obtain ⟨a, ha⟩ := Option.ne_none_iff_exists'.1 hret
  exact (h.ret_allowed a ha θ).known

/-- A method is known by the name of its definition. -/
theorem name_of_mem_definitions
    (h : (Typed.Kind.method owner method, d) ∈ source.definitions) : d.name.name = method := by
  obtain ⟨item, -, hitem⟩ := mem_flatMap.1 h
  cases item with
  | record => exact nomatch hitem
  | function => cases mem_singleton.1 hitem
  | methods span name defs =>
    obtain ⟨d', -, heq⟩ := mem_map.1 hitem
    cases heq
    rfl

theorem CheckedAll.announced (h : CheckedAll source p t functions) :
    Announced (declare source).globals (declare source).pending where
  field_known name r hr d hd t θ _ := by
    obtain ⟨rs, hentries, -, hfollows⟩ := declare_entries h.declared.no_errors
    obtain ⟨r0, hr0, hfields, -⟩ := hentries.exists_of_get? hr
    obtain ⟨item, -, hitem⟩ := exists_of_forall₂_right hfollows hr0
    obtain ⟨x, -, hx⟩ := exists_of_forall₂_right hitem.fields (hfields ▸ hd)
    exact (hx.allowed θ).known
  function_pending name sig hsig := by
    obtain ⟨q, hq, hkind, hsymbol, hqsig⟩ := h.declared.function_queued name sig hsig
    obtain ⟨kd, -, hfollow⟩ := exists_of_forall₂_right h.definitions hq
    refine ⟨q, hq, ?_, by rw [hqsig]⟩
    rw [← hsymbol, hfollow.symbol_eq, ← hfollow.kind_eq, hkind, hfollow.definition_eq]
    rfl
  method_pending owner r m hr hm := by
    obtain ⟨params, ret, hty, -, q, hq, hkind, -, hqsig⟩ := h.declared.method_queued owner r m hr hm
    obtain ⟨⟨kind, d⟩, hkd, hfollow⟩ := exists_of_forall₂_right h.definitions hq
    refine ⟨q, hq, ?_, by rw [hqsig, hty]; rfl⟩
    rw [show kind = .method owner m.name from hfollow.kind_eq.symm.trans hkind] at hkd
    rw [hfollow.definition_eq]
    exact name_of_mem_definitions hkd
  params_known q hq := by
    obtain ⟨kd, -, hfollow⟩ := exists_of_forall₂_right h.definitions hq
    exact hfollow.params_known
  ret_known q hq := by
    obtain ⟨kd, -, hfollow⟩ := exists_of_forall₂_right h.definitions hq
    exact hfollow.ret_known

theorem CheckedAll.map_definition (h : CheckedAll source p t functions) :
    (declare source).pending.map (·.definition) = source.definitions.map (·.2) := by
  rw [← forall₂_eq_eq_eq, forall₂_map_left_iff, forall₂_map_right_iff]
  exact h.definitions.flip.imp fun _ _ hfollow => hfollow.definition_eq

/-- What is known while bodies are checked: the types of all that is not still to come. -/
def Told (all : List Pending) (t : Table) (rest : List Pending) : Prop :=
  ∀ q ∈ all, (q ∈ rest → q.definition.ret ≠ none) → Knows t q.signature.ty

theorem Told.informed {all rest} (hall : Announced g all) (h : Told all t rest) :
    Informed g (fun name => ∀ q ∈ rest, q.definition.ret = none → q.definition.name.name ≠ name)
      t where
  field_known name r hr d hd := hall.field_known name r hr d hd t
  function_known name sig hname hsig := by
    obtain ⟨q, hq, hqname, hqsig⟩ := hall.function_pending name sig hsig
    exact hqsig ▸ h q hq fun hrest hret => hname q hrest hret hqname
  method_known owner r m hname hr hm := by
    obtain ⟨q, hq, hqname, hqsig⟩ := hall.method_pending owner r m hr hm
    exact hqsig ▸ h q hq fun hrest hret => hname q hrest hret hqname

/-- **Bodies in order compare primitives only.** Each body that has been checked adds its result
to what is known. -/
theorem BodiesRun.compares {all rest fs} (hall : Announced g all) (h : BodiesRun g t rest fs t')
    (ht : t.Sound) (hrest : rest ⊆ all) (horder : Source.InOrder (rest.map (·.definition)))
    (htold : Told all t rest) : ∀ f ∈ fs, ∀ e ∈ f.body.parts, ComparesIn t' e := by
  induction h with
  | nil => exact nofun
  | @cons t t' q rest f fs s hstep hrun ih =>
    obtain ⟨hbody, horder⟩ := horder
    have hq := hrest mem_cons_self
    have hbody' : q.definition.body.Draws
        (fun name => ∀ q' ∈ q :: rest, q'.definition.ret = none →
          q'.definition.name.name ≠ name) := by
      simpa using hbody
    obtain ⟨-, -, hknows, hcompares⟩ := Carrying.body (c := knowing g _) hstep hbody'
      ((htold.informed hall).mono (Refines.snapshot ht))
      (fun x hx => hall.params_known q hq x hx _) trivial
    have href := hstep.refines_commit ht
    have hcommit := Refines.commit hstep.refines.sound
    have htold' : Told all s.table.commit rest := by
      intro q' hq' hret
      by_cases hnew : q' ∈ q :: rest → q'.definition.ret ≠ none
      · exact (htold q' hq' hnew).mono href
      · -- what was not known before and is now is the result of this very body
        obtain ⟨hmem, hopen⟩ := Classical.not_imp.1 hnew
        rcases mem_cons.1 hmem with rfl | hmem
        · exact Knows.mono (fun θ hθ => hknows θ hθ) hcommit
        · exact absurd (hret hmem) hopen
    have hfs := ih href.sound (fun q' hq' => hrest (mem_cons_of_mem _ hq')) horder htold'
    exact forall_mem_cons.2
      ⟨fun e he => (hcompares e he).mono (hcommit.trans (hrun.refines href.sound)), hfs⟩

/-- **What equality is applied to.** In every program that passes, the two operands of an equality
have one and the same type, and it is known. If a definition without a result type is used by
later ones only, and no match is without arms, that type is primitive. -/
theorem infer_equated {source : Source.Program} {p : Typed.Program} (h : infer source = .ok p) :
    ∀ f ∈ p.functions, ∀ ab ∈ f.body.equated, ab.1.ty = ab.2.ty ∧
      ab.1.ty.isUnresolved = false ∧
      (Source.InOrder (source.definitions.map (·.2)) → ∃ q, ab.1.ty = .prim q) := by
  obtain ⟨herrors, rfl⟩ := infer_eq_ok.1 h
  have hnone := List.isEmpty_iff.1 herrors
  obtain ⟨-, hall⟩ := checkedAll_checkBodies hnone
  rintro f hf ⟨lhs, rhs⟩ hab
  obtain ⟨info, op, hop, hpart⟩ := Typed.Expr.mem_equated.1 hab
  have hwt := hall.wellTyped f hf
  obtain ⟨S, hrule⟩ := hwt.body_typed.parts hpart
  have hrule := hrule.1
  rw [Typed.BinaryRule, hop] at hrule
  refine ⟨hrule.1, ?_, fun horder => ?_⟩
  · have hsite : lhs.info ∈ f.body.sites :=
      Typed.Expr.sites_subset_of_mem_parts hpart
        (mem_cons_of_mem _ (mem_append_left _ lhs.info_mem_sites))
    exact hwt.resolved lhs.info (mem_append_right _ (mem_cons_of_mem _ hsite))
  · rw [hall.functions_eq] at hf
    obtain ⟨f0, hf0, rfl⟩ := mem_map.1 hf
    rw [← hall.map_definition] at horder
    have hcompares := (bodiesRun_of_check hnone).compares hall.announced hall.declared.table_sound
      (Subset.refl _) horder (fun q hq hret => hall.announced.ret_known q hq (hret hq) _) f0 hf0
    change _ ∈ (f0.body.mapTy _).parts at hpart
    rw [Typed.Expr.parts_mapTy] at hpart
    obtain ⟨x, hx, heq⟩ := mem_map.1 hpart
    cases x with
    | binary info0 op0 lhs0 rhs0 =>
      cases heq
      obtain ⟨q, hq⟩ := hcompares _ hx hop _ hall.table_sound.solves_resolve
      refine ⟨q, ?_⟩
      rw [Typed.Expr.ty_mapTy]
      exact hq
    | _ => cases heq

/-- A record, a function that makes one, and a function after it that compares fields of two. -/
def sameSource : Source.Program :=
  let at0 : Span := ⟨0, 0⟩
  let id (name : String) : Source.Ident := ⟨name, at0⟩
  let make : Source.Expr := .call at0 (.ident at0 (id "make")) []
  [.record at0 (id "R") [⟨at0, id "x", .named at0 (id "int")⟩],
   .function at0 ⟨at0, id "make", [], none,
     .record at0 (id "R") [⟨at0, id "x", .literal at0 (.int 1)⟩]⟩,
   .function at0 ⟨at0, id "same", [], none,
     .binary at0 .eq (.field at0 make (id "x")) (.field at0 make (id "x"))⟩]

theorem infer_equated_sameSource : infer sameSource = .ok (check sameSource).program ∧
    Source.InOrder (sameSource.definitions.map (·.2)) ∧
    ∃ f ∈ (check sameSource).program.functions, ∃ ab ∈ f.body.equated,
      ab.1.ty = ab.2.ty ∧ ∃ q, ab.1.ty = .prim q := by
  have hok : infer sameSource = .ok (check sameSource).program :=
    infer_eq_ok.2 ⟨by decide +kernel, rfl⟩
  have horder : Source.InOrder (sameSource.definitions.map (·.2)) := by
    simp [sameSource, Source.Program.definitions, Source.Item.definitions, Source.InOrder,
      Source.Expr.Draws, Source.Expr.DrawsFields, Source.Expr.DrawsList]
  have hequated : ((check sameSource).program.functions.flatMap fun f =>
      f.body.equated) ≠ [] := by decide +kernel
  obtain ⟨ab, hab⟩ := exists_mem_of_ne_nil _ hequated
  obtain ⟨f, hf, hab⟩ := mem_flatMap.1 hab
  obtain ⟨hsame, -, hprim⟩ := infer_equated hok f hf ab hab
  exact ⟨hok, horder, f, hf, ab, hab, hsame, hprim horder⟩

/-- A function that compares two records it gets from another, which comes after it. -/
def recordsSource : Source.Program :=
  let at0 : Span := ⟨0, 0⟩
  let id (name : String) : Source.Ident := ⟨name, at0⟩
  let make : Source.Expr := .call at0 (.ident at0 (id "make")) []
  [.record at0 (id "R") [],
   .function at0 ⟨at0, id "same", [], none, .binary at0 .eq make make⟩,
   .function at0 ⟨at0, id "make", [], none, .record at0 (id "R") []⟩]

/-- **Records can be compared** by a function that does not know yet that they are records. -/
theorem infer_recordsSource : infer recordsSource = .ok (check recordsSource).program ∧
    ∃ f ∈ (check recordsSource).program.functions, ∃ ab ∈ f.body.equated,
      ab.1.ty = .record "R" ∧ ab.2.ty = .record "R" :=
  ⟨infer_eq_ok.2 ⟨by decide +kernel, rfl⟩, by decide +kernel⟩

end Infer

end Sluice
