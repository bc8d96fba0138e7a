import Sluice.Proofs.Infer.Bodies

/-!
# Checks side by side

Two checks of bodies that run side by side, in states whose tables are linked
and whose locals are alike. What the first one does to its state, the second
one can do to its own with types that are alike, and the states stay side by
side.
-/

namespace Sluice.Infer

open List
open Typed (Local LocalId)
open Unify (Link Linked Table)
open Unify.Table (Solves)

variable {g : Globals} {scope : Scope} {θ ψ φ : TyVar → Ty} {n : Nat} {R R1 R2 : Link}
  {s s' s1 s1' s2 s2' : State} {t t' : Table} {a a' b b' ty ty' : Ty}

/-- The same local in both checks. -/
structure LocalAlike (R : Link) (l l' : Local) : Prop where
  span_eq : l'.span = l.span
  name_eq : l'.name = l.name
  ty_alike : R.Alike l.ty l'.ty

/-- **Two states side by side.** -/
structure Sim (θ : TyVar → Ty) (n : Nat) (R : Link) (s s' : State) : Prop where
  left_sound : s.Sound
  right_sound : s'.Sound
  linked : Linked θ n R s.table s'.table
  locals_alike : List.Forall₂ (LocalAlike R) s.locals s'.locals
  matchCount_eq : s'.matchCount = s.matchCount

/-- Both checks went on, from one pair of states to another. -/
structure Follows (θ : TyVar → Ty) (n : Nat) (R R1 : Link) (s s' s1 s1' : State) : Prop where
  sim : Sim θ n R1 s1 s1'
  narrows : R1.Narrows R
  left_grows : Grows s s1
  right_grows : Grows s' s1'

/-- A type of the first check and one of the second that are alike. -/
structure Tied (R : Link) (s s' : State) (a a' : Ty) : Prop where
  alike : R.Alike a a'
  left_sound : a.Sound s.table.size
  right_sound : a'.Sound s'.table.size

theorem LocalAlike.narrow (h : LocalAlike R l l') (hR : R1.Narrows R) : LocalAlike R1 l l' :=
  ⟨h.span_eq, h.name_eq, h.ty_alike.narrow hR⟩

theorem Tied.follow (h : Tied R s s' a a') (hf : Follows θ n R R1 s s' s1 s1') :
    Tied R1 s1 s1' a a' :=
  ⟨h.alike.narrow hf.narrows, hf.left_grows.mono h.left_sound, hf.right_grows.mono h.right_sound⟩

theorem tied_prim (R : Link) (s s' : State) (p : Prim) : Tied R s s' (.prim p) (.prim p) :=
  ⟨R.alike_prim p, .of_prim p, .of_prim p⟩

theorem forall₂_tied (halike : Forall₂ R.Alike as as') (has : ∀ a ∈ as, a.Sound s.table.size)
    (has' : ∀ a ∈ as', a.Sound s'.table.size) : Forall₂ (Tied R s s') as as' := by
  induction halike with
  | nil => exact .nil
  | cons h _ ih =>
    obtain ⟨ha, has⟩ := forall_mem_cons.1 has
    obtain ⟨ha', has'⟩ := forall_mem_cons.1 has'
    exact .cons ⟨h, ha, ha'⟩ (ih has has')

namespace Follows

theorem refl (h : Sim θ n R s s') : Follows θ n R R s s' s s' :=
  ⟨h, .refl R, .refl h.left_sound, .refl h.right_sound⟩

theorem trans (h : Follows θ n R R1 s s' s1 s1') (h' : Follows θ n R1 R2 s1 s1' s2 s2') :
    Follows θ n R R2 s s' s2 s2' :=
  ⟨h'.sim, h'.narrows.trans h.narrows, h.left_grows.trans h'.left_grows,
    h.right_grows.trans h'.right_grows⟩

end Follows

namespace Sim

variable (h : Sim θ n R s s')
include h

theorem length_eq : s'.locals.length = s.locals.length :=
  h.locals_alike.length_eq.symm

theorem getElem? {id : LocalId} (hl : s.locals[id]? = some l) :
    ∃ l', s'.locals[id]? = some l' ∧ LocalAlike R l l' := by
  obtain ⟨hid, rfl⟩ := List.getElem?_eq_some_iff.1 hl
  have hid' : id < s'.locals.length := by rwa [h.length_eq]
  exact ⟨_, getElem?_eq_getElem hid', h.locals_alike.get hid hid'⟩

/-- Names in scope stand for the same locals. -/
theorem inScope (hscope : InScope scope s) : InScope scope s' := by
  intro name id hid
  obtain ⟨l, hl, hname⟩ := hscope name id hid
  obtain ⟨l', hl', halike⟩ := h.getElem? hl
  exact ⟨l', hl', halike.name_eq.trans hname⟩

/-- Both tables change. -/
theorem withTable (hlinked : Linked θ n R1 t t') (hR : R1.Narrows R) (ht : s.table.Refines t)
    (ht' : s'.table.Refines t') : Follows θ n R R1 s s' (s.withTable t) (s'.withTable t') where
  sim :=
    { left_sound := (Grows.of_refines h.left_sound ht).sound
      right_sound := (Grows.of_refines h.right_sound ht').sound
      linked := hlinked
      locals_alike := h.locals_alike.imp fun _ _ hl => hl.narrow hR
      matchCount_eq := h.matchCount_eq }
  narrows := hR
  left_grows := .of_refines h.left_sound ht
  right_grows := .of_refines h.right_sound ht'

theorem declare (name : Source.Ident) (hty : Tied R s s' ty ty') :
    Follows θ n R R s s' (s.declare name ty) (s'.declare name ty') := by
  have hgrows := h.left_sound.declare name hty.left_sound
  have hgrows' := h.right_sound.declare name hty.right_sound
  refine ⟨⟨hgrows.sound, hgrows'.sound, h.linked, ?_, h.matchCount_eq⟩, .refl R, hgrows, hgrows'⟩
  exact rel_append h.locals_alike (.cons ⟨rfl, rfl, hty.alike⟩ .nil)

theorem nextMatch : Follows θ n R R s s' s.nextMatch s'.nextMatch where
  sim := ⟨h.left_sound.nextMatch.sound, h.right_sound.nextMatch.sound, h.linked, h.locals_alike,
    congrArg (· + 1) h.matchCount_eq⟩
  narrows := .refl R
  left_grows := h.left_sound.nextMatch
  right_grows := h.right_sound.nextMatch

/-- What mentions fixed variables only is tied to what `θ` says it is. -/
theorem tied_fixed (hθ : ∀ v, (θ v).Sound 0) (hty : ty.Sound n) : Tied R s s' ty (ty.subst θ) :=
  ⟨h.linked.alike_fixed hθ hty, hty.mono h.linked.size_le,
    (hty.subst_closed hθ).mono (Nat.zero_le _)⟩

theorem fresh : ∃ R1, Follows θ n R R1 s s' s.fresh s'.fresh ∧
    Tied R1 s.fresh s'.fresh (.var s.table.size) (.var s'.table.size) := by
  obtain ⟨R1, hlinked, hR, halike⟩ := h.linked.newVariable
  exact ⟨R1, h.withTable hlinked hR h.left_sound.fresh.refines h.right_sound.fresh.refines,
    halike, s.sound_fresh, s'.sound_fresh⟩

/-- Only the first check has a new variable, which stands for a type of the second. -/
theorem fresh_left (hty : ty'.Sound s'.table.size)
    (hlifts : ∃ φ, R θ φ ∧ θ s.table.size = ty'.subst φ) :
    ∃ R1, Follows θ n R R1 s s' s.fresh s' ∧ R1.Alike (.var s.table.size) ty' := by
  have hsize : s.fresh.table.size = s.table.size + 1 := Table.size_newVariable s.table
  obtain ⟨φ, hφ, hθ⟩ := hlifts
  have hlinked := h.linked.extend h.left_sound.fresh.refines
    (fun ψ hψ => hψ.newVariable h.left_sound.table_sound) (fun _ => ty') (fun _ _ _ => hty)
    ⟨φ, hφ, fun v hv hlt => by rw [show v = s.table.size by omega, hθ]⟩
  refine ⟨_, h.withTable hlinked (fun _ _ hR => hR.1) h.left_sound.fresh.refines
    (.refl h.right_sound.table_sound), fun ψ φ hR => ?_⟩
  exact hR.2 s.table.size Nat.le.refl (by omega)

/-! ## Types made to agree -/

theorem unifies (hu : Unifies s a b s1) (hθ : Solves θ s1.table) (ha : Tied R s s' a a')
    (hb : Tied R s s' b b') : ∃ s1' R1, Unifies s' a' b' s1' ∧ Follows θ n R R1 s s' s1 s1' := by
  obtain ⟨t', R1, hrun, hlinked, hR⟩ := h.linked.unify ha.left_sound hb.left_sound ha.right_sound
    hb.right_sound ha.alike hb.alike hu.run hθ
  have hu' : Unifies s' a' b' (s'.withTable t') :=
    ⟨h.right_sound, ha.right_sound, hb.right_sound, hrun, rfl⟩
  refine ⟨s'.withTable t', R1, hu', ?_⟩
  rw [hu.state_eq]
  exact h.withTable hlinked hR hu.grows.refines hu'.grows.refines

/-- Only the second check makes a type agree with what an expression turned out to have. -/
theorem unifies_right (ha : a'.Sound s'.table.size)
    (hb : Tied R s s' b b') (hmeet : ∀ φ, a'.subst φ = b.subst θ) : ∃ s1' R1,
      Unifies s' a' b' s1' ∧ Follows θ n R R1 s s' s s1' ∧ Tied R1 s s1' b a' := by
  obtain ⟨φ, hφ⟩ := h.linked.lifts
  have hφ' := h.linked.right_solves hφ
  have hsame : a'.subst φ = b'.subst φ := (hmeet φ).trans (hb.alike hφ)
  obtain ⟨t', hrun⟩ := Unify.unify_eq_ok h.right_sound.table_sound ha hb.right_sound hφ' hsame
  have hu : Unifies s' a' b' (s'.withTable t') := ⟨h.right_sound, ha, hb.right_sound, hrun, rfl⟩
  have hlinked := h.linked.refine (.refl h.left_sound.table_sound) hu.grows.refines
    (fun ψ φ hR _ => h.linked.left_solves hR)
    ⟨φ, hφ, Unify.unify_solves h.right_sound.table_sound ha hb.right_sound hrun hφ' hsame⟩
  refine ⟨s'.withTable t', fun ψ φ => R ψ φ ∧ Solves φ t', hu, h.withTable hlinked
    (fun _ _ hR => hR.1) (.refl h.left_sound.table_sound) hu.grows.refines, fun ψ φ hR => ?_,
    hb.left_sound, hu.grows.mono ha⟩
  rw [hb.alike hR.1, hu.agree hR.2]

/-- Only the first check reads an annotation that leaves something open; the second one has what
`θ` says it is. -/
theorem annotated_left (hθ : ∀ v, (θ v).Sound 0) (hrun : annotated records x s.table = .ok ty t) :
    ∃ R1, Follows θ n R R1 s s' (s.withTable t) s' ∧
      Tied R1 (s.withTable t) s' ty (ty.subst θ) := by
  have hx := annotated_annotates x h.left_sound.table_sound hrun
  have hclosed : ∀ v φ, (θ v).subst φ = θ v := fun v φ => (hθ v).subst_of_closed φ
  obtain ⟨φ, hφ⟩ := h.linked.lifts
  have hlinked := h.linked.extend hx.refines (fun _ => hx.opens.solves) θ
    (fun v _ _ => (hθ v).mono (Nat.zero_le _)) ⟨φ, hφ, fun v _ _ => (hclosed v φ).symm⟩
  refine ⟨_, h.withTable hlinked (fun _ _ hR => hR.1) hx.refines (.refl h.right_sound.table_sound),
    fun ψ φ hR => ?_, hx.sound, (hx.sound.subst_closed hθ).mono (Nat.zero_le _)⟩
  rw [Ty.subst_subst]
  exact Ty.subst_congr fun v hv => hR.2 v (hx.vars_new v hv) (hx.sound.lt_of_mem v hv)

omit h in
theorem unifiesEach (hu : UnifiesEach s as bs s1) :
    ∀ {R s' as' bs'}, Sim θ n R s s' → Solves θ s1.table →
    Forall₂ (Tied R s s') as as' → Forall₂ (Tied R s s') bs bs' → ∃ s1' R1,
      UnifiesEach s' as' bs' s1' ∧ Follows θ n R R1 s s' s1 s1' := by
  induction hu with
  | nil hs =>
    intro R s' as' bs' h _ has hbs
    cases has
    cases hbs
    exact ⟨s', R, .nil h.right_sound, .refl h⟩
  | cons hu hrest ih =>
    intro R s' as' bs' h hθ has hbs
    cases has with
    | cons ha has =>
      cases hbs with
      | cons hb hbs =>
        obtain ⟨s1', R1, hu', hf⟩ := h.unifies hu (hrest.grows.refines.solves θ hθ) ha hb
        obtain ⟨s2', R2, hrest', hf'⟩ := ih hf.sim hθ (has.imp fun _ _ h => h.follow hf)
          (hbs.imp fun _ _ h => h.follow hf)
        exact ⟨s2', R2, .cons hu' hrest', hf.trans hf'⟩

end Sim

/-- Types that agree under a solution are made to agree one by one, and the solution stays one. -/
theorem UnifiesEach.exists_of_agree : ∀ {as bs s}, s.Sound →
    (∀ a ∈ as, a.Sound s.table.size) → (∀ b ∈ bs, b.Sound s.table.size) → Solves φ s.table →
    as.map (·.subst φ) = bs.map (·.subst φ) →
      ∃ s', UnifiesEach s as bs s' ∧ Solves φ s'.table
  | [], [], s, hs, _, _, hφ, _ => ⟨s, .nil hs, hφ⟩
  | [], _ :: _, _, _, _, _, _, heq | _ :: _, [], _, _, _, _, _, heq => by cases heq
  | a :: as, b :: bs, s, hs, has, hbs, hφ, heq => by
    obtain ⟨ha, has⟩ := forall_mem_cons.1 has
    obtain ⟨hb, hbs⟩ := forall_mem_cons.1 hbs
    obtain ⟨hab, hrest⟩ := List.cons.inj heq
    obtain ⟨t, hrun⟩ := Unify.unify_eq_ok hs.table_sound ha hb hφ hab
    have hu : Unifies s a b (s.withTable t) := ⟨hs, ha, hb, hrun, rfl⟩
    obtain ⟨s', heach, hφ'⟩ := exists_of_agree hu.grows.sound (fun x hx => hu.grows.mono (has x hx))
      (fun x hx => hu.grows.mono (hbs x hx)) (Unify.unify_solves hs.table_sound ha hb hrun hφ hab)
      hrest
    exact ⟨s', .cons hu heach, hφ'⟩

/-- Types that were made to agree one by one agree under every solution from then on. -/
theorem UnifiesEach.agree (h : UnifiesEach s as bs s') (hφ : Solves φ s'.table) :
    as.map (·.subst φ) = bs.map (·.subst φ) := by
  induction h with
  | nil => rfl
  | cons hu hrest ih =>
    rw [map_cons, map_cons, ih hφ, hu.agree (hrest.grows.refines.solves φ hφ)]

/-! ## Calls and operators -/

namespace Sim

variable (h : Sim θ n R s s')
include h

variable {callee callee' : Ty} {args args' : List Ty}

/-- The first check learns that the callee is a function by calling it, and the second one knows. -/
theorem call_known (hcallee : s.table.shallow callee = .var v)
    (hfn : Unifies s.fresh (.var v) (.fn args (.var s.table.size)) s1) (hθ : Solves θ s1.table)
    (hknown : s'.table.shallow callee' = .fn params' ret') (hc : Tied R s s' callee callee')
    (hargs : Forall₂ (Tied R s s') args args') : ∃ s1' R1,
      CallStep s' callee' args' ret' s1' ∧ Follows θ n R R1 s s' s1 s1' ∧
        R1.Alike (.var s.table.size) ret' := by
  obtain ⟨hsound', -, -⟩ := Unify.shallow_spec h.right_sound.table_sound hc.right_sound
  have hshallow := h.linked.alike_shallow hc.left_sound hc.right_sound hc.alike
  rw [hknown] at hsound'
  rw [hcallee, hknown] at hshallow
  obtain ⟨hparams_sound, hret_sound⟩ := Ty.Sound.fn_iff.1 hsound'
  have hargs_sound' : ∀ b ∈ args', b.Sound s'.table.size := by
    intro b hb
    obtain ⟨a, -, htied⟩ := exists_of_forall₂_right hargs hb
    exact htied.right_sound
  -- what the two types of the callee have in common under a pair of solutions
  have hsame : ∀ ⦃ψ φ⦄, R ψ φ → ψ v = .fn (params'.map (·.subst φ)) (ret'.subst φ) := by
    intro ψ φ hR
    rw [← Ty.substList_eq_map]
    exact hshallow hR
  have hcalled : ∀ ψ, Solves ψ s1.table → ψ v = .fn (args.map (·.subst ψ)) (ψ s.table.size) := by
    intro ψ hψ
    rw [← Ty.substList_eq_map]
    exact hfn.agree hψ
  -- the variable of the result stands for the result that is known
  obtain ⟨φ0, hφ0⟩ := h.linked.lifts
  have hret := (Ty.fn.inj ((hcalled θ hθ).symm.trans (hsame hφ0))).2
  obtain ⟨R1, hf, hresult⟩ := h.fresh_left hret_sound ⟨φ0, hφ0, hret⟩
  -- then the second check makes the parameters agree, and has learned as much as the first
  have halike : Forall₂ R1.Alike args args' := hargs.imp fun _ _ h => h.alike.narrow hf.narrows
  obtain ⟨φ, hφ⟩ := hf.sim.linked.lifts
  have hmeet : params'.map (·.subst φ) = args'.map (·.subst φ) := by
    rw [← Unify.Link.map_subst_eq halike hφ]
    exact (Ty.fn.inj ((hsame (hf.narrows hφ)).symm.trans (hcalled θ hθ))).1
  obtain ⟨s1', heach, hsolves⟩ := UnifiesEach.exists_of_agree h.right_sound hparams_sound
    hargs_sound' (hf.sim.linked.right_solves hφ) hmeet
  have hlearned : ∀ ⦃ψ φ⦄, R1 ψ φ → Solves φ s1'.table → Solves ψ s1.table := by
    intro ψ φ hR hφ
    refine Unify.unify_solves hfn.sound.table_sound hfn.left_sound hfn.right_sound hfn.run
      (hf.sim.linked.left_solves hR) ?_
    show ψ v = _
    rw [hsame (hf.narrows hR), Ty.subst, Ty.substList_eq_map,
      Unify.Link.map_subst_eq halike hR, heach.agree hφ, hresult hR]
  have hlinked := hf.sim.linked.refine hfn.grows.refines heach.grows.refines hlearned
    ⟨φ, hφ, hsolves⟩
  refine ⟨s1', fun ψ φ => R1 ψ φ ∧ Solves φ s1'.table, .known hknown ?_ heach, ?_,
    fun ψ φ hR => hresult hR.1⟩
  · have hlen := congrArg List.length hmeet
    rwa [length_map, length_map] at hlen
  · refine hf.trans ?_
    rw [hfn.state_eq, heach.state_eq]
    exact hf.sim.withTable hlinked (fun _ _ hR => hR.1) hfn.grows.refines heach.grows.refines

/-- **A call that passes in the first check passes in the second.** -/
theorem call (hcall : CallStep s callee args ty s1) (hθ : Solves θ s1.table)
    (hc : Tied R s s' callee callee') (hargs : Forall₂ (Tied R s s') args args') :
    ∃ ty' s1' R1, CallStep s' callee' args' ty' s1' ∧ Follows θ n R R1 s s' s1 s1' ∧
      R1.Alike ty ty' := by
  obtain ⟨hsound, -, -⟩ := Unify.shallow_spec h.left_sound.table_sound hc.left_sound
  obtain ⟨hsound', -, -⟩ := Unify.shallow_spec h.right_sound.table_sound hc.right_sound
  cases hcall with
  | known hfn hlen hparams =>
    obtain ⟨params', ret', hfn', hps, hret⟩ := h.linked.shallow_eq_fn hc.left_sound hc.right_sound
      hc.alike hfn
    rw [hfn] at hsound
    rw [hfn'] at hsound'
    obtain ⟨s1', R1, hparams', hf⟩ := unifiesEach hparams h hθ
      (forall₂_tied hps (Ty.Sound.fn_iff.1 hsound).1 (Ty.Sound.fn_iff.1 hsound').1) hargs
    refine ⟨ret', s1', R1, .known hfn' ?_ hparams', hf, hret.narrow hf.narrows⟩
    rw [← hps.length_eq, hlen, hargs.length_eq]
  | @unknown v _ hvar hfn =>
    -- under `θ` the callee is a function, so the second check cannot know it to be anything else
    obtain ⟨φ, hφ⟩ := h.linked.lifts
    have hsame := h.linked.alike_shallow hc.left_sound hc.right_sound hc.alike
    rw [hvar] at hsame
    have hθfn : (s'.table.shallow callee').subst φ = (Ty.fn args (.var s.table.size)).subst θ :=
      (hsame hφ).symm.trans (hfn.agree hθ)
    cases hvar' : s'.table.shallow callee' with
    | fn params' ret' =>
      obtain ⟨s1', R1, hcall', hf, hret⟩ := h.call_known hvar hfn hθ hvar' hc hargs
      exact ⟨ret', s1', R1, hcall', hf, hret⟩
    | var v' =>
      rw [hvar] at hsound
      rw [hvar'] at hsame hsound'
      have hv : Tied R s s' (.var v) (.var v') := ⟨hsame, hsound, hsound'⟩
      obtain ⟨R1, hf, hret⟩ := h.fresh
      have hcallee : Tied R1 s.fresh s'.fresh (.fn args (.var s.table.size))
          (.fn args' (.var s'.table.size)) := by
        have hargs1 := hargs.imp fun _ _ h => h.follow hf
        refine ⟨.fn (hargs1.imp fun _ _ h => h.alike) hret.alike, ?_, ?_⟩
        · refine Ty.Sound.fn_iff.2 ⟨fun a ha => ?_, hret.left_sound⟩
          obtain ⟨a', -, htied⟩ := exists_of_forall₂_left hargs1 ha
          exact htied.left_sound
        · refine Ty.Sound.fn_iff.2 ⟨fun a ha => ?_, hret.right_sound⟩
          obtain ⟨a', -, htied⟩ := exists_of_forall₂_right hargs1 ha
          exact htied.right_sound
      obtain ⟨s1', R2, hfn', hf'⟩ := hf.sim.unifies hfn hθ (hv.follow hf) hcallee
      exact ⟨_, s1', R2, .unknown hvar' hfn', hf.trans hf', hret.alike.narrow hf'.narrows⟩
    | prim | list | record | error =>
      rw [hvar'] at hθfn
      cases hθfn

/-- **Operands that pass in the first check pass in the second,** if those of an equality are
primitive. -/
theorem binary (hop : BinaryStep s op a b ty s1) (hθ : Solves θ s1.table)
    (hprim : op.opClass = .equality → ∃ q, a.subst θ = .prim q) (ha : Tied R s s' a a')
    (hb : Tied R s s' b b') :
    ∃ s1' R1, BinaryStep s' op a' b' ty s1' ∧ Follows θ n R R1 s s' s1 s1' ∧ R1.Alike ty ty := by
  cases hop with
  | known hop hlhs hrhs =>
    obtain ⟨p, q, rfl, rfl⟩ := operatorTypes?_eq_prim hop
    obtain ⟨s2', R2, hlhs', hf⟩ := h.unifies hlhs (hrhs.grows.refines.solves θ hθ)
      (tied_prim R s s' p) ha
    obtain ⟨s1', R1, hrhs', hf'⟩ := hf.sim.unifies hrhs hθ (tied_prim _ _ _ p) (hb.follow hf)
    exact ⟨s1', R1, .known hop hlhs' hrhs', hf.trans hf', R1.alike_prim q⟩
  | equality hop hsame hcomparable =>
    obtain ⟨s1', R1, hsame', hf⟩ := h.unifies hsame hθ ha hb
    refine ⟨s1', R1, .equality hop hsame' ?_, hf, R1.alike_prim _⟩
    -- under `θ` the operand is primitive, so its form is primitive or open
    obtain ⟨q, hq⟩ := hprim hop
    obtain ⟨φ, hφ⟩ := hf.sim.linked.lifts
    have ha1 := ha.follow hf
    obtain ⟨-, hread, -⟩ := Unify.shallow_spec hf.sim.right_sound.table_sound ha1.right_sound
    have hform : (s1'.table.shallow a').subst φ = .prim q := by
      rw [hread φ (hf.sim.linked.right_solves hφ), ← ha1.alike hφ, hq]
    cases hshallow : s1'.table.shallow a' with
    | prim | var | error => rfl
    | list | record | fn =>
      rw [hshallow] at hform
      cases hform

end Sim

end Sluice.Infer
