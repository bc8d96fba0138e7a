import Sluice.Proofs.Unify.Recursion
import Sluice.Proofs.Unify.Rollback
import Mathlib.Logic.Relation

/-!
# The tables of a run

A run adds variables, looks for roots, unifies types, with success or without,
poisons what is free in a type, and opens snapshots that are committed or rolled
back in the opposite order. Every table on the way is grounded (`Reached.sane`).
For a rollback that is so because it gives back the table that the snapshot was
taken of, which was a table of the run before (`Nested.rollback_eq`).
-/

namespace Sluice.Unify

open List

namespace Table

variable {t t' t0 : Table} {v w r a b : TyVar} {ty : Ty}

/-! ## Bindings that are kept -/

/-- A grounded table that keeps bindings at roots only, so that all of them count. -/
structure Sane (t : Table) : Prop extends t.Grounded where
  root_of_kept : t.BindsRoots

namespace Sane

theorem binding?_of_kept (ht : t.Sane) (h : t.kept v = some ty) : t.binding? v = some ty := by
  rw [binding?_eq, ht.root_of_kept v ty h, h]

theorem empty : Sane {} :=
  ⟨grounded_empty, fun v ty h => by simp [kept] at h⟩

theorem newVariable (ht : t.Sane) : t.newVariable.2.Sane := by
  refine ⟨ht.toGrounded.newVariable, fun v ty h => ?_⟩
  rw [kept_newVariable] at h
  rw [root_newVariable ht.toIsForest]
  exact ht.root_of_kept v ty h

theorem shortens (ht : t.Sane) (h : Shortens t t') : t'.Sane := by
  refine ⟨h.grounded ht.toGrounded, fun v ty hv => ?_⟩
  rw [h.kept_eq] at hv
  rw [h.root_eq]
  exact ht.root_of_kept v ty hv

/-- Logs and snapshots are no part of what a table keeps. -/
theorem congr (ht : t.Sane) (hp : t'.parents = t.parents) (hr : t'.ranks = t.ranks)
    (hb : t'.bindings = t.bindings) : t'.Sane := by
  refine ⟨ht.toGrounded.congr (ht.toIsForest.congr hp hr (by rw [hb])) hp hb, fun v ty h => ?_⟩
  rw [kept, hb] at h
  rw [root_congr hp]
  exact ht.root_of_kept v ty h

end Sane

/-- A root, free or not, can be bound to a type without variables. -/
theorem Sane.setBinding_closed (ht : t.Sane) (hroot : t.root r = r) (hlt : r < t.size)
    (hvar : ∀ w, ty ≠ .var w) (hclosed : ty.vars = []) : (t.setBinding r ty).Sane := by
  have hb := binding?_setBinding ht.toIsForest hlt ty
  refine ⟨⟨ht.toIsForest.setBinding r ty, fun v ty' h => ?_, fun v w h => ?_, ?_⟩,
    ht.root_of_kept.setBinding ht.toIsForest hroot hlt⟩
  · rw [size_setBinding]
    rw [hb] at h
    split at h
    · cases h
      exact .of_closed hclosed
    · exact ht.binding_below v ty' h
  · rw [hb] at h
    split at h
    · exact hvar w (Option.some.inj h)
    · exact ht.binding_ne_var v w h
  · obtain ⟨level, hlevel⟩ := ht.acyclic
    refine ⟨level, fun v ty' h w hw => ?_⟩
    rw [root_setBinding, root_setBinding]
    rw [hb] at h
    split at h
    · cases h
      rw [hclosed] at hw
      exact nomatch hw
    · exact hlevel v ty' h w hw

end Table

open Table

variable {t t' : Table} {a b ty : Ty}

/-! ## Unifying and poisoning -/

/-- **Unifying keeps a table sane,** whether it succeeds or fails. -/
theorem sane_unify (ht : t.Sane) (ha : a.Below t.size) (hb : b.Below t.size) :
    (finalState (unify a b t)).Sane :=
  have h := unify_advances Ty.hereditary_true ht.keeps (.of_below ha) (.of_below hb)
  ⟨h.keeps.toGrounded, h.bindsRoots ht.root_of_kept⟩

namespace Table

/-- Poisoning one variable. -/
theorem Sane.bind_error (ht : t.Sane) (hv : v < t.size) :
    (t.bind v .error).Sane ∧ (t.bind v .error).size = t.size := by
  have hshort := ht.toIsForest.shortens_find v
  have ht' := ht.shortens hshort
  have hroot : (t.find v).2.root (t.find v).1 = (t.find v).1 := by
    rw [hshort.root_eq, ht.toIsForest.find_fst, ht.root_root]
  have hlt : (t.find v).1 < (t.find v).2.size := by
    rw [hshort.size_eq, ht.toIsForest.find_fst]
    exact ht.root_lt hv
  refine ⟨ht'.setBinding_closed hroot hlt nofun rfl, ?_⟩
  rw [bind, size_setBinding, hshort.size_eq]

theorem sane_foldl_bind (vars : List TyVar) : ∀ {t : Table}, t.Sane → (∀ v ∈ vars, v < t.size) →
    (vars.foldl (fun t v => t.bind v .error) t).Sane := by
  induction vars with
  | nil => exact fun ht _ => ht
  | cons v rest ih =>
    intro t ht hvars
    obtain ⟨ht', hsize⟩ := ht.bind_error (hvars v mem_cons_self)
    exact ih ht' fun w hw => hsize ▸ hvars w (mem_cons_of_mem _ hw)

/-- What is read mentions known variables only. -/
theorem Grounded.resolve_below (ht : t.Grounded) :
    ty.Below t.size → (t.resolve ty).Below t.size := by
  induction ty using ht.wellFounded_reads.induction with
  | h ty ih =>
    intro hty
    rw [ht.resolve_eq]
    cases ty with
    | var v =>
      rw [resolveStep]
      cases hb : t.binding? v with
      | none => exact .of_var (ht.root_lt hty.lt_of_var)
      | some ty => exact ih ty (.binding hb) (ht.binding_below v ty hb)
    | list elem => exact ih elem (.elem elem) hty
    | fn params ret =>
      obtain ⟨hparams, hret⟩ := Ty.Below.fn_iff.1 hty
      refine Ty.Below.fn_iff.2 ⟨fun p hp => ?_, ih ret (.ret params ret) hret⟩
      obtain ⟨q, hq, rfl⟩ := mem_map.1 hp
      exact ih q (.param ret hq) (hparams q hq)
    | prim | record | error => exact .of_closed rfl

theorem sane_poison (ht : t.Sane) (hty : ty.Below t.size) : (t.poison ty).Sane :=
  sane_foldl_bind _ ht (ht.toGrounded.resolve_below hty)

theorem moves_poison (t : Table) (ty : Ty) : Moves t (t.poison ty) := by
  unfold poison
  generalize (t.resolve ty).vars = vars
  induction vars generalizing t with
  | nil => exact .refl
  | cons v rest ih => exact (moves_bind t v .error).trans (ih _)

/-! ## Runs -/

/-- **The tables of a run,** with the tables that the open snapshots were taken of, newest first.
Types that are unified or poisoned mention known variables; a commit or a rollback is that of the
newest open snapshot. -/
inductive Reached : List Table → Table → Prop
  | start : Reached [] {}
  | newVariable {σ t} (h : Reached σ t) : Reached σ t.newVariable.2
  | find {σ t} (h : Reached σ t) (v : TyVar) : Reached σ (t.find v).2
  | unify {σ t a b} (h : Reached σ t) (ha : a.Below t.size) (hb : b.Below t.size) :
    Reached σ (finalState (unify a b t))
  | poison {σ t ty} (h : Reached σ t) (hty : ty.Below t.size) : Reached σ (t.poison ty)
  | snapshot {σ t} (h : Reached σ t) : Reached (t :: σ) t.snapshot.2
  | commit {σ t t0} (h : Reached (t0 :: σ) t) : Reached σ t.commit
  | rollback {σ t t0} (h : Reached (t0 :: σ) t) : Reached σ (t.rollback t0.snapshot.1)

variable {σ : List Table}

/-- The log of a table leads back to the tables of the open snapshots. -/
theorem Reached.nested (h : Reached σ t) : Nested Unlogged σ t := by
  induction h with
  | start => exact .outside ⟨rfl, rfl⟩
  | newVariable _ ih => exact ih.moves survives_unlogged (.newVariable .refl)
  | find _ v ih => exact ih.moves survives_unlogged (moves_find _ v)
  | @unify _ _ a b _ _ _ ih => exact ih.moves survives_unlogged (leads_unify a b _)
  | poison _ _ ih => exact ih.moves survives_unlogged (moves_poison _ _)
  | snapshot _ ih => exact .inside ih ⟨[], rfl, rfl⟩
  | commit _ ih => exact ih.commit survives_unlogged
  | rollback _ ih => exact ih.rollback

/-- Every table of a run is sane, and so are the tables of the open snapshots. -/
theorem Reached.sane_all (h : Reached σ t) : ∀ t' ∈ t :: σ, t'.Sane := by
  induction h with
  | start => exact forall_mem_singleton.2 .empty
  | newVariable _ ih =>
    rw [forall_mem_cons] at ih ⊢
    exact ⟨ih.1.newVariable, ih.2⟩
  | find _ v ih =>
    rw [forall_mem_cons] at ih ⊢
    exact ⟨ih.1.shortens (ih.1.toIsForest.shortens_find v), ih.2⟩
  | unify _ ha hb ih =>
    rw [forall_mem_cons] at ih ⊢
    exact ⟨sane_unify ih.1 ha hb, ih.2⟩
  | poison _ hty ih =>
    rw [forall_mem_cons] at ih ⊢
    exact ⟨sane_poison ih.1 hty, ih.2⟩
  | snapshot _ ih => exact forall_mem_cons.2 ⟨(ih _ mem_cons_self).congr rfl rfl rfl, ih⟩
  | commit _ ih =>
    obtain ⟨ht, hσ⟩ := forall_mem_cons.1 ih
    exact forall_mem_cons.2 ⟨ht.congr rfl rfl rfl, (forall_mem_cons.1 hσ).2⟩
  | rollback h ih =>
    rw [h.nested.rollback_eq]
    exact (forall_mem_cons.1 ih).2

theorem Reached.sane (h : Reached σ t) : t.Sane :=
  h.sane_all t mem_cons_self

/-! ## No cycles -/

/-- The binding of one variable's set mentions the set of another. -/
def Mentions (t : Table) (v w : TyVar) : Prop :=
  ∃ ty, t.binding? v = some ty ∧ ∃ u ∈ ty.vars, t.root u = t.root w

theorem Grounded.not_mentions_self (ht : t.Grounded) (v : TyVar) :
    ¬ Relation.TransGen t.Mentions v v := by
  obtain ⟨level, hlevel⟩ := ht.acyclic
  have hstep : ∀ {v w}, t.Mentions v w → level (t.root w) < level (t.root v) := by
    rintro v w ⟨ty, hb, u, hu, hroot⟩
    rw [← hroot]
    exact hlevel v ty hb u hu
  have hpath : ∀ {v w}, Relation.TransGen t.Mentions v w →
      level (t.root w) < level (t.root v) := by
    intro v w hvw
    induction hvw with
    | single h => exact hstep h
    | tail _ h ih => exact Nat.lt_trans (hstep h) ih
  exact fun h => Nat.lt_irrefl _ (hpath h)

/-- **The recursion of every function on a table ends by itself.** None of the three call
relations descends for ever, and each function satisfies its recursive equation. -/
structure Ends (t : Table) : Prop where
  up : WellFounded t.Up
  find_eq : ∀ v, t.find v =
    if t.parent v = v then (v, t)
    else ((t.find (t.parent v)).1,
      if (t.find (t.parent v)).1 = t.parent v then (t.find (t.parent v)).2
      else (t.find (t.parent v)).2.setParent v (t.find (t.parent v)).1)
  reads : WellFounded t.Reads
  shallow_eq : ∀ ty, t.shallow ty = t.shallowStep t.shallow ty
  resolve_eq : ∀ ty, t.resolve ty = t.resolveStep t.resolve ty
  occurs_eq : ∀ r ty, t.occurs r ty = t.occursStep r (t.occurs r) ty
  calls : ∀ a b, a.Below t.size → b.Below t.size → Acc Calls (t, a, b)
  unify_eq : ∀ a b, a.Below t.size → b.Below t.size →
    Unify.unify a b t = unifyStep Unify.unify a b t

theorem Grounded.ends (ht : t.Grounded) : t.Ends where
  up := ht.toIsForest.wellFounded_up
  find_eq := ht.toIsForest.find_eq
  reads := ht.wellFounded_reads
  shallow_eq := ht.shallow_eq
  resolve_eq := ht.resolve_eq
  occurs_eq := ht.occurs_eq
  calls _ _ := acc_calls ht
  unify_eq _ _ := unify_eq ht

/-- **Every table of a run is well founded.** Its links stay inside it and go up to roots, every
binding mentions known variables, no variable is reached from itself through bindings, the
recursion on the table ends, and what is read holds no bound variable and is read as itself. -/
theorem reached_wellFounded (h : Reached σ t) :
    (WellFounded t.Up ∧ ∀ v < t.size, t.parent v < t.size) ∧
      (∀ v ty, t.kept v = some ty → ∀ w ∈ ty.vars, w < t.size) ∧
      (∀ v, ¬ Relation.TransGen t.Mentions v v) ∧
      t.Ends ∧
      ∀ ty, (∀ v ∈ (t.resolve ty).vars, t.binding? v = none) ∧
        t.resolve (t.resolve ty) = t.resolve ty := by
  have ht := h.sane
  refine ⟨⟨ht.toIsForest.wellFounded_up, ht.parent_lt⟩, fun v ty hv => ?_,
    ht.toGrounded.not_mentions_self, ht.toGrounded.ends, fun ty => ⟨fun v hv => ?_, ?_⟩⟩
  · exact ht.binding_below v ty (ht.binding?_of_kept hv)
  · exact (ht.toGrounded.isRoot_of_mem_resolve v hv).2
  · exact ht.toGrounded.resolve_resolve ty

/-- A table inside a snapshot: the first of four variables is bound to a list of the second. -/
def bound : Table :=
  let t : Table := {}
  let t := t.newVariable.2.newVariable.2.newVariable.2.newVariable.2
  finalState (Unify.unify (.var 0) (.list (.var 1)) t.snapshot.2)

/-- From there, in a second snapshot, two variables are merged, and a type that would hold itself
is refused. -/
def refused : Table :=
  let t := finalState (Unify.unify (.var 1) (.var 2) bound.snapshot.2)
  finalState (Unify.unify (.var 2) (.list (.var 0)) t)

/-- The second snapshot is rolled back; what is free in a function type is poisoned, and the first
snapshot is committed. -/
def committed : Table :=
  let t := refused.rollback bound.snapshot.1
  (t.poison (.fn [.var 3, .int] (.list (.var 3)))).commit

theorem bound_reached : ∃ t, Reached [t] bound :=
  ⟨_, .unify (a := .var 0) (b := .list (.var 1))
    (.snapshot (.newVariable (.newVariable (.newVariable (.newVariable .start)))))
    (by decide +kernel) (by decide +kernel)⟩

theorem committed_reached : Reached [] committed := by
  obtain ⟨t, hbound⟩ := bound_reached
  have hmerged : Reached [bound, t] (finalState (Unify.unify (.var 1) (.var 2) bound.snapshot.2)) :=
    .unify (.snapshot hbound) (by decide +kernel) (by decide +kernel)
  have hrefused : Reached [bound, t] refused :=
    .unify (a := .var 2) (b := .list (.var 0)) hmerged (by decide +kernel) (by decide +kernel)
  have hpoisoned : Reached [t] ((refused.rollback bound.snapshot.1).poison
      (.fn [.var 3, .int] (.list (.var 3)))) :=
    .poison (.rollback hrefused) (by decide +kernel)
  exact .commit hpoisoned

/-- The run succeeds, fails and rolls back; afterwards the first variable is read as a list of the
second one, and no binding leads back to either. -/
theorem reached_wellFounded_committed :
    Reached [] committed ∧ committed.resolve (.var 0) = .list (.var 1) ∧
      committed.resolve (.var 3) = .error ∧ committed.binding? 1 = none ∧
      ¬ Relation.TransGen committed.Mentions 0 0 ∧ committed.Ends := by
  obtain ⟨-, -, hcycle, hends, hread⟩ := reached_wellFounded committed_reached
  have hlist : committed.resolve (.var 0) = .list (.var 1) := by decide +kernel
  refine ⟨committed_reached, hlist, by decide +kernel, ?_, hcycle 0, hends⟩
  exact (hread (.var 0)).1 1 (by rw [hlist]; decide)

end Table

end Sluice.Unify
