import Sluice.Proofs.Infer.Program

/-!
# What checking a program consists of

The bodies of a program without errors pass one after the other, in one table.
`BodyStep` says what the check of one body consists of, `BodiesRun` that all
bodies are checked so.
-/

namespace Sluice.Infer

open List
open Typed (Function LocalId)
open Unify (Table)

variable {g : Globals} {t t' : Table} {p : Pending} {f : Function} {s' : State}
  {fs : List Function}

theorem ParamsStep.declareParams (h : ParamsStep scope s params ids scope' s') :
    declareParams scope params s = .ok (ids, scope') s' := by
  induction h with
  | nil => rfl
  | cons _ ih =>
    rw [Infer.declareParams]
    exact bind_ok rfl <| bind_ok ih rfl

theorem BodyStep.checkBody (h : BodyStep g p t f s') : checkBody g p { table := t } = .ok f s' := by
  cases h with
  | mk hparams _ hbody hret =>
    rw [Infer.checkBody]
    exact bind_ok hparams.declareParams <| bind_ok hbody.run <| bind_ok (hret.require _ _) <|
      bind_ok rfl rfl

theorem BodyStep.refines (h : BodyStep g p t f s') : t.Refines s'.table := by
  cases h with
  | mk _ hgrows hbody hret => exact (hgrows.trans (hbody.grows.trans hret.grows)).refines

/-- Bodies are checked one after the other. -/
inductive BodiesRun (g : Globals) : Table → List Pending → List Function → Table → Prop
  | nil {t : Table} : BodiesRun g t [] [] t
  | cons {t t' : Table} {p : Pending} {rest : List Pending} {f : Function} {fs : List Function}
    {s : State} (h : BodyStep g p t.snapshot.2 f s) (hrest : BodiesRun g s.table.commit rest fs t') :
    BodiesRun g t (p :: rest) (f :: fs) t'

theorem Refines.snapshot (ht : t.Sound) : t.Refines t.snapshot.2 :=
  Unify.Table.refines_of_eq ht rfl rfl rfl

theorem Refines.commit (ht : t.Sound) : t.Refines t.commit :=
  Unify.Table.refines_of_eq ht rfl rfl rfl

/-- One body, with the marks around it. -/
theorem BodyStep.refines_commit (ht : t.Sound) (h : BodyStep g p t.snapshot.2 f s') :
    t.Refines s'.table.commit :=
  (Refines.snapshot ht).trans (h.refines.trans (Refines.commit h.refines.sound))

theorem BodiesRun.refines (h : BodiesRun g t pending fs t') (ht : t.Sound) : t.Refines t' := by
  induction h with
  | nil => exact .refl ht
  | cons h _ ih =>
    have hstep := h.refines_commit ht
    exact hstep.trans (ih hstep.sound)

theorem BodiesRun.of_foldl : ∀ (pending : List Pending) (progress : Progress),
    progress.table.Sound → g.Sound progress.table.size →
    (∀ p ∈ pending, p.signature.ty.Sound progress.table.size ∧ p.Fits) →
    (pending.foldl (Progress.step g) progress).errors = [] →
      ∃ fs, (pending.foldl (Progress.step g) progress).functions = progress.functions ++ fs ∧
        BodiesRun g progress.table pending fs (pending.foldl (Progress.step g) progress).table
  | [], progress, _, _, _, _ => ⟨[], (append_nil _).symm, .nil⟩
  | p :: rest, progress, ht, hg, hpending, herrors => by
    have h1 := Declared.no_errors_before (Progress.errors_foldl g rest (progress.step g p)) herrors
    obtain ⟨hp, hfits⟩ := hpending p mem_cons_self
    have hsnap := Refines.snapshot ht
    cases hrun : checkBody g p { table := progress.table.snapshot.2 } with
    | error e s =>
      -- an error of this body would still be there in the end
      rw [Progress.step] at h1
      simp only [hrun] at h1
      exact absurd h1 (by simp)
    | ok f s =>
      have hbody := BodyStep.of_checkBody hsnap.sound (hg.le hsnap.size_le)
        (hp.mono hsnap.size_le) hfits hrun
      have hstep : progress.step g p =
          ⟨s.table.commit, progress.functions ++ [f], progress.errors⟩ := by
        rw [Progress.step]
        simp only [hrun]
      have href := hbody.refines_commit ht
      rw [foldl_cons, hstep] at herrors ⊢
      obtain ⟨fs, hfs, hall⟩ := of_foldl rest _ href.sound (hg.le href.size_le)
        (fun q hq => ⟨(hpending q (mem_cons_of_mem _ hq)).1.mono href.size_le,
          (hpending q (mem_cons_of_mem _ hq)).2⟩) herrors
      exact ⟨f :: fs, by rw [hfs, List.append_assoc]; rfl, .cons hbody hall⟩

theorem BodiesRun.foldl_step (h : BodiesRun g t pending fs t') (done : List Function)
    (errors : List TypeError) :
    pending.foldl (Progress.step g) ⟨t, done, errors⟩ = ⟨t', done ++ fs, errors⟩ := by
  induction h generalizing done with
  | nil => rw [append_nil]; rfl
  | cons h _ ih =>
    rw [foldl_cons, Progress.step]
    simp only [h.checkBody]
    rw [ih, List.append_assoc]
    rfl

theorem CheckedAll.fits (h : CheckedAll source program t fs)
    (hp : p ∈ (declare source).pending) : p.Fits := by
  obtain ⟨kd, -, hfollow⟩ := exists_of_forall₂_right h.definitions hp
  exact hfollow.mem_params

/-- **A program without errors is checked body by body.** -/
theorem bodiesRun_of_check (h : (check source).errors = []) :
    BodiesRun (declare source).globals (declare source).table (declare source).pending
      (checkBodies source).functions (checkBodies source).table := by
  obtain ⟨herrors, hall⟩ := checkedAll_checkBodies h
  obtain ⟨fs, hfs, hrun⟩ := BodiesRun.of_foldl (declare source).pending
    { table := (declare source).table } hall.declared.table_sound hall.declared.globals_sound
    (fun p hp => ⟨hall.declared.pending_sound p hp, hall.fits hp⟩) herrors
  rw [checkBodies, hfs]
  exact hrun

end Sluice.Infer
