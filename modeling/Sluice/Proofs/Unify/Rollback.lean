import Sluice.Proofs.Monad
import Sluice.Proofs.Unify.Forest
import Sluice.Unify.Solve

/-!
# Rolling back

Whatever is done to a table comes down to four single changes: a new variable,
a link, a rank and a binding (`Moves`). While a snapshot is open, each of them
is logged together with what it replaced. So the log leads back: a rollback
gives exactly the table that the snapshot was taken of, links that were only
shortened and ranks included (`Moves.rollback`). That stays so when snapshots
are taken, committed and rolled back in between (`Nested`), and with it every
session of calls on a table (`Session.rollback_exact`).
-/

namespace Sluice.Unify

open List

namespace Table

variable {t t' t'' : Table} {c : Change}

/-- A table reached from another by single changes. -/
inductive Moves (t : Table) : Table → Prop
  | refl : Moves t t
  | newVariable {t' : Table} (h : Moves t t') : Moves t t'.newVariable.2
  | setParent {t' : Table} (h : Moves t t') (v parent : TyVar) : Moves t (t'.setParent v parent)
  | raiseRank {t' : Table} (h : Moves t t') (v : TyVar) : Moves t (t'.raiseRank v)
  | setBinding {t' : Table} (h : Moves t t') (root : TyVar) (ty : Ty) :
    Moves t (t'.setBinding root ty)

theorem Moves.trans (h : Moves t t') (h' : Moves t' t'') : Moves t t'' := by
  induction h' with
  | refl => exact h
  | newVariable _ ih => exact .newVariable ih
  | setParent _ v parent ih => exact .setParent ih v parent
  | raiseRank _ v ih => exact .raiseRank ih v
  | setBinding _ root ty ih => exact .setBinding ih root ty

/-! ## Single changes are logged -/

/-- A change that was logged, and that the log tells how to take back. -/
structure Logs (t t' : Table) (c : Change) : Prop where
  log_eq : t'.log = c :: t.log
  undo_eq : t'.undo c = { t with log := t'.log }

/-- A change is logged if taking it back restores what it changed. -/
theorem logs_record (hopen : t.openSnapshots ≠ 0) (hlog : t'.log = t.log)
    (hsame : t'.openSnapshots = t.openSnapshots) (hundo : t'.undo c = t) :
    Logs t (t'.record c) c := by
  have hrecord : t'.record c = { t' with log := c :: t.log } := by
    rw [record, if_neg (hsame ▸ hopen), hlog]
  have hwithLog : ∀ log, { t' with log }.undo c = { t'.undo c with log } := by
    intro log
    cases c <;> rfl
  rw [hrecord]
  exact ⟨rfl, by rw [hwithLog, hundo]⟩

/-- Writing back what stood at a place restores an array. -/
theorem setIfInBounds_getD (xs : Array α) (i : Nat) (x y : α) :
    (xs.setIfInBounds i x).setIfInBounds i (xs.getD i y) = xs := by
  rw [Array.setIfInBounds_setIfInBounds]
  by_cases hi : i < xs.size
  · rw [Array.getD_eq_getD_getElem?, Array.getElem?_eq_getElem hi, Option.getD_some,
      Array.setIfInBounds_def, dif_pos hi, Array.set_getElem_self]
  · exact Array.setIfInBounds_eq_of_size_le (Nat.le_of_not_lt hi)

theorem logs_newVariable (hopen : t.openSnapshots ≠ 0) : Logs t t.newVariable.2 .newVariable := by
  refine logs_record hopen rfl rfl ?_
  simp [undo]

theorem logs_setParent (hopen : t.openSnapshots ≠ 0) (v parent : TyVar) :
    Logs t (t.setParent v parent) (.setParent v (t.parents.getD v v)) := by
  refine logs_record hopen rfl rfl ?_
  simp only [undo, setIfInBounds_getD]

theorem logs_raiseRank (hopen : t.openSnapshots ≠ 0) (v : TyVar) :
    Logs t (t.raiseRank v) (.setRank v (t.ranks.getD v 0)) := by
  refine logs_record hopen rfl rfl ?_
  simp only [undo, setIfInBounds_getD]

theorem logs_setBinding (hopen : t.openSnapshots ≠ 0) (root : TyVar) (ty : Ty) :
    Logs t (t.setBinding root ty) (.bind root (t.bindings.getD root none)) := by
  refine logs_record hopen rfl rfl ?_
  simp only [undo, setIfInBounds_getD]

/-! ## The log leads back -/

/-- What was logged since a table leads back to it. -/
def LeadsBack (t t' : Table) : Prop :=
  ∃ added, t'.log = added ++ t.log ∧ added.foldl undo t' = { t with log := t'.log }

theorem foldl_undo_withLog (changes : List Change) (t : Table) (log : List Change) :
    changes.foldl undo { t with log } = { changes.foldl undo t with log } := by
  induction changes generalizing t with
  | nil => rfl
  | cons c rest ih =>
    have hundo : { t with log }.undo c = { t.undo c with log } := by
      cases c <;> rfl
    rw [foldl_cons, foldl_cons, hundo, ih]

theorem foldl_undo_withSnapshots (changes : List Change) (t : Table) (n : Nat) :
    changes.foldl undo { t with openSnapshots := n } =
      { changes.foldl undo t with openSnapshots := n } := by
  induction changes generalizing t with
  | nil => rfl
  | cons c rest ih =>
    have hundo : { t with openSnapshots := n }.undo c = { t.undo c with openSnapshots := n } := by
      cases c <;> rfl
    rw [foldl_cons, foldl_cons, hundo, ih]

theorem openSnapshots_foldl_undo (changes : List Change) (t : Table) :
    (changes.foldl undo t).openSnapshots = t.openSnapshots :=
  (congrArg openSnapshots (foldl_undo_withSnapshots changes t t.openSnapshots) :)

theorem LeadsBack.openSnapshots_eq (h : LeadsBack t t') : t'.openSnapshots = t.openSnapshots := by
  obtain ⟨added, -, hundo⟩ := h
  have := congrArg openSnapshots hundo
  rwa [openSnapshots_foldl_undo] at this

/-- One logged change more. -/
theorem LeadsBack.step (h : LeadsBack t t') (hc : Logs t' t'' c) : LeadsBack t t'' := by
  obtain ⟨added, hlog, hundo⟩ := h
  refine ⟨c :: added, ?_, ?_⟩
  · rw [hc.log_eq, hlog, cons_append]
  · rw [foldl_cons, hc.undo_eq, foldl_undo_withLog, hundo]

theorem Moves.leadsBack (h : Moves t t') (hopen : t.openSnapshots ≠ 0) : LeadsBack t t' := by
  induction h with
  | refl => exact ⟨[], rfl, rfl⟩
  | newVariable _ ih => exact ih.step (logs_newVariable (ih.openSnapshots_eq ▸ hopen))
  | setParent _ v parent ih =>
    exact ih.step (logs_setParent (ih.openSnapshots_eq ▸ hopen) v parent)
  | raiseRank _ v ih => exact ih.step (logs_raiseRank (ih.openSnapshots_eq ▸ hopen) v)
  | setBinding _ root ty ih =>
    exact ih.step (logs_setBinding (ih.openSnapshots_eq ▸ hopen) root ty)

theorem LeadsBack.trans (h : LeadsBack t t') (h' : LeadsBack t' t'') : LeadsBack t t'' := by
  obtain ⟨added, hlog, hundo⟩ := h
  obtain ⟨added', hlog', hundo'⟩ := h'
  refine ⟨added' ++ added, ?_, ?_⟩
  · rw [hlog', hlog, append_assoc]
  · rw [foldl_append, hundo', foldl_undo_withLog, hundo]

/-- What leads back to a snapshot takes a rollback to the table that it was taken of. -/
theorem LeadsBack.rollback (h : LeadsBack t.snapshot.2 t') : t'.rollback t.snapshot.1 = t := by
  obtain ⟨added, hlog, hundo⟩ := h
  have hcount : t'.log.length - t.log.length = added.length := by
    have := congrArg List.length hlog
    rw [length_append] at this
    simp only [snapshot] at this
    omega
  have htake : t'.log.take added.length = added := by rw [hlog, take_left]
  have hdrop : t'.log.drop added.length = t.log := by
    rw [hlog, drop_left]
    rfl
  rw [Table.rollback]
  simp only [snapshot, hcount, htake, hdrop, hundo, Nat.add_sub_cancel]

/-- **A rollback gives the table of the snapshot,** whatever was done since. -/
theorem Moves.rollback (h : Moves t.snapshot.2 t') : t'.rollback t.snapshot.1 = t :=
  (h.leadsBack (Nat.succ_ne_zero _)).rollback

/-! ## Nested snapshots -/

/-- What was logged before a snapshot and inside it leads back further once the snapshot is
committed, as long as another one is open. -/
theorem LeadsBack.commit (h : LeadsBack t t0) (hopen : t.openSnapshots ≠ 0)
    (h' : LeadsBack t0.snapshot.2 t') : LeadsBack t t'.commit := by
  have hcount : t'.openSnapshots - 1 = t0.openSnapshots := by
    rw [h'.openSnapshots_eq]
    rfl
  have hcommit : t'.commit = { t' with openSnapshots := t0.openSnapshots } := by
    rw [Table.commit, hcount, if_neg (h.openSnapshots_eq ▸ hopen)]
  obtain ⟨added, hlog, hundo⟩ := h'
  refine h.trans ⟨added, by rw [hcommit]; exact hlog, ?_⟩
  rw [hcommit, foldl_undo_withSnapshots, hundo]
  rfl

/-- **A table inside snapshots.** The log leads back to the table that the newest one was taken of,
which is inside the others; outside all of them something else is known. -/
inductive Nested (Outside : Table → Prop) : List Table → Table → Prop
  | outside {t : Table} (h : Outside t) : Nested Outside [] t
  | inside {σ : List Table} {t0 t : Table} (h : Nested Outside σ t0)
    (hback : LeadsBack t0.snapshot.2 t) : Nested Outside (t0 :: σ) t

/-- What is known outside survives single changes and the commit of the only snapshot. -/
structure Survives (Outside : Table → Prop) : Prop where
  moves : ∀ {t t'}, Outside t → Moves t t' → Outside t'
  commit : ∀ {t t'}, Outside t → LeadsBack t.snapshot.2 t' → Outside t'.commit

/-- Inside a further snapshot, which the log leads back to. -/
theorem survives_leadsBack (hopen : t.openSnapshots ≠ 0) : Survives (LeadsBack t) where
  moves h hmoves := h.trans (hmoves.leadsBack (h.openSnapshots_eq ▸ hopen))
  commit h h' := h.commit hopen h'

/-- No snapshot is open, and nothing is logged. -/
def Unlogged (t : Table) : Prop :=
  t.openSnapshots = 0 ∧ t.log = []

theorem Unlogged.record (h : t.Unlogged) : (t.record c).Unlogged := by
  rwa [Table.record, if_pos h.1]

theorem survives_unlogged : Survives Unlogged where
  moves h hmoves := by
    induction hmoves with
    | refl => exact h
    | newVariable _ ih | setParent _ _ _ ih | raiseRank _ _ ih | setBinding _ _ _ ih =>
      exact Unlogged.record ⟨ih.1, ih.2⟩
  commit h h' := by
    have hcount := h'.openSnapshots_eq
    simp only [snapshot, h.1] at hcount
    simp [Unlogged, Table.commit, hcount]

namespace Nested

variable {Outside : Table → Prop} {σ : List Table} {t0 : Table}

/-- Single changes stay inside the snapshots. -/
theorem moves (hsurvives : Survives Outside) (h : Nested Outside σ t) (hmoves : Moves t t') :
    Nested Outside σ t' := by
  cases h with
  | outside h => exact .outside (hsurvives.moves h hmoves)
  | inside h hback =>
    exact .inside h ((survives_leadsBack (Nat.succ_ne_zero _)).moves hback hmoves)

theorem commit (hsurvives : Survives Outside) (h : Nested Outside (t0 :: σ) t) :
    Nested Outside σ t.commit := by
  cases h with
  | inside h hback =>
    cases h with
    | outside h => exact .outside (hsurvives.commit h hback)
    | inside h hback' => exact .inside h (hback'.commit (Nat.succ_ne_zero _) hback)

/-- The open snapshots are counted. -/
theorem openSnapshots_eq (h : Nested Unlogged σ t) : t.openSnapshots = σ.length := by
  induction h with
  | outside h => exact h.1
  | inside _ hback ih => rw [hback.openSnapshots_eq, length_cons, ← ih]; rfl

/-- A rollback of the newest snapshot gives the table that it was taken of. -/
theorem rollback_eq (h : Nested Outside (t0 :: σ) t) : t.rollback t0.snapshot.1 = t0 := by
  cases h with
  | inside _ hback => exact hback.rollback

theorem rollback (h : Nested Outside (t0 :: σ) t) :
    Nested Outside σ (t.rollback t0.snapshot.1) := by
  rw [h.rollback_eq]
  cases h with
  | inside h _ => exact h

end Nested

/-! ## Operations are single changes -/

theorem moves_compress : ∀ n t v, Moves t (compress n t v).2
  | 0, _, _ => .refl
  | n + 1, t, v => by
    have ih := moves_compress n t (t.parents.getD v v)
    rw [compress]
    simp only
    split
    · exact .refl
    · split
      · exact ih
      · exact ih.setParent _ _

theorem moves_find (t : Table) (v : TyVar) : Moves t (t.find v).2 :=
  moves_compress t.size t v

theorem moves_bind (t : Table) (v : TyVar) (ty : Ty) : Moves t (t.bind v ty) :=
  (moves_find t v).setBinding _ _

theorem moves_link (t : Table) (child root : TyVar) : Moves t (t.link child root) := by
  have hparent : Moves t (t.setParent child root) := .setParent .refl child root
  rw [link]
  split
  · exact hparent.trans (moves_bind _ _ _)
  · exact hparent

theorem moves_union (t : Table) (a b : TyVar) : Moves t (t.union a b).2 := by
  have hfind : Moves t ((t.find a).2.find b).2 := (moves_find t a).trans (moves_find _ b)
  rw [union]
  simp only
  split
  · exact hfind
  · split
    · exact hfind.trans (moves_link _ _ _)
    · exact hfind.trans (moves_link _ _ _)
    · exact (hfind.raiseRank _).trans (moves_link _ _ _)

end Table

/-! ## Sessions -/

open Table (Moves Nested Survives)

/-- A call that has nothing to do with snapshots. -/
inductive Op where
  | newVariable
  | find (v : TyVar)
  | probe (v : TyVar)
  | union (a b : TyVar)
  | bind (v : TyVar) (ty : Ty)

namespace Op

/-- The variables that a call is about. -/
def vars : Op → List TyVar
  | newVariable => []
  | find v | probe v | bind v _ => [v]
  | union a b => [a, b]

/-- The table after a call. -/
def apply (t : Table) : Op → Table
  | newVariable => t.newVariable.2
  | find v => (t.find v).2
  | probe v => (t.probe v).2
  | union a b => (t.union a b).2
  | bind v ty => t.bind v ty

/-- The table after a call, unless it is about a variable that the table does not hold. -/
def run? (t : Table) (op : Op) : Option Table :=
  if ∀ v ∈ op.vars, v < t.size then some (op.apply t) else none

theorem run?_eq_some {op : Op} :
    op.run? t = some t' ↔ (∀ v ∈ op.vars, v < t.size) ∧ t' = op.apply t := by
  rw [run?, Option.ite_none_right_eq_some, Option.some_inj, eq_comm]

theorem moves_apply (t : Table) (op : Op) : Moves t (op.apply t) := by
  cases op with
  | newVariable => exact .newVariable .refl
  | find v | probe v => exact Table.moves_find t v
  | union a b => exact Table.moves_union t a b
  | bind v ty => exact Table.moves_bind t v ty

end Op

/-- A call on a table. -/
inductive Call where
  | op (op : Op)
  | snapshot
  | commit
  | rollback

/-- A table and its open snapshots, newest first. -/
structure Session where
  table : Table
  snapshots : List Snapshot := []

namespace Session

/-- One call. Only the newest snapshot can be committed or rolled back. -/
def step? : Session → Call → Option Session
  | s, .op op => (op.run? s.table).map ({ s with table := · })
  | s, .snapshot => some ⟨s.table.snapshot.2, s.table.snapshot.1 :: s.snapshots⟩
  | ⟨t, _ :: rest⟩, .commit => some ⟨t.commit, rest⟩
  | ⟨t, mark :: rest⟩, .rollback => some ⟨t.rollback mark, rest⟩
  | ⟨_, []⟩, .commit | ⟨_, []⟩, .rollback => none

/-- Several calls. -/
def run? (s : Session) (calls : List Call) : Option Session :=
  calls.foldlM step? s

variable {Outside : Table → Prop} {s s' : Session} {call : Call} {calls : List Call}

/-- Every snapshot was taken of a table, and the log leads back to the newest of these. -/
def Tracked (Outside : Table → Prop) (s : Session) : Prop :=
  ∃ σ, s.snapshots = σ.map (·.snapshot.1) ∧ Nested Outside σ s.table

theorem Tracked.step (hsurvives : Survives Outside) (h : s.Tracked Outside)
    (hstep : s.step? call = some s') : s'.Tracked Outside := by
  obtain ⟨t, marks⟩ := s
  obtain ⟨σ, rfl, hnested⟩ := h
  cases call with
  | op op =>
    obtain ⟨t', hrun, rfl⟩ := Option.map_eq_some_iff.1 hstep
    obtain ⟨-, rfl⟩ := Op.run?_eq_some.1 hrun
    exact ⟨σ, rfl, hnested.moves hsurvives (Op.moves_apply t op)⟩
  | snapshot =>
    cases hstep
    exact ⟨t :: σ, rfl, .inside hnested ⟨[], rfl, rfl⟩⟩
  | commit =>
    cases σ with
    | nil => cases hstep
    | cons t0 σ =>
      cases hstep
      exact ⟨σ, rfl, hnested.commit hsurvives⟩
  | rollback =>
    cases σ with
    | nil => cases hstep
    | cons t0 σ =>
      cases hstep
      exact ⟨σ, rfl, hnested.rollback⟩

theorem Tracked.run (hsurvives : Survives Outside) (h : s.Tracked Outside)
    (hrun : s.run? calls = some s') : s'.Tracked Outside := by
  induction calls generalizing s with
  | nil =>
    cases hrun
    exact h
  | cons call calls ih =>
    rw [run?, foldlM_cons, Option.bind_eq_bind, Option.bind_eq_some_iff] at hrun
    obtain ⟨s1, hstep, hrun⟩ := hrun
    exact ih (h.step hsurvives hstep) hrun

theorem tracked_outside (h : Outside t) : Tracked Outside ⟨t, []⟩ :=
  ⟨[], rfl, .outside h⟩

/-- **A rollback is exact and a commit shows nothing.** Whatever calls are made after a snapshot,
with further snapshots as long as they are closed again, a rollback gives the table that it was
taken of. A commit in between keeps links, ranks and bindings, and the rollback takes them back all
the same. Whenever no snapshot is open, nothing is logged. -/
theorem rollback_exact :
    (∀ (t : Table) (calls : List Call) (s : Session),
      run? ⟨t.snapshot.2, []⟩ calls = some s → s.snapshots = [] →
        s.table.rollback t.snapshot.1 = t) ∧
    (∀ (t : Table) (calls : List Call) (s s' : Session),
      run? ⟨t.snapshot.2, []⟩ calls = some s → s.step? .commit = some s' →
        s'.table.parents = s.table.parents ∧ s'.table.ranks = s.table.ranks ∧
          s'.table.bindings = s.table.bindings ∧
          (s'.snapshots = [] → s'.table.rollback t.snapshot.1 = t)) ∧
    ∀ (calls : List Call) (s : Session), run? ⟨{}, []⟩ calls = some s →
      s.table.openSnapshots = s.snapshots.length ∧
        (s.table.openSnapshots = 0 → s.table.log = []) := by
  have hback : ∀ {t : Table} {s : Session}, s.Tracked (Table.LeadsBack t.snapshot.2) →
      s.snapshots = [] → s.table.rollback t.snapshot.1 = t := by
    rintro t s ⟨σ, hσ, hnested⟩ hclosed
    rw [hclosed, eq_comm, map_eq_nil_iff] at hσ
    subst hσ
    cases hnested with
    | outside hback => exact hback.rollback
  have hinside : ∀ {t : Table} {calls : List Call} {s : Session},
      run? ⟨t.snapshot.2, []⟩ calls = some s → s.Tracked (Table.LeadsBack t.snapshot.2) :=
    (tracked_outside ⟨[], rfl, rfl⟩).run (Table.survives_leadsBack (Nat.succ_ne_zero _))
  refine ⟨fun t calls s hrun => hback (hinside hrun), fun t calls s s' hrun hstep => ?_,
    fun calls s hrun => ?_⟩
  · have hcommit := (hinside hrun).step (Table.survives_leadsBack (Nat.succ_ne_zero _)) hstep
    obtain ⟨u, _ | ⟨mark, rest⟩⟩ := s
    · cases hstep
    · cases hstep
      exact ⟨rfl, rfl, rfl, hback hcommit⟩
  · obtain ⟨σ, hσ, hnested⟩ := (tracked_outside ⟨rfl, rfl⟩).run Table.survives_unlogged hrun
    have hcount := hnested.openSnapshots_eq
    refine ⟨by rw [hσ, length_map, hcount], fun hzero => ?_⟩
    cases hnested with
    | outside h => exact h.2
    | inside => cases hcount.symm.trans hzero

/-- Two variables. Inside a snapshot they are merged with a third one; a binding is committed in a
snapshot of its own. -/
theorem rollback_exact_committed :
    let t : Table := Table.newVariable (Table.newVariable {}).2 |>.2
    let calls : List Call := [.op .newVariable, .op (.union 0 1), .snapshot, .op (.bind 1 .str),
      .op (.union 2 1), .commit, .op (.probe 2)]
    ∃ s, run? ⟨t.snapshot.2, []⟩ calls = some s ∧ s.table.binding? 2 = some .str ∧
      s.table.log.length = 5 ∧ s.table.rollback t.snapshot.1 = t := by
  intro t calls
  have hrun : (run? ⟨t.snapshot.2, []⟩ calls).map (fun s => (s.snapshots, s.table.binding? 2,
      s.table.log.length)) = some ([], some .str, 5) := by decide +kernel
  obtain ⟨s, hs, heq⟩ := Option.map_eq_some_iff.1 hrun
  obtain ⟨hclosed, heq⟩ := Prod.mk.inj heq
  obtain ⟨hbinding, hlog⟩ := Prod.mk.inj heq
  exact ⟨s, hs, hbinding, hlog, rollback_exact.1 t calls s hs hclosed⟩

end Session

variable {t : Table}

/-- Binding a root, found to occur in the type or not. -/
theorem leads_bindRoot (root : TyVar) (ty : Ty) : Leads Moves (bindRoot root ty) := by
  intro t
  rw [bindRoot]
  split
  · exact .refl
  · exact Table.moves_bind t root ty

theorem leads_widened (h : Leads Moves act) (expected found : Ty) :
    Leads Moves (widened expected found act) := by
  intro t
  have ht := h t
  rw [widened]
  split <;> rename_i heq <;> rw [heq] at ht <;> exact ht

theorem leads_eachPair {step : Ty → Ty → Solve Unit} (h : ∀ a b, Leads Moves (step a b)) :
    ∀ as bs, Leads Moves (eachPair step as bs)
  | [], _ | _ :: _, [] => fun _ => .refl
  | a :: as, b :: bs => Leads.bind Moves.trans (h a b) fun _ => leads_eachPair h as bs

theorem leads_unifyUpTo : ∀ n a b, Leads Moves (unifyUpTo n a b)
  | 0, _, _ => fun _ => .refl
  | n + 1, a, b => by
    intro t
    simp only [unifyUpTo]
    split
    · exact Table.moves_union t _ _
    · exact leads_bindRoot _ _ t
    · exact leads_bindRoot _ _ t
    · exact .refl
    · exact .refl
    · exact leads_widened (leads_unifyUpTo n _ _) _ _ t
    · split
      · exact leads_widened (Leads.bind Moves.trans (leads_eachPair (leads_unifyUpTo n) _ _)
          fun _ => leads_unifyUpTo n _ _) _ _ t
      · exact .refl
    · split
      · exact .refl
      · exact .refl

/-- **Unification only makes single changes,** also where it fails. -/
theorem leads_unify (a b : Ty) : Leads Moves (unify a b) := fun t =>
  leads_unifyUpTo (t.unifyDepth a b) a b t

end Sluice.Unify
