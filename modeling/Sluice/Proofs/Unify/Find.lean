import Sluice.Proofs.Unify.Grounded

/-!
# Looking for a root anywhere

Looking for a root shortens the way to it: every variable passed is linked to
the root directly. Links still go up in rank, since the root has a greater rank
than anything below it, and every set keeps its root and its binding
(`Shortens`). So a search changes nothing that is read through the table, and
`Table.find` answers with `Table.root` (`IsForest.find_spec`).
-/

namespace Sluice.Unify.Table

variable {t t' : Table} {v w : TyVar}

/-! ## The bound on the hops -/

theorem compress_succ (n : Nat) (t : Table) (v : TyVar) :
    compress (n + 1) t v =
      if t.parent v = v then (v, t)
      else ((compress n t (t.parent v)).1,
        if (compress n t (t.parent v)).1 = t.parent v then (compress n t (t.parent v)).2
        else (compress n t (t.parent v)).2.setParent v (compress n t (t.parent v)).1) :=
  rfl

/-- One more hop than there are variables above changes nothing. -/
theorem IsForest.compress_stable (ht : t.IsForest) (n : Nat) (v : TyVar)
    (h : (t.above v).card ≤ n) : compress n t v = compress (n + 1) t v := by
  induction n generalizing v with
  | zero =>
    by_cases hv : t.parent v = v
    · rw [compress_of_parent_eq hv, compress_of_parent_eq hv]
    · have := ht.card_above_parent_lt hv
      omega
  | succ n ih =>
    by_cases hv : t.parent v = v
    · rw [compress_of_parent_eq hv, compress_of_parent_eq hv]
    · have hlt := ht.card_above_parent_lt hv
      have hparent := ih (t.parent v) (by omega)
      rw [compress_succ, compress_succ (n + 1), ← hparent]

/-- **Looking for a root** ends at once, or goes on at the parent and then shortens the link. -/
theorem IsForest.find_eq (ht : t.IsForest) (v : TyVar) :
    t.find v =
      if t.parent v = v then (v, t)
      else ((t.find (t.parent v)).1,
        if (t.find (t.parent v)).1 = t.parent v then (t.find (t.parent v)).2
        else (t.find (t.parent v)).2.setParent v (t.find (t.parent v)).1) := by
  have hstable := ht.compress_stable t.size v (card_above_le t v)
  rw [find, hstable, compress_succ]
  rfl

/-! ## Shortened ways -/

/-- A table in which ways to a root got shorter: variables, sets, ranks and bindings are the
same. -/
structure Shortens (t t' : Table) : Prop where
  isForest : t'.IsForest
  size_eq : t'.size = t.size
  root_eq : ∀ v, t'.root v = t.root v
  rank_eq : ∀ v, t'.rank v = t.rank v
  kept_eq : ∀ v, t'.kept v = t.kept v

namespace Shortens

theorem refl (ht : t.IsForest) : Shortens t t :=
  ⟨ht, rfl, fun _ => rfl, fun _ => rfl, fun _ => rfl⟩

theorem trans (h : Shortens t t') (h' : Shortens t' t'') : Shortens t t'' where
  isForest := h'.isForest
  size_eq := h'.size_eq.trans h.size_eq
  root_eq v := (h'.root_eq v).trans (h.root_eq v)
  rank_eq v := (h'.rank_eq v).trans (h.rank_eq v)
  kept_eq v := (h'.kept_eq v).trans (h.kept_eq v)

theorem binding?_eq (h : Shortens t t') (v : TyVar) : t'.binding? v = t.binding? v := by
  rw [Table.binding?_eq, h.root_eq, h.kept_eq, Table.binding?_eq]

theorem grounded (h : Shortens t t') (ht : t.Grounded) : t'.Grounded :=
  ht.of_same h.isForest (Nat.le_of_eq h.size_eq.symm) h.root_eq h.binding?_eq

end Shortens

namespace IsForest

/-- A root has a greater rank than everything below it. -/
theorem rank_lt_root (ht : t.IsForest) : t.parent v ≠ v → t.rank v < t.rank (t.root v) := by
  induction v using ht.induct with
  | step v ih =>
    intro hv
    have hrank := ht.rank_lt v hv
    rw [← ht.root_parent v]
    by_cases hp : t.parent (t.parent v) = t.parent v
    · rwa [ht.root_of_parent_eq hp]
    · have := ih hv hp
      omega

/-- Linking a variable directly to its root moves nothing to another set. -/
theorem root_setParent_root (ht : t.IsForest) (hv : t.parent v ≠ v) (w : TyVar) :
    (t.setParent v (t.root v)).root w = t.root w := by
  have hlt := lt_of_parent_ne hv
  have ht' := ht.setParent hlt (ht.root_lt hlt) (ht.rank_lt_root hv)
  induction w using ht'.induct with
  | step w ih =>
    rw [parent_setParent hlt] at ih
    rw [ht'.root_eq, parent_setParent hlt]
    by_cases hw : w = v
    · subst hw
      simp only [if_true] at ih ⊢
      split
      · rename_i hroot
        exact hroot.symm
      · rename_i hne
        rw [ih hne, ht.root_root]
    · simp only [if_neg hw] at ih ⊢
      rw [ht.root_eq w]
      split
      · rfl
      · rename_i hne
        exact ih hne

theorem shortens_setParent (ht : t.IsForest) (hv : t.parent v ≠ v) :
    Shortens t (t.setParent v (t.root v)) where
  isForest := ht.setParent (lt_of_parent_ne hv) (ht.root_lt (lt_of_parent_ne hv))
    (ht.rank_lt_root hv)
  size_eq := size_setParent t v _
  root_eq := ht.root_setParent_root hv
  rank_eq w := rank_setParent t v _ w
  kept_eq w := kept_setParent t v _ w

/-- **A search finds the root,** and all it does to the table is to shorten ways. -/
theorem find_spec (ht : t.IsForest) (v : TyVar) :
    (t.find v).1 = t.root v ∧ Shortens t (t.find v).2 := by
  induction v using ht.induct with
  | step v ih =>
    by_cases hv : t.parent v = v
    · rw [find_of_parent_eq hv]
      exact ⟨(ht.root_of_parent_eq hv).symm, .refl ht⟩
    · obtain ⟨hroot, hshort⟩ := ih hv
      rw [ht.find_eq v, if_neg hv]
      refine ⟨hroot.trans (ht.root_parent v), ?_⟩
      split
      · exact hshort
      · rename_i hne
        -- the way from the parent was shortened first, in which the variable itself had no part
        rw [hroot, ht.root_parent, ← hshort.root_eq v]
        by_cases hp : (t.find (t.parent v)).2.parent v = v
        · have hsame := hshort.isForest.root_of_parent_eq hp
          have hrank := ht.rank_lt_root hv
          rw [← hshort.root_eq v, hsame] at hrank
          exact absurd hrank (Nat.lt_irrefl _)
        · exact hshort.trans (hshort.isForest.shortens_setParent hp)

theorem find_fst (ht : t.IsForest) (v : TyVar) : (t.find v).1 = t.root v :=
  (ht.find_spec v).1

theorem shortens_find (ht : t.IsForest) (v : TyVar) : Shortens t (t.find v).2 :=
  (ht.find_spec v).2

end IsForest

end Sluice.Unify.Table
