import Sluice.Proofs.Unify.Depth

/-!
# Unification does not depend on where variables stand

A table can be part of a greater one: its variables are there too, from some
place on, with the same links, ranks and bindings (`Copied`). Types are then
read in the greater table as in the smaller one, but for the numbers of the
variables. Where the smaller table stands on top, both can grow, and unification
does the same in both, whether it succeeds or fails (`unify_echoes`).
-/

namespace Sluice

open List

/-! ## Renamed types -/

namespace Ty

variable {ρ : TyVar → TyVar} {k : Nat} {ty a b : Ty}

/-- A type with other names for its variables. -/
def rename (ρ : TyVar → TyVar) (ty : Ty) : Ty :=
  ty.subst fun v => .var (ρ v)

/-- A type over variables that stand `k` places further up. -/
def shift (k : Nat) (ty : Ty) : Ty :=
  ty.rename (· + k)

theorem rename_rename (ρ ρ' : TyVar → TyVar) (ty : Ty) :
    (ty.rename ρ).rename ρ' = ty.rename fun v => ρ' (ρ v) :=
  subst_subst _ _ ty

theorem subst_shift (f : TyVar → Ty) (ty : Ty) :
    (ty.shift k).subst f = ty.subst fun v => f (v + k) :=
  subst_subst _ _ ty

theorem shift_subst (f : TyVar → Ty) (ty : Ty) :
    (ty.subst f).shift k = ty.subst fun v => (f v).shift k :=
  subst_subst _ _ ty

theorem subst_of_closed (h : ty.vars = []) (f : TyVar → Ty) : ty.subst f = ty := by
  conv_rhs => rw [← subst_var ty]
  refine subst_congr fun v hv => ?_
  rw [h] at hv
  exact nomatch hv

@[simp] theorem shift_var (v : TyVar) : (var v).shift k = var (v + k) := rfl

@[simp] theorem shift_fn (params : List Ty) (ret : Ty) :
    (fn params ret).shift k = fn (params.map (shift k)) (ret.shift k) := by
  rw [shift, rename, subst, substList_eq_map]
  rfl

/-- The way back. -/
theorem rename_shift (k : Nat) (ty : Ty) : (ty.shift k).rename (· - k) = ty := by
  rw [shift, rename_rename]
  simp only [Nat.add_sub_cancel]
  exact subst_var ty

theorem shift_injective (k : Nat) : Function.Injective (shift k) := by
  intro a b h
  rw [← rename_shift k a, ← rename_shift k b, h]

theorem mem_vars_shift : v + k ∈ (ty.shift k).vars ↔ v ∈ ty.vars := by
  rw [shift, rename, mem_vars_subst]
  constructor
  · rintro ⟨w, hw, hv⟩
    have heq : v + k = w + k := mem_singleton.1 hv
    rwa [Nat.add_right_cancel heq]
  · intro hv
    exact ⟨v, hv, mem_singleton.2 rfl⟩

theorem height_shift (k : Nat) (ty : Ty) : (ty.shift k).height = ty.height := by
  have hle : ∀ (ρ : TyVar → TyVar) (ty : Ty), (ty.rename ρ).height ≤ ty.height := fun ρ ty =>
    height_subst_le (m := 0) fun _ _ => Nat.le_refl 1
  refine Nat.le_antisymm (hle _ ty) ?_
  have hback := hle (· - k) (ty.shift k)
  rwa [rename_shift] at hback

theorem hasError_shift (k : Nat) (ty : Ty) : (ty.shift k).hasError = ty.hasError := by
  have hrename : ∀ (ρ : TyVar → TyVar) (ty : Ty), ty.hasError = false →
      (ty.rename ρ).hasError = false := fun ρ ty h => hasError_subst h fun _ _ => rfl
  cases h : ty.hasError with
  | false => exact hrename _ ty h
  | true =>
    by_contra hne
    have hback := hrename (· - k) _ (Bool.eq_false_iff.2 hne)
    rw [rename_shift, h] at hback
    cases hback

theorem isUnresolved_shift (k : Nat) (ty : Ty) : (ty.shift k).isUnresolved = ty.isUnresolved := by
  have hvars : (ty.shift k).vars.isEmpty = ty.vars.isEmpty := by
    rw [Bool.eq_iff_iff, List.isEmpty_iff, List.isEmpty_iff]
    constructor
    · intro h
      rw [eq_nil_iff_forall_not_mem] at h ⊢
      exact fun v hv => h (v + k) (mem_vars_shift.2 hv)
    · intro h
      rw [shift, rename, subst_of_closed h, h]
  rw [isUnresolved, isUnresolved, hvars, hasError_shift]

end Ty

namespace Unify

/-- A clash with other names for the variables. -/
def Clash.rename (ρ : TyVar → TyVar) : Clash → Clash
  | mismatch expected found => mismatch (expected.rename ρ) (found.rename ρ)
  | infinite v ty => infinite (ρ v) (ty.rename ρ)

namespace Table

variable {s t t' low : Table} {k : Nat} {v a b : TyVar} {ty : Ty}

/-! ## Copies -/

/-- **A table inside another one:** its variables stand there from `k` on. Ranks do not matter for
how types are read. -/
structure Copied (k : Nat) (s t : Table) : Prop where
  size_le : s.size + k ≤ t.size
  parent_eq : ∀ v < s.size, t.parent (v + k) = s.parent v + k
  kept_eq : ∀ v < s.size, t.kept (v + k) = (s.kept v).map (Ty.shift k)

/-- A table with more variables behind those of another one. -/
structure Extends (t t' : Table) : Prop where
  size_le : t.size ≤ t'.size
  parent_eq : ∀ v < t.size, t'.parent v = t.parent v
  kept_eq : ∀ v < t.size, t'.kept v = t.kept v

theorem Extends.refl (t : Table) : t.Extends t :=
  ⟨Nat.le.refl, fun _ _ => rfl, fun _ _ => rfl⟩

theorem Extends.trans (h : t.Extends t') (h' : t'.Extends t'') : t.Extends t'' where
  size_le := Nat.le_trans h.size_le h'.size_le
  parent_eq v hv := by
    rw [h'.parent_eq v (Nat.lt_of_lt_of_le hv h.size_le), h.parent_eq v hv]
  kept_eq v hv := by
    rw [h'.kept_eq v (Nat.lt_of_lt_of_le hv h.size_le), h.kept_eq v hv]

namespace Copied

variable (h : Copied k s t)
include h

/-- What stands in a table stays in it when variables are added. -/
theorem of_extends (h' : t.Extends t') : Copied k s t' := by
  have hlt : ∀ v < s.size, v + k < t.size := fun v hv =>
    Nat.lt_of_lt_of_le (Nat.add_lt_add_right hv k) h.size_le
  refine ⟨Nat.le_trans h.size_le h'.size_le, fun v hv => ?_, fun v hv => ?_⟩
  · rw [h'.parent_eq _ (hlt v hv), h.parent_eq v hv]
  · rw [h'.kept_eq _ (hlt v hv), h.kept_eq v hv]

theorem climb (hs : s.IsForest) (n : Nat) : ∀ v < s.size, t.climb n (v + k) = s.climb n v + k := by
  -- parents of variables of the copy stay in it, so the way up is the same
  induction n with
  | zero => exact fun _ _ => rfl
  | succ n ih =>
    intro v hv
    rw [IsForest.climb_succ, IsForest.climb_succ, h.parent_eq v hv]
    by_cases hp : s.parent v = v
    · rw [if_pos hp, hp, if_pos rfl]
    · rw [if_neg hp, if_neg fun heq => hp (Nat.add_right_cancel heq)]
      exact ih _ (hs.parent_lt v hv)

theorem root (hs : s.IsForest) (hv : v < s.size) : t.root (v + k) = s.root v + k := by
  have hle : s.size ≤ t.size := Nat.le_trans (Nat.le_add_right _ k) h.size_le
  rw [Table.root, h.climb hs t.size v hv, hs.climb_eq_root hle]

theorem binding? (hs : s.IsForest) (hv : v < s.size) :
    t.binding? (v + k) = (s.binding? v).map (Ty.shift k) := by
  rw [binding?_eq, h.root hs hv, h.kept_eq _ (hs.root_lt hv), binding?_eq]

theorem resolveVar (hs : s.Grounded) (n : Nat) :
    ∀ v < s.size, t.resolveVar n (v + k) = (s.resolveVar n v).shift k := by
  induction n with
  | zero => exact fun v hv => congrArg Ty.var (h.root hs.toIsForest hv)
  | succ n ih =>
    intro v hv
    rw [Table.resolveVar, Table.resolveVar, h.binding? hs.toIsForest hv]
    cases hb : s.binding? v with
    | none => exact congrArg Ty.var (h.root hs.toIsForest hv)
    | some ty =>
      simp only [Option.map_some]
      rw [Ty.subst_shift, Ty.shift_subst]
      exact Ty.subst_congr fun w hw => ih w (hs.binding_below v ty hb w hw)

/-- **Types are read in the greater table as in the smaller one.** -/
theorem resolve (hs : s.Grounded) (hty : ty.Below s.size) :
    t.resolve (ty.shift k) = (s.resolve ty).shift k := by
  have hle : s.size ≤ t.size := Nat.le_trans (Nat.le_add_right _ k) h.size_le
  rw [Table.resolve, Table.resolve, Ty.subst_shift, Ty.shift_subst]
  refine Ty.subst_congr fun v hv => ?_
  rw [h.resolveVar hs t.size v (hty v hv), hs.resolveVar_eq hle]

theorem shallow (hs : s.Grounded) (hty : ty.Below s.size) :
    t.shallow (ty.shift k) = (s.shallow ty).shift k := by
  cases ty with
  | var v =>
    have hv := hty.lt_of_var
    have hlt : v < t.size := Nat.lt_of_lt_of_le hv (Nat.le_trans (Nat.le_add_right _ k) h.size_le)
    obtain ⟨n, hn⟩ := Nat.exists_eq_succ_of_ne_zero (Nat.ne_zero_of_lt hlt)
    rw [hs.shallow_var hv, Ty.shift_var, Table.shallow, hn, shallowVar, h.binding? hs.toIsForest hv]
    cases hb : s.binding? v with
    | none => exact congrArg Ty.var (h.root hs.toIsForest hv)
    | some ty =>
      cases ty with
      | var w => exact absurd hb (hs.binding_ne_var v w)
      | _ => rfl
  | _ => rfl

theorem occurs (hs : s.Grounded) (hty : ty.Below s.size) (r : TyVar) :
    t.occurs (r + k) (ty.shift k) = s.occurs r ty := by
  rw [Table.occurs, Table.occurs, h.resolve hs hty, Bool.eq_iff_iff, contains_iff_mem,
    contains_iff_mem]
  exact Ty.mem_vars_shift

theorem mismatch (hs : s.Grounded) {a b} (ha : a.Below s.size) (hb : b.Below s.size) :
    t.mismatch (a.shift k) (b.shift k) = (s.mismatch a b).rename (· + k) := by
  rw [Table.mismatch, h.resolve hs ha, h.resolve hs hb]
  rfl

end Copied

/-! ## Tables on top -/

theorem getD_append_left {xs ys : Array α} (h : i < xs.size) :
    (xs ++ ys).getD i d = xs.getD i d := by
  rw [Array.getD_eq_getD_getElem?, Array.getElem?_append_left h, Array.getD_eq_getD_getElem?]

theorem getD_append_right (xs ys : Array α) (i : Nat) (d : α) :
    (xs ++ ys).getD (i + xs.size) d = ys.getD i d := by
  rw [Array.getD_eq_getD_getElem?, Array.getElem?_append_right (Nat.le_add_left _ _),
    Nat.add_sub_cancel, Array.getD_eq_getD_getElem?]

/-- A table with a rank and a place for a binding for each variable. -/
structure Aligned (t : Table) : Prop where
  ranks_size : t.ranks.size = t.size
  bindings_size : t.bindings.size = t.size

/-- **A table on top of another one:** `t` has the variables of `low`, as they are there, and behind
them those of `s`. -/
structure Atop (low s t : Table) : Prop where
  low_aligned : low.Aligned
  parents_eq : t.parents = low.parents ++ s.parents.map (· + low.size)
  ranks_eq : t.ranks = low.ranks ++ s.ranks
  bindings_eq : t.bindings = low.bindings ++ s.bindings.map (Option.map (Ty.shift low.size))

namespace Atop

/-- Nothing is on top yet. -/
theorem start (h : low.Aligned) : Atop low {} low :=
  ⟨h, by simp, by simp, by simp⟩

variable (h : Atop low s t)
include h

theorem size_eq : t.size = s.size + low.size := by
  rw [size, h.parents_eq, Array.size_append, Array.size_map, Nat.add_comm]
  rfl

theorem aligned (hs : s.IsForest) : t.Aligned := by
  obtain ⟨hranks, hbindings⟩ := h.low_aligned
  refine ⟨?_, ?_⟩
  · rw [h.ranks_eq, Array.size_append, hranks, hs.ranks_size, h.size_eq, Nat.add_comm]
  · rw [h.bindings_eq, Array.size_append, Array.size_map, hbindings, hs.bindings_size, h.size_eq,
      Nat.add_comm]

theorem parent_eq (v : TyVar) : t.parent (v + low.size) = s.parent v + low.size := by
  rw [parent, h.parents_eq, size, getD_append_right]
  simp [parent]

theorem rank_eq (v : TyVar) : t.rank (v + low.size) = s.rank v := by
  rw [rank, h.ranks_eq, ← h.low_aligned.ranks_size, getD_append_right]
  rfl

theorem kept_eq (v : TyVar) : t.kept (v + low.size) = (s.kept v).map (Ty.shift low.size) := by
  rw [kept, h.bindings_eq, ← h.low_aligned.bindings_size, getD_append_right]
  simp only [kept, Array.getD_eq_getD_getElem?, Array.getElem?_map]
  cases s.bindings[v]? <;> rfl

theorem copied : Copied low.size s t :=
  ⟨Nat.le_of_eq h.size_eq.symm, fun v _ => h.parent_eq v, fun v _ => h.kept_eq v⟩

theorem base : low.Extends t where
  size_le := h.size_eq ▸ Nat.le_add_left _ _
  parent_eq v hv := by
    rw [parent, h.parents_eq, getD_append_left hv]
    rfl
  kept_eq v hv := by
    rw [kept, h.bindings_eq, getD_append_left (by rwa [h.low_aligned.bindings_size])]
    rfl

/-- Logs and snapshots make no difference. -/
theorem congr (hp : t'.parents = t.parents) (hr : t'.ranks = t.ranks)
    (hb : t'.bindings = t.bindings) : Atop low s t' :=
  ⟨h.low_aligned, hp.trans h.parents_eq, hr.trans h.ranks_eq, hb.trans h.bindings_eq⟩

theorem newVariable : Atop low s.newVariable.2 t.newVariable.2 := by
  refine ⟨h.low_aligned, ?_, ?_, ?_⟩
  · simp [Table.newVariable, h.parents_eq, h.size_eq]
  · simp [Table.newVariable, h.ranks_eq]
  · simp [Table.newVariable, h.bindings_eq]

theorem setParent (a b : TyVar) :
    Atop low (s.setParent a b) (t.setParent (a + low.size) (b + low.size)) := by
  refine ⟨h.low_aligned, ?_, ?_, ?_⟩
  · simp [Table.setParent, h.parents_eq, size]
  · simp [Table.setParent, h.ranks_eq]
  · simp [Table.setParent, h.bindings_eq]

theorem raiseRank (a : TyVar) : Atop low (s.raiseRank a) (t.raiseRank (a + low.size)) := by
  refine ⟨h.low_aligned, ?_, ?_, ?_⟩
  · simp [Table.raiseRank, h.parents_eq]
  · have hrank : t.ranks.getD (a + low.size) 0 = s.ranks.getD a 0 := h.rank_eq a
    simp only [Table.raiseRank, ranks_record, hrank]
    simp [h.ranks_eq, ← h.low_aligned.ranks_size]
  · simp [Table.raiseRank, h.bindings_eq]

theorem setBinding (a : TyVar) (ty : Ty) :
    Atop low (s.setBinding a ty) (t.setBinding (a + low.size) (ty.shift low.size)) := by
  refine ⟨h.low_aligned, ?_, ?_, ?_⟩
  · simp [Table.setBinding, h.parents_eq]
  · simp [Table.setBinding, h.ranks_eq]
  · simp [Table.setBinding, h.bindings_eq, ← h.low_aligned.bindings_size]

/-- A free root is one in the greater table too. -/
theorem kept_eq_none (ha : s.IsFree a) : t.kept (a + low.size) = none := by
  rw [h.kept_eq, ha.kept_eq]
  rfl

theorem parent_eq_self (hs : s.IsForest) (ha : s.IsFree a) :
    t.parent (a + low.size) = a + low.size := by
  rw [h.parent_eq, hs.parent_eq_of_root_eq ha.root_eq]

theorem union (hs : s.IsForest) (ha : s.IsFree a) (hb : s.IsFree b) :
    Atop low (s.union a b).2 (t.union (a + low.size) (b + low.size)).2 := by
  rw [union_eq (hs.parent_eq_of_root_eq ha.root_eq) (hs.parent_eq_of_root_eq hb.root_eq) ha.kept_eq
      hb.kept_eq,
    union_eq (h.parent_eq_self hs ha) (h.parent_eq_self hs hb) (h.kept_eq_none ha)
      (h.kept_eq_none hb), h.rank_eq, h.rank_eq]
  simp only [Nat.add_right_cancel_iff]
  split
  · exact h
  · split
    · exact h.setParent a b
    · split
      · exact h.setParent b a
      · exact (h.raiseRank a).setParent b a

end Atop

end Table

open Table

variable {s t low : Table} {a b ty : Ty}

/-! ## Unification on top -/

/-- **The same happens on top:** both runs succeed, or both fail with the same clash up to the place
of the variables, and in either case the one table still stands on top. -/
def Echoes (low : Table) : EStateM.Result Clash Table Unit → EStateM.Result Clash Table Unit → Prop
  | .ok _ s, .ok _ t => Atop low s t
  | .error e s, .error e' t => e' = e.rename (· + low.size) ∧ Atop low s t
  | _, _ => False

theorem Echoes.ok_or_error (h : Echoes low r r') :
    (∃ s t, r = .ok () s ∧ r' = .ok () t ∧ Atop low s t) ∨
      ∃ e s t, r = .error e s ∧ r' = .error (e.rename (· + low.size)) t ∧ Atop low s t := by
  cases r with
  | ok u s =>
    cases r' with
    | ok u' t => exact .inl ⟨s, t, rfl, rfl, h⟩
    | error e' t => exact h.elim
  | error e s =>
    cases r' with
    | ok u' t => exact h.elim
    | error e' t =>
      obtain ⟨rfl, hatop⟩ := h
      exact .inr ⟨e, s, t, rfl, rfl, hatop⟩

theorem Echoes.bind {x y x' y' : Solve Unit} (h : Echoes low (x s) (x' t))
    (hnext : ∀ s1 t1, x s = .ok () s1 → Atop low s1 t1 → Echoes low (y s1) (y' t1)) :
    Echoes low ((x >>= fun _ => y) s) ((x' >>= fun _ => y') t) := by
  simp only [Bind.bind, EStateM.bind]
  rcases h.ok_or_error with ⟨s1, t1, hx, hx', hatop⟩ | ⟨e, s1, t1, hx, hx', hatop⟩
  · rw [hx, hx']
    exact hnext s1 t1 hx hatop
  · rw [hx, hx']
    exact ⟨rfl, hatop⟩

/-- A clash of parts is reported with the types that they are parts of, as the table reads them
then. -/
theorem Echoes.widened {P : Ty → Prop} (h : Echoes low (act s) (act' t))
    (hadv : Advances P s (finalState (act s))) (ha : a.Below s.size) (hb : b.Below s.size) :
    Echoes low (widened a b act s) (widened (a.shift low.size) (b.shift low.size) act' t) := by
  rw [Unify.widened, Unify.widened]
  rcases h.ok_or_error with ⟨s1, t1, hact, hact', hatop⟩ | ⟨e, s1, t1, hact, hact', hatop⟩
  · rw [hact, hact']
    exact hatop
  · rw [hact] at hadv
    rw [hact, hact']
    rw [← hadv.size_eq] at ha hb
    cases e with
    | mismatch x y => exact ⟨hatop.copied.mismatch hadv.keeps.toGrounded ha hb, hatop⟩
    | infinite v ty => exact ⟨rfl, hatop⟩

theorem bindRoot_echoes (hs : s.Grounded) (h : Atop low s t) (hr : s.IsFree r)
    (hty : ty.Below s.size) :
    Echoes low (bindRoot r ty s) (bindRoot (r + low.size) (ty.shift low.size) t) := by
  rw [bindRoot, bindRoot, h.copied.occurs hs hty]
  split
  · refine ⟨?_, h⟩
    rw [h.copied.resolve hs hty]
    rfl
  · rw [Table.bind, Table.bind, find_of_parent_eq (hs.parent_eq_of_root_eq hr.root_eq),
      find_of_parent_eq (h.parent_eq_self hs.toIsForest hr)]
    exact h.setBinding r ty

/-- Two types with nothing inside to unify. -/
theorem agree_echoes (hs : s.Grounded) (h : Atop low s t) (ha : a.Below s.size)
    (hb : b.Below s.size) :
    Echoes low (if a = b then .ok () s else .error (s.mismatch a b) s)
      (if a.shift low.size = b.shift low.size then .ok () t
        else .error (t.mismatch (a.shift low.size) (b.shift low.size)) t) := by
  by_cases hab : a = b
  · rw [if_pos hab, if_pos (congrArg _ hab)]
    exact h
  · rw [if_neg hab, if_neg fun heq => hab (Ty.shift_injective _ heq)]
    exact ⟨h.copied.mismatch hs ha hb, h⟩

theorem eachPair_echoes {n : Nat}
    (hstep : ∀ {a b s t}, s.Grounded → a.Below s.size → b.Below s.size → Atop low s t →
      Echoes low (unifyUpTo n a b s)
        (unifyUpTo n (a.shift low.size) (b.shift low.size) t)) :
    ∀ (as bs : List Ty) {s t}, s.Grounded → (∀ a ∈ as, a.Below s.size) →
      (∀ b ∈ bs, b.Below s.size) → Atop low s t →
      Echoes low (eachPair (unifyUpTo n) as bs s)
        (eachPair (unifyUpTo n) (as.map (Ty.shift low.size)) (bs.map (Ty.shift low.size)) t)
  | [], _, s, t, _, _, _, h => h
  | _ :: _, [], s, t, _, _, _, h => h
  | a :: as, b :: bs, s, t, hs, has, hbs, h => by
    rw [map_cons, map_cons, eachPair, eachPair]
    obtain ⟨ha, has⟩ := forall_mem_cons.1 has
    obtain ⟨hb, hbs⟩ := forall_mem_cons.1 hbs
    refine (hstep hs ha hb h).bind fun s1 t1 hrun h1 => ?_
    have hadv := unifyUpTo_advances Ty.hereditary_true n hs.keeps (.of_below ha) (.of_below hb)
    rw [hrun] at hadv
    rw [← hadv.size_eq] at has hbs
    exact eachPair_echoes hstep as bs hadv.keeps.toGrounded has hbs h1

theorem unifyUpTo_echoes (n : Nat) : ∀ {a b : Ty} {s t}, s.Grounded → a.Below s.size →
    b.Below s.size → Atop low s t →
    Echoes low (unifyUpTo n a b s) (unifyUpTo n (a.shift low.size) (b.shift low.size) t) := by
  induction n with
  | zero => exact fun hs ha hb h => ⟨h.copied.mismatch hs ha hb, h⟩
  | succ n ih =>
    intro a b s t hs ha hb h
    have hsa := hs.shallow_below ha
    have hsb := hs.shallow_below hb
    have hfa := fun r => hs.isFree_of_shallow (r := r) ha
    have hfb := fun r => hs.isFree_of_shallow (r := r) hb
    -- a type and the same type further up have the same form, so both runs take the same branch
    simp only [unifyUpTo, h.copied.shallow hs ha, h.copied.shallow hs hb]
    generalize s.shallow a = x at hsa hfa ⊢
    generalize s.shallow b = y at hsb hfb ⊢
    cases x with
    | var v =>
      cases y with
      | var w => exact h.union hs.toIsForest (hfa v rfl) (hfb w rfl)
      | _ => exact bindRoot_echoes hs h (hfa v rfl) hsb
    | error =>
      cases y with
      | var w => exact bindRoot_echoes hs h (hfb w rfl) hsa
      | _ => exact h
    | list x =>
      cases y with
      | var w => exact bindRoot_echoes hs h (hfb w rfl) hsa
      | error => exact h
      | list y =>
        have hx : x.Below s.size := hsa
        have hy : y.Below s.size := hsb
        exact (ih hs hx hy h).widened (unifyUpTo_advances Ty.hereditary_true n hs.keeps
          (.of_below hx) (.of_below hy)) hsa hsb
      | prim | record | fn => exact agree_echoes hs h hsa hsb
    | fn ps r =>
      cases y with
      | var w => exact bindRoot_echoes hs h (hfb w rfl) hsa
      | error => exact h
      | fn qs q =>
        obtain ⟨hps, hr⟩ := Ty.Below.fn_iff.1 hsa
        obtain ⟨hqs, hq⟩ := Ty.Below.fn_iff.1 hsb
        simp only [Ty.shift_fn, length_map]
        rw [← Ty.shift_fn, ← Ty.shift_fn]
        split
        · have hstep := fun {a b s} => unifyUpTo_advances (a := a) (b := b) (t := s)
            Ty.hereditary_true n
          refine Echoes.widened ((eachPair_echoes ih ps qs hs hps hqs h).bind
            fun s1 t1 hrun h1 => ?_) (eachPair_bind_advances Ty.hereditary_true hstep hs.keeps
              (.of_below hsa) (.of_below hsb)) hsa hsb
          -- the results are unified in the table that the parameters have left
          have hadv := eachPair_advances hstep ps qs hs.keeps (fun p hp => .of_below (hps p hp))
            fun q hq => .of_below (hqs q hq)
          rw [hrun] at hadv
          rw [← hadv.size_eq] at hr hq
          exact ih hadv.keeps.toGrounded hr hq h1
        · exact ⟨h.copied.mismatch hs hsa hsb, h⟩
      | prim | record | list => exact agree_echoes hs h hsa hsb
    | prim | record =>
      cases y with
      | var w => exact bindRoot_echoes hs h (hfb w rfl) hsa
      | error => exact h
      | _ => exact agree_echoes hs h hsa hsb

/-- **Unification does not depend on where variables stand:** on top of a table it does the same as
alone. -/
theorem unify_echoes (hs : s.Grounded) (ha : a.Below s.size) (hb : b.Below s.size)
    (h : Atop low s t) :
    Echoes low (unify a b s) (unify (a.shift low.size) (b.shift low.size) t) := by
  -- the depth that the greater table calls for is more than enough for the smaller one
  let m := max t.bindingHeight (max (a.shift low.size).height (b.shift low.size).height)
  have hkeeps : s.Keeps fun ty => ty.height ≤ m := by
    refine ⟨hs, fun v ty hv => ?_⟩
    have hbound := h.copied.binding? hs.toIsForest (hs.lt_of_binding? hv)
    rw [hv, Option.map_some] at hbound
    have hle := height_le_bindingHeight hbound
    rw [Ty.height_shift] at hle
    exact Nat.le_trans hle (Nat.le_max_left _ _)
  have ham : a.height ≤ m := by
    rw [← Ty.height_shift low.size a]
    exact Nat.le_trans (Nat.le_max_left _ _) (Nat.le_max_right _ _)
  have hbm : b.height ≤ m := by
    rw [← Ty.height_shift low.size b]
    exact Nat.le_trans (Nat.le_max_right _ _) (Nat.le_max_right _ _)
  have hdepth : (s.size + 1) * (s.size + 1) * m ≤
      t.unifyDepth (a.shift low.size) (b.shift low.size) := by
    have hle : s.size + 1 ≤ t.size + 1 := by
      rw [h.size_eq]
      omega
    exact Nat.le_succ_of_le (Nat.mul_le_mul_right m (Nat.mul_le_mul hle hle))
  rw [← unifyUpTo_eq_unify_of_keeps hkeeps ⟨ha, ham⟩ ⟨hb, hbm⟩ hdepth]
  exact unifyUpTo_echoes _ hs ha hb h

end Unify

end Sluice
