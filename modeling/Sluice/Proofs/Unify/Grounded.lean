import Sluice.Proofs.Typing.Subst
import Sluice.Proofs.Unify.Forest
import Sluice.Unify.Solve

/-!
# Tables without cycles

In a grounded table no binding leads back to the variable it is bound to. The
bound on the hops in `Table.resolve` is then never met, and reading a variable is
described by one equation without it (`Grounded.resolve_var`). Nothing is said
about the error type: a grounded table may hold it. A free root can be bound to
a type that it does not occur in, and two free roots can be merged; the table
stays grounded, and one free set is gone.
-/

namespace Sluice

/-- A type that mentions only the first `size` variables. -/
def Ty.Below (size : Nat) (ty : Ty) : Prop :=
  ∀ v ∈ ty.vars, v < size

instance (size : Nat) (ty : Ty) : Decidable (ty.Below size) :=
  inferInstanceAs (Decidable (∀ v ∈ ty.vars, v < size))

namespace Ty.Below

variable {size size' : Nat} {ty : Ty}

theorem mono (h : ty.Below size) (hle : size ≤ size') : ty.Below size' :=
  fun v hv => Nat.lt_of_lt_of_le (h v hv) hle

theorem of_var (h : v < size) : (var v).Below size := by
  intro w hw
  rwa [List.mem_singleton.1 hw]

theorem lt_of_var (h : (var v).Below size) : v < size :=
  h v (List.mem_singleton.2 rfl)

/-- A type without variables. -/
theorem of_closed (h : ty.vars = []) : ty.Below size := by
  intro v hv
  rw [h] at hv
  exact nomatch hv

theorem fn_iff : (fn params ret).Below size ↔ (∀ p ∈ params, p.Below size) ∧ ret.Below size := by
  constructor
  · intro h
    refine ⟨fun p hp v hv => h v ?_, fun v hv => h v ?_⟩
    · exact List.mem_append_left _ (mem_varsList.2 ⟨p, hp, hv⟩)
    · exact List.mem_append_right _ hv
  · rintro ⟨hparams, hret⟩ v hv
    rw [vars, List.mem_append] at hv
    rcases hv with hv | hv
    · obtain ⟨p, hp, hv⟩ := mem_varsList.1 hv
      exact hparams p hp v hv
    · exact hret v hv

end Ty.Below

theorem Ty.Sound.below {ty : Ty} (h : ty.Sound size) : ty.Below size :=
  h.lt_of_mem

namespace Unify.Table

variable {t t' : Table} {v w a b r : TyVar} {ty : Ty}

/-- **A grounded table:** a forest whose bindings mention known variables only, are never just a
variable, and do not lead back to the variable they are bound to. -/
structure Grounded (t : Table) : Prop extends t.IsForest where
  binding_below : ∀ v ty, t.binding? v = some ty → ty.Below t.size
  binding_ne_var : ∀ v w, t.binding? v ≠ some (.var w)
  acyclic : ∃ level : TyVar → Nat, ∀ v ty, t.binding? v = some ty →
    ∀ w ∈ ty.vars, level (t.root w) < level (t.root v)

theorem grounded_empty : Grounded {} where
  ranks_size := rfl
  bindings_size := rfl
  parent_lt v hv := absurd hv (Nat.not_lt_zero v)
  rank_lt v hv := absurd (parent_of_size_le (Nat.zero_le v)) hv
  binding_below v ty h := by simp [binding?] at h
  binding_ne_var v w h := by simp [binding?] at h
  acyclic := ⟨fun _ => 0, fun v ty h => by simp [binding?] at h⟩

theorem binding?_congr (hp : t'.parents = t.parents) (hb : t'.bindings = t.bindings) (v : TyVar) :
    t'.binding? v = t.binding? v := by
  rw [binding?, binding?, root_congr hp, hb]

/-- A forest with the same sets and the same bindings as a grounded table is grounded. -/
theorem Grounded.of_same (ht : t.Grounded) (hf : t'.IsForest) (hsize : t.size ≤ t'.size)
    (hroot : ∀ v, t'.root v = t.root v) (hbinding : ∀ v, t'.binding? v = t.binding? v) :
    t'.Grounded := by
  refine ⟨hf, fun v ty h => (ht.binding_below v ty (hbinding v ▸ h)).mono hsize, fun v w => ?_, ?_⟩
  · rw [hbinding]
    exact ht.binding_ne_var v w
  · obtain ⟨level, hlevel⟩ := ht.acyclic
    refine ⟨level, fun v ty h w hw => ?_⟩
    rw [hroot, hroot]
    exact hlevel v ty (hbinding v ▸ h) w hw

/-- Two tables with the same links and bindings are equally grounded. -/
theorem Grounded.congr (ht : t.Grounded) (hf : t'.IsForest) (hp : t'.parents = t.parents)
    (hb : t'.bindings = t.bindings) : t'.Grounded :=
  ht.of_same hf (Nat.le_of_eq (by rw [size, size, hp])) (root_congr hp) (binding?_congr hp hb)

/-! ## Reading types through a table -/

/-- The sets that are below that of a variable. -/
def below (t : Table) (level : TyVar → Nat) (v : TyVar) : Finset TyVar :=
  (Finset.range t.size).filter fun u => level u < level (t.root v)

theorem card_below_lt (ht : t.IsForest) (hw : w < t.size)
    (h : level (t.root w) < level (t.root v)) : (t.below level w).card < (t.below level v).card :=
  card_filter_range_lt (fun _ hu => Nat.lt_trans hu h) (ht.root_lt hw) h (Nat.lt_irrefl _)

theorem card_below_lt_size (ht : t.IsForest) (level : TyVar → Nat) (hv : v < t.size) :
    (t.below level v).card < t.size := by
  have hlt := card_filter_range_lt (p := fun u => level u < level (t.root v)) (q := fun _ => True)
    (fun _ _ => trivial) (ht.root_lt hv) trivial (Nat.lt_irrefl _)
  rwa [Finset.filter_true, Finset.card_range] at hlt

/-- One more hop than there are sets below changes nothing. -/
theorem resolveVar_stable (ht : t.Grounded)
    (hlevel : ∀ v ty, t.binding? v = some ty → ∀ w ∈ ty.vars, level (t.root w) < level (t.root v))
    (n : Nat) (v : TyVar) (h : (t.below level v).card < n) :
    t.resolveVar n v = t.resolveVar (n + 1) v := by
  induction n generalizing v with
  | zero => omega
  | succ n ih =>
    rw [resolveVar, resolveVar]
    cases hb : t.binding? v with
    | none => rfl
    | some ty =>
      refine Ty.subst_congr fun w hw => ih w ?_
      have := card_below_lt ht.toIsForest (ht.binding_below v ty hb w hw) (hlevel v ty hb w hw)
      omega

theorem resolveVar_of_size_le (ht : t.IsForest) (h : t.size ≤ v) (n : Nat) :
    t.resolveVar n v = .var v := by
  have hb : t.binding? v = none := by
    cases hb : t.binding? v with
    | none => rfl
    | some ty => exact absurd (ht.lt_of_binding? hb) (Nat.not_lt_of_le h)
  cases n with
  | zero => rw [resolveVar, ht.root_of_size_le h]
  | succ n => rw [resolveVar, hb, ht.root_of_size_le h]

namespace Grounded

variable (ht : t.Grounded)
include ht

/-- More hops than there are variables change nothing. -/
theorem resolveVar_eq (hn : t.size ≤ n) (v : TyVar) : t.resolveVar n v = t.resolveVar t.size v := by
  obtain ⟨level, hlevel⟩ := ht.acyclic
  by_cases hv : v < t.size
  · have hcard := card_below_lt_size ht.toIsForest level hv
    induction n, hn using Nat.le_induction with
    | base => rfl
    | succ n hle ih =>
      rw [← resolveVar_stable ht hlevel n v (by omega)]
      exact ih
  · rw [resolveVar_of_size_le ht.toIsForest (Nat.le_of_not_lt hv),
      resolveVar_of_size_le ht.toIsForest (Nat.le_of_not_lt hv)]

/-- **Reading a variable** gives the root of its set or its binding, read in turn. -/
theorem resolve_var (v : TyVar) :
    t.resolve (.var v) = (t.binding? v).elim (.var (t.root v)) t.resolve := by
  rw [resolve, Ty.subst, ← ht.resolveVar_eq (Nat.le_succ t.size), resolveVar]
  cases t.binding? v <;> rfl

theorem resolve_root (v : TyVar) : t.resolve (.var (t.root v)) = t.resolve (.var v) := by
  rw [ht.resolve_var, ht.resolve_var, ht.binding?_root, ht.root_root]

/-- A variable from the outside: its binding, or the root of its set. -/
theorem shallow_var (hv : v < t.size) :
    t.shallow (.var v) = (t.binding? v).getD (.var (t.root v)) := by
  obtain ⟨n, hn⟩ := Nat.exists_eq_succ_of_ne_zero (Nat.ne_zero_of_lt hv)
  rw [shallow, hn, shallowVar]
  cases hb : t.binding? v with
  | none => rfl
  | some ty =>
    cases ty with
    | var w => exact absurd hb (ht.binding_ne_var v w)
    | _ => rfl

theorem shallow_below (hty : ty.Below t.size) : (t.shallow ty).Below t.size := by
  cases ty with
  | var v =>
    have hv := hty.lt_of_var
    rw [ht.shallow_var hv]
    cases hb : t.binding? v with
    | none => exact .of_var (ht.root_lt hv)
    | some ty => exact ht.binding_below v ty hb
  | _ => exact hty

theorem resolve_shallow (hty : ty.Below t.size) : t.resolve (t.shallow ty) = t.resolve ty := by
  cases ty with
  | var v =>
    rw [ht.shallow_var hty.lt_of_var, ht.resolve_var v]
    cases hb : t.binding? v with
    | none =>
      have hread := ht.resolve_root v
      rw [ht.resolve_var v, hb] at hread
      exact hread
    | some ty => rfl
  | _ => rfl

end Grounded

theorem resolve_eq_subst (t : Table) (ty : Ty) :
    t.resolve ty = ty.subst fun v => t.resolve (.var v) :=
  rfl

/-! ## Free roots -/

/-- A free root of the table. -/
structure IsFree (t : Table) (r : TyVar) : Prop where
  root_eq : t.root r = r
  lt_size : r < t.size
  unbound : t.binding? r = none

theorem IsFree.kept_eq (h : t.IsFree r) : t.kept r = none := by
  have := h.unbound
  rwa [binding?_eq, h.root_eq] at this

theorem Grounded.isFree_of_shallow (ht : t.Grounded) (hty : ty.Below t.size)
    (h : t.shallow ty = .var r) : t.IsFree r := by
  cases ty with
  | var v =>
    have hv := hty.lt_of_var
    rw [ht.shallow_var hv] at h
    cases hb : t.binding? v with
    | none =>
      rw [hb] at h
      cases h
      exact ⟨ht.root_root v, ht.root_lt hv, by rw [ht.binding?_root, hb]⟩
    | some ty =>
      rw [hb] at h
      exact absurd (hb.trans (congrArg some h)) (ht.binding_ne_var v r)
  | _ => cases h

/-- The free roots of a table. -/
def free (t : Table) : Finset TyVar :=
  (Finset.range t.size).filter fun v => t.root v = v ∧ t.binding? v = none

theorem mem_free : v ∈ t.free ↔ t.IsFree v := by
  simp only [free, Finset.mem_filter, Finset.mem_range]
  exact ⟨fun ⟨hlt, hroot, hb⟩ => ⟨hroot, hlt, hb⟩, fun h => ⟨h.lt_size, h.root_eq, h.unbound⟩⟩

theorem card_free_le (t : Table) : t.free.card ≤ t.size := by
  have hle := Finset.card_filter_le (Finset.range t.size)
    fun v => t.root v = v ∧ t.binding? v = none
  rwa [Finset.card_range] at hle

theorem free_congr (hp : t'.parents = t.parents) (hb : t'.bindings = t.bindings) :
    t'.free = t.free := by
  simp only [free, size, hp, root_congr hp, binding?_congr hp hb]

/-- Where a free root is gone and none is new, there are fewer. -/
theorem card_free_lt (hr : t.IsFree r) (hgone : ¬ t'.IsFree r)
    (h : ∀ v, t'.IsFree v → t.IsFree v) : t'.free.card < t.free.card := by
  refine Finset.card_lt_card ⟨fun v hv => mem_free.2 (h v (mem_free.1 hv)), fun hsub => ?_⟩
  exact hgone (mem_free.1 (hsub (mem_free.2 hr)))

/-! ## Binding a free root -/

theorem binding?_setBinding (ht : t.IsForest) (hr : r < t.size) (ty : Ty) (v : TyVar) :
    (t.setBinding r ty).binding? v = if t.root v = r then some ty else t.binding? v := by
  rw [binding?_eq, root_setBinding, kept_setBinding (by rwa [ht.bindings_size]), binding?_eq]

/-- Binding a free root to a type that it does not occur in keeps the table grounded. The new
levels are the heights of the variables as they are read afterwards. -/
theorem Grounded.setBinding (ht : t.Grounded) (hr : t.IsFree r) (hty : ty.Below t.size)
    (hvar : ∀ w, ty ≠ .var w) (hocc : r ∉ (t.resolve ty).vars) : (t.setBinding r ty).Grounded := by
  have hb := binding?_setBinding ht.toIsForest hr.lt_size ty
  refine ⟨ht.toIsForest.setBinding r ty, fun v ty' h => ?_, fun v w h => ?_, ?_⟩
  · rw [size_setBinding]
    rw [hb] at h
    split at h
    · cases h
      exact hty
    · exact ht.binding_below v ty' h
  · rw [hb] at h
    split at h
    · exact hvar w (Option.some.inj h)
    · exact ht.binding_ne_var v w h
  · let σ : TyVar → Ty := fun u => if u = r then t.resolve ty else .var u
    refine ⟨fun u => ((t.resolve (.var u)).subst σ).height, fun v ty' h w hw => ?_⟩
    simp only [root_setBinding, ht.resolve_root]
    rw [hb] at h
    split at h
    · rename_i hv
      cases h
      -- nothing below the new binding mentions the root, so it is read as before
      have hw' : (t.resolve (.var w)).subst σ = t.resolve (.var w) := by
        conv_rhs => rw [← Ty.subst_var (t.resolve (.var w))]
        refine Ty.subst_congr fun u hu => if_neg ?_
        rintro rfl
        exact hocc (Ty.mem_vars_subst.2 ⟨w, hw, hu⟩)
      have hv' : (t.resolve (.var v)).subst σ = t.resolve ty := by
        rw [← ht.resolve_root v, hv, ht.resolve_var, hr.unbound, hr.root_eq]
        exact if_pos rfl
      rw [hw', hv']
      exact Ty.height_lt_height_subst hw hvar
    · rw [ht.resolve_var v, h, Option.elim_some, resolve_eq_subst t ty', Ty.subst_subst]
      refine Ty.height_lt_height_subst (f := fun u => (t.resolve (.var u)).subst σ) hw
        fun u hu => ?_
      exact ht.binding_ne_var v u (hu ▸ h)

theorem card_free_setBinding (ht : t.IsForest) (hr : t.IsFree r) (ty : Ty) :
    (t.setBinding r ty).free.card < t.free.card := by
  have hb := binding?_setBinding ht hr.lt_size ty
  refine card_free_lt hr (fun hfree => ?_) fun v hv => ?_
  · have hnone := hfree.unbound
    rw [hb, if_pos hr.root_eq] at hnone
    cases hnone
  · have hroot := hv.root_eq
    have hlt := hv.lt_size
    have hnone := hv.unbound
    rw [root_setBinding] at hroot
    rw [size_setBinding] at hlt
    rw [hb] at hnone
    split at hnone
    · cases hnone
    · exact ⟨hroot, hlt, hnone⟩

/-! ## Merging free roots -/

theorem binding?_setParent (ht : t.IsForest) (ha : t.IsFree a) (hb : t.IsFree b)
    (hrank : t.rank a < t.rank b) (v : TyVar) : (t.setParent a b).binding? v = t.binding? v := by
  rw [binding?_eq, root_setParent ht ha.root_eq hb.root_eq ha.lt_size hb.lt_size hrank,
    kept_setParent]
  split
  · rename_i hv
    rw [binding?_eq, hv, ha.kept_eq, hb.kept_eq]
  · rw [binding?_eq]

/-- Linking one free root below another keeps the table grounded. -/
theorem Grounded.setParent (ht : t.Grounded) (ha : t.IsFree a) (hb : t.IsFree b)
    (hrank : t.rank a < t.rank b) : (t.setParent a b).Grounded := by
  have hbind := binding?_setParent ht.toIsForest ha hb hrank
  refine ⟨ht.toIsForest.setParent ha.lt_size hb.lt_size hrank, fun v ty h => ?_, fun v w => ?_, ?_⟩
  · rw [size_setParent]
    exact ht.binding_below v ty (hbind v ▸ h)
  · rw [hbind]
    exact ht.binding_ne_var v w
  · -- a moved set was free and stays free, so its height is that of a variable on either root
    have hheight : ∀ u, (t.resolve (.var ((t.setParent a b).root u))).height =
        (t.resolve (.var u)).height := by
      intro u
      rw [root_setParent ht.toIsForest ha.root_eq hb.root_eq ha.lt_size hb.lt_size hrank]
      split
      · rename_i hu
        rw [← ht.resolve_root u, hu, ht.resolve_var, ht.resolve_var, ha.unbound, hb.unbound]
        rfl
      · rw [ht.resolve_root]
    refine ⟨fun u => (t.resolve (.var u)).height, fun v ty h w hw => ?_⟩
    rw [hbind] at h
    simp only [hheight]
    rw [ht.resolve_var v, h, Option.elim_some]
    refine Ty.height_lt_height_subst (f := fun u => t.resolve (.var u)) hw fun u hu => ?_
    exact ht.binding_ne_var v u (hu ▸ h)

theorem card_free_setParent (ht : t.IsForest) (ha : t.IsFree a) (hb : t.IsFree b)
    (hrank : t.rank a < t.rank b) : (t.setParent a b).free.card < t.free.card := by
  have hroot := root_setParent ht ha.root_eq hb.root_eq ha.lt_size hb.lt_size hrank
  have hne : b ≠ a := by
    rintro rfl
    exact Nat.lt_irrefl _ hrank
  refine card_free_lt ha (fun hfree => ?_) fun v hv => ?_
  · have := hfree.root_eq
    rw [hroot, ha.root_eq, if_pos rfl] at this
    exact hne this
  · have hlt := hv.lt_size
    have hnone := hv.unbound
    have hv' := hv.root_eq
    rw [size_setParent] at hlt
    rw [binding?_setParent ht ha hb hrank] at hnone
    rw [hroot] at hv'
    split at hv'
    · -- only the upper root is its own root now
      rw [← hv']
      exact hb
    · exact ⟨hv', hlt, hnone⟩

theorem IsFree.raiseRank (hu : t.IsFree u) : (t.raiseRank a).IsFree u where
  root_eq := by rw [root_raiseRank, hu.root_eq]
  lt_size := by rw [size_raiseRank]; exact hu.lt_size
  unbound := by
    rw [binding?_congr (t := t) (by simp [Table.raiseRank]) (by simp [Table.raiseRank])]
    exact hu.unbound

theorem rank_lt_raiseRank (ht : t.IsForest) (ha : t.IsFree a) (hne : a ≠ b)
    (hrank : t.rank a = t.rank b) : (t.raiseRank a).rank b < (t.raiseRank a).rank a := by
  have hsize : a < t.ranks.size := by rw [ht.ranks_size]; exact ha.lt_size
  rw [rank_raiseRank hsize, rank_raiseRank hsize, if_neg (Ne.symm hne), if_pos rfl]
  omega

theorem link_of_kept_eq_none (ha : t.kept a = none) (hb : t.kept b = none) :
    t.link a b = t.setParent a b := by
  rw [kept] at ha hb
  simp only [link, setParent, bindings_record, ha, hb]

/-- **What merging two free roots comes down to:** nothing, or a link from one to the other, if
need be after the rank of the upper one was raised. -/
theorem union_eq (hpa : t.parent a = a) (hpb : t.parent b = b) (hka : t.kept a = none)
    (hkb : t.kept b = none) :
    (t.union a b).2 =
      if a = b then t
      else if t.rank a < t.rank b then t.setParent a b
      else if t.rank b < t.rank a then t.setParent b a
      else (t.raiseRank a).setParent b a := by
  simp only [union, find_of_parent_eq hpa, find_of_parent_eq hpb]
  split
  · rfl
  · split
    · rename_i hcmp
      rw [if_pos (show t.rank a < t.rank b from Nat.compare_eq_lt.1 hcmp),
        link_of_kept_eq_none hka hkb]
    · rename_i hcmp
      have hlt : t.rank b < t.rank a := Nat.compare_eq_gt.1 hcmp
      rw [if_neg (Nat.lt_asymm hlt), if_pos hlt, link_of_kept_eq_none hkb hka]
    · rename_i hcmp
      have heq : t.rank a = t.rank b := Nat.compare_eq_eq.1 hcmp
      have hkept : ∀ v, (t.raiseRank a).kept v = t.kept v := fun v => by simp [raiseRank, kept]
      rw [if_neg (by omega), if_neg (by omega),
        link_of_kept_eq_none (by rw [hkept, hkb]) (by rw [hkept, hka])]

/-- Cases of a merge: nothing happens, or a root goes below another one in a table with the same
links and bindings. -/
theorem union_cases (ht : t.IsForest) (ha : t.IsFree a) (hb : t.IsFree b)
    {P : Table → Prop} (hsame : a = b → P t)
    (hlink : ∀ t1 : Table, t1.IsForest → t1.parents = t.parents → t1.bindings = t.bindings →
      ∀ c d, (c = a ∧ d = b ∨ c = b ∧ d = a) → t1.IsFree c → t1.IsFree d →
      t1.rank c < t1.rank d → P (t1.setParent c d)) : P (t.union a b).2 := by
  rw [union_eq (ht.parent_eq_of_root_eq ha.root_eq) (ht.parent_eq_of_root_eq hb.root_eq) ha.kept_eq
    hb.kept_eq]
  split
  · rename_i hab
    exact hsame hab
  · rename_i hne
    split
    · rename_i hlt
      exact hlink t ht rfl rfl a b (.inl ⟨rfl, rfl⟩) ha hb hlt
    · split
      · rename_i hlt
        exact hlink t ht rfl rfl b a (.inr ⟨rfl, rfl⟩) hb ha hlt
      · exact hlink _ (ht.raiseRank (ht.parent_eq_of_root_eq ha.root_eq) ha.lt_size)
          (by simp [raiseRank]) (by simp [raiseRank]) b a (.inr ⟨rfl, rfl⟩) hb.raiseRank
          ha.raiseRank (rank_lt_raiseRank ht ha hne (by omega))

theorem Grounded.newVariable (ht : t.Grounded) : t.newVariable.2.Grounded :=
  ht.of_same ht.toIsForest.newVariable (by rw [size_newVariable]; omega)
    (root_newVariable ht.toIsForest) (binding?_newVariable ht.toIsForest)

end Unify.Table

end Sluice
