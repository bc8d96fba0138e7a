import Sluice.Proofs.Unify.Complete

/-!
# Linked tables

Two runs of unification on different tables are compared by which solutions of
the tables belong together. A link keeps to the variables that the tables have,
leaves no solution of the second table without a partner, and names one
solution of the first table that has a partner. Types that are the same under
linked solutions can be unified in the second table whenever they were unified
in the first, and the tables stay linked.
-/

namespace Sluice.Unify

open Table (Solves)

variable {t t' t1 : Table} {θ ψ φ : TyVar → Ty} {a b a' b' ty : Ty}

namespace Table

/-- Whether a table is solved depends on its own variables only. -/
theorem Solves.congr (ht : t.Sound) (h : Solves ψ t) (heq : ∀ v < t.size, φ v = ψ v) :
    Solves φ t := by
  intro v
  by_cases hv : v < t.size
  · rw [heq v hv, h v]
    cases hb : t.binding? v with
    | none => exact (heq _ (ht.toIsForest.root_lt hv)).symm
    | some bound =>
      exact Ty.subst_congr fun w hw => (heq w ((ht.binding_sound v bound hb).lt_of_mem w hw)).symm
  · have hfree : t.binding? v = none := by
      cases hb : t.binding? v with
      | none => rfl
      | some _ => exact absurd (ht.toIsForest.lt_of_binding? hb) hv
    rw [hfree, ht.toIsForest.root_of_size_le (Nat.not_lt.1 hv)]
    rfl

theorem Solves.newVariable (ht : t.Sound) (h : Solves ψ t) : Solves ψ t.newVariable.2 := by
  intro v
  rw [binding?_newVariable ht.toIsForest, root_newVariable ht.toIsForest]
  exact h v

end Table

/-! ## Links -/

/-- Which solutions of one table belong to which solutions of another. -/
abbrev Link := (TyVar → Ty) → (TyVar → Ty) → Prop

/-- Things that are the same under linked solutions, given how types are put into them. -/
def Link.Same {α : Type} (R : Link) (map : (Ty → Ty) → α → α) (x x' : α) : Prop :=
  ∀ ⦃ψ φ⦄, R ψ φ → map (Ty.subst ψ) x = map (Ty.subst φ) x'

/-- Types that are the same under linked solutions. -/
def Link.Alike (R : Link) (a a' : Ty) : Prop :=
  ∀ ⦃ψ φ⦄, R ψ φ → a.subst ψ = a'.subst φ

/-- A link that ties together no more than another does. -/
def Link.Narrows (R1 R : Link) : Prop :=
  ∀ ⦃ψ φ⦄, R1 ψ φ → R ψ φ

variable {R R1 R2 : Link}

theorem Link.Narrows.refl (R : Link) : R.Narrows R := fun _ _ h => h

theorem Link.Narrows.trans (h : R2.Narrows R1) (h' : R1.Narrows R) : R2.Narrows R :=
  fun _ _ hR => h' (h hR)

theorem Link.Alike.narrow (h : R.Alike a a') (hR : R1.Narrows R) : R1.Alike a a' :=
  fun _ _ h1 => h (hR h1)

theorem Link.Same.narrow {map : (Ty → Ty) → α → α} (h : R.Same map x x')
    (hR : R1.Narrows R) : R1.Same map x x' :=
  fun _ _ h1 => h (hR h1)

theorem Link.alike_prim (R : Link) (p : Prim) : R.Alike (.prim p) (.prim p) := fun _ _ _ => rfl

theorem Link.map_subst_eq (h : List.Forall₂ R.Alike as bs) (hR : R ψ φ) :
    as.map (·.subst ψ) = bs.map (·.subst φ) := by
  induction h with
  | nil => rfl
  | cons hab _ ih => rw [List.map_cons, List.map_cons, hab hR, ih]

theorem Link.forall₂_alike (hR : ∃ ψ φ, R ψ φ) :
    ∀ {as bs}, (∀ ⦃ψ φ⦄, R ψ φ → as.map (·.subst ψ) = bs.map (·.subst φ)) → List.Forall₂ R.Alike as bs
  | [], [], _ => .nil
  | [], _ :: _, h | _ :: _, [], h => by
    obtain ⟨ψ, φ, hR⟩ := hR
    cases h hR
  | _ :: _, _ :: _, h =>
    .cons (fun ψ φ hR => (List.cons.inj (h hR)).1)
      (forall₂_alike hR fun ψ φ hR => (List.cons.inj (h hR)).2)

theorem Link.Alike.fn (hparams : List.Forall₂ R.Alike params params')
    (hret : R.Alike ret ret') : R.Alike (.fn params ret) (.fn params' ret') := by
  intro ψ φ hR
  rw [Ty.subst, Ty.subst, hret hR, Ty.substList_eq_map, Ty.substList_eq_map,
    Link.map_subst_eq hparams hR]

/-- **Linked tables:** the link keeps to the variables that the tables have, every solution of the
second table has a partner, and `θ` has one too. The first `n` variables are fixed to what `θ` says
they are. -/
structure Linked (θ : TyVar → Ty) (n : Nat) (R : Link) (t t' : Table) : Prop where
  left_sound : t.Sound
  right_sound : t'.Sound
  size_le : n ≤ t.size
  left_solves : ∀ ⦃ψ φ⦄, R ψ φ → Solves ψ t
  right_solves : ∀ ⦃ψ φ⦄, R ψ φ → Solves φ t'
  total : ∀ φ, Solves φ t' → ∃ ψ, R ψ φ
  lifts : ∃ φ, R θ φ
  fixed : ∀ ⦃ψ φ⦄, R ψ φ → ∀ v < n, ψ v = θ v
  keeps : ∀ ⦃ψ φ⦄, R ψ φ → ∀ ⦃ψ1 φ1⦄, (∀ v < t.size, ψ1 v = ψ v) → (∀ v < t'.size, φ1 v = φ v) →
    R ψ1 φ1

namespace Linked

/-- Tables are linked if the first one has fixed variables only. -/
theorem start (ht : t.Sound) (ht' : t'.Sound) (hθ : Solves θ t) :
    Linked θ t.size (fun ψ φ => (∀ v < t.size, ψ v = θ v) ∧ Solves φ t') t t' where
  left_sound := ht
  right_sound := ht'
  size_le := Nat.le.refl
  left_solves _ _ h := hθ.congr ht h.1
  right_solves _ _ h := h.2
  total _ hφ := ⟨θ, fun _ _ => rfl, hφ⟩
  lifts := ⟨_, fun _ _ => rfl, ht'.solves_resolve⟩
  fixed _ _ h := h.1
  keeps _ _ h _ _ hψ hφ := ⟨fun v hv => (hψ v hv).trans (h.1 v hv), h.2.congr ht' hφ⟩

variable {n : Nat} (h : Linked θ n R t t')
include h

/-- What mentions fixed variables only is the same as what `θ` says it is. -/
theorem alike_fixed (hθ : ∀ v, (θ v).Sound 0) (hty : ty.Sound n) : R.Alike ty (ty.subst θ) := by
  intro ψ φ hR
  have hclosed : ∀ v, (θ v).subst φ = θ v := fun v => (hθ v).subst_of_closed φ
  rw [Ty.subst_subst]
  exact Ty.subst_congr fun v hv => by rw [hclosed, h.fixed hR v (hty.lt_of_mem v hv)]

/-- Only what the tables say matters, not how they came to say it. -/
theorem congr (hp : t1.parents = t.parents) (hr : t1.ranks = t.ranks)
    (hb : t1.bindings = t.bindings) (hp' : t1'.parents = t'.parents) (hr' : t1'.ranks = t'.ranks)
    (hb' : t1'.bindings = t'.bindings) : Linked θ n R t1 t1' := by
  have hsize : t1.size = t.size := congrArg Array.size hp
  have hsize' : t1'.size = t'.size := congrArg Array.size hp'
  exact {
    left_sound := (Table.refines_of_eq h.left_sound hp hr hb).sound
    right_sound := (Table.refines_of_eq h.right_sound hp' hr' hb').sound
    size_le := hsize ▸ h.size_le
    left_solves := fun ψ φ hR => (Table.solves_congr hp hb).2 (h.left_solves hR)
    right_solves := fun ψ φ hR => (Table.solves_congr hp' hb').2 (h.right_solves hR)
    total := fun φ hφ => h.total φ ((Table.solves_congr hp' hb').1 hφ)
    lifts := h.lifts
    fixed := h.fixed
    keeps := by rw [hsize, hsize']; exact h.keeps }

/-- The second table has a variable more. -/
theorem newVariable_right : Linked θ n R t t'.newVariable.2 where
  left_sound := h.left_sound
  right_sound := (Table.refines_newVariable h.right_sound).sound
  size_le := h.size_le
  left_solves := h.left_solves
  right_solves _ _ hR := (h.right_solves hR).newVariable h.right_sound
  total φ hφ := h.total φ ((Table.refines_newVariable h.right_sound).solves φ hφ)
  lifts := h.lifts
  fixed := h.fixed
  keeps _ _ hR _ _ hψ hφ := h.keeps hR hψ fun v hv =>
    hφ v (Nat.lt_of_lt_of_le hv (Table.refines_newVariable h.right_sound).size_le)

/-- The first table has more variables, and they stand for types of the second one. -/
theorem extend (ht1 : t.Refines t1) (hopen : ∀ ψ, Solves ψ t → Solves ψ t1)
    (x : TyVar → Ty) (hx : ∀ v, t.size ≤ v → v < t1.size → (x v).Sound t'.size)
    (hlifts : ∃ φ, R θ φ ∧ ∀ v, t.size ≤ v → v < t1.size → θ v = (x v).subst φ) :
    Linked θ n (fun ψ φ => R ψ φ ∧ ∀ v, t.size ≤ v → v < t1.size → ψ v = (x v).subst φ)
      t1 t' where
  left_sound := ht1.sound
  right_sound := h.right_sound
  size_le := Nat.le_trans h.size_le ht1.size_le
  left_solves ψ φ hR := hopen ψ (h.left_solves hR.1)
  right_solves ψ φ hR := h.right_solves hR.1
  total φ hφ := by
    obtain ⟨ψ, hR⟩ := h.total φ hφ
    -- variables that were there keep what they stand for
    refine ⟨fun v => if v < t.size then ψ v else (x v).subst φ, ?_, fun v hv _ => ?_⟩
    · exact h.keeps hR (fun v hv => if_pos hv) fun _ _ => rfl
    · exact if_neg (Nat.not_lt.2 hv)
  lifts := hlifts
  fixed ψ φ hR := h.fixed hR.1
  keeps ψ φ hR ψ1 φ1 hψ hφ := by
    refine ⟨h.keeps hR.1 (fun v hv => hψ v (Nat.lt_of_lt_of_le hv ht1.size_le)) hφ,
      fun v hv hlt => ?_⟩
    rw [hψ v hlt, hR.2 v hv hlt]
    exact Ty.subst_congr fun w hw => (hφ w ((hx v hv hlt).lt_of_mem w hw)).symm

/-- Both tables have a variable more, and the two belong together. -/
theorem newVariable : ∃ R1 : Link,
    Linked θ n R1 t.newVariable.2 t'.newVariable.2 ∧ R1.Narrows R ∧
      R1.Alike (.var t.size) (.var t'.size) := by
  obtain ⟨φ, hφ⟩ := h.lifts
  have hsize := Table.size_newVariable t
  have hlifts : ∃ φ, R θ φ ∧ ∀ v, t.size ≤ v → v < t.newVariable.2.size →
      θ v = (Ty.var t'.size).subst φ := by
    -- the partner of `θ` reads the new variable as `θ` reads that of the first table
    refine ⟨fun w => if w = t'.size then θ t.size else φ w,
      h.keeps hφ (fun _ _ => rfl) fun v hv => if_neg (Nat.ne_of_lt hv), fun v hv hlt => ?_⟩
    have heq : v = t.size := by omega
    rw [heq, Ty.subst, if_pos rfl]
  refine ⟨_, h.newVariable_right.extend (Table.refines_newVariable h.left_sound)
    (fun _ hψ => hψ.newVariable h.left_sound) (fun _ => .var t'.size)
    (fun _ _ _ => .of_var (by rw [Table.size_newVariable]; exact Nat.lt_succ_self _)) hlifts,
    fun ψ φ hR => hR.1, fun ψ φ hR => ?_⟩
  exact hR.2 t.size Nat.le.refl (by omega)

/-- Both tables know more, and what the second one learned is all that the first one did. -/
theorem refine (ht1 : t.Refines t1) (ht1' : t'.Refines t1')
    (hsolves : ∀ ⦃ψ φ⦄, R ψ φ → Solves φ t1' → Solves ψ t1) (hlifts : ∃ φ, R θ φ ∧ Solves φ t1') :
    Linked θ n (fun ψ φ => R ψ φ ∧ Solves φ t1') t1 t1' where
  left_sound := ht1.sound
  right_sound := ht1'.sound
  size_le := Nat.le_trans h.size_le ht1.size_le
  left_solves ψ φ hR := hsolves hR.1 hR.2
  right_solves _ _ hR := hR.2
  total φ hφ := by
    obtain ⟨ψ, hR⟩ := h.total φ (ht1'.solves φ hφ)
    exact ⟨ψ, hR, hφ⟩
  lifts := hlifts
  fixed ψ φ hR := h.fixed hR.1
  keeps ψ φ hR ψ1 φ1 hψ hφ :=
    ⟨h.keeps hR.1 (fun v hv => hψ v (Nat.lt_of_lt_of_le hv ht1.size_le))
      fun v hv => hφ v (Nat.lt_of_lt_of_le hv ht1'.size_le), hR.2.congr ht1'.sound hφ⟩

/-- **What was unified in the first table is unified in the second,** and the tables stay
linked. -/
theorem unify (ha : a.Sound t.size) (hb : b.Sound t.size)
    (ha' : a'.Sound t'.size) (hb' : b'.Sound t'.size) (haa : R.Alike a a') (hbb : R.Alike b b')
    (hrun : unify a b t = .ok () t1) (hθ : Solves θ t1) : ∃ t1' R1,
      Unify.unify a' b' t' = .ok () t1' ∧ Linked θ n R1 t1 t1' ∧ R1.Narrows R := by
  obtain ⟨href, hagree⟩ := unify_unifies h.left_sound ha hb hrun
  obtain ⟨φ, hφ⟩ := h.lifts
  have hφ' := h.right_solves hφ
  -- `θ` makes the first two types agree, so its partner makes the other two agree
  have hmeet : a'.subst φ = b'.subst φ := by
    rw [← haa hφ, ← hbb hφ]
    exact hagree θ hθ
  obtain ⟨t1', hrun'⟩ := unify_eq_ok h.right_sound ha' hb' hφ' hmeet
  obtain ⟨href', hagree'⟩ := unify_unifies h.right_sound ha' hb' hrun'
  refine ⟨t1', _, hrun', h.refine href href' (fun ψ φ hR hsolves => ?_)
    ⟨φ, hφ, unify_solves h.right_sound ha' hb' hrun' hφ' hmeet⟩, fun ψ φ hR => hR.1⟩
  -- the first table has learned no more than that its two types agree
  refine unify_solves h.left_sound ha hb hrun (h.left_solves hR) ?_
  rw [haa hR, hbb hR]
  exact hagree' φ hsolves

/-! ## Outermost forms -/

variable (ha : a.Sound t.size) (ha' : a'.Sound t'.size) (haa : R.Alike a a')
include ha ha' haa

theorem alike_shallow : R.Alike (t.shallow a) (t'.shallow a') := by
  intro ψ φ hR
  obtain ⟨-, hread, -⟩ := shallow_spec h.left_sound ha
  obtain ⟨-, hread', -⟩ := shallow_spec h.right_sound ha'
  rw [hread ψ (h.left_solves hR), hread' φ (h.right_solves hR)]
  exact haa hR

/-- A form that is known in the first table is known in the second: there is a solution of the
second table that leaves its free variables as they are. -/
theorem shallow_ne_var (hknown : ∀ v, t.shallow a ≠ .var v) (r : TyVar) :
    t'.shallow a' ≠ .var r := by
  intro hr
  obtain ⟨-, -, hfree⟩ := shallow_spec h.right_sound ha'
  obtain ⟨ψ, hR⟩ := h.total _ h.right_sound.solves_resolve
  have hsame := h.alike_shallow ha ha' haa hR
  have hopen : (t'.shallow a').subst (t'.resolveVar t'.size) = .var r := by
    have hread := h.right_sound.resolve_var r
    rw [(hfree r hr).unbound, (hfree r hr).root_eq] at hread
    rw [hr]
    exact hread
  rw [hopen] at hsame
  cases hshallow : t.shallow a with
  | var v => exact hknown v hshallow
  | prim | list | record | fn | error =>
    rw [hshallow] at hsame
    cases hsame

theorem shallow_eq_record (hknown : t.shallow a = .record name) : t'.shallow a' = .record name := by
  obtain ⟨φ, hφ⟩ := h.lifts
  have hsame := h.alike_shallow ha ha' haa hφ
  have hvar := h.shallow_ne_var ha ha' haa (by simp [hknown])
  rw [hknown] at hsame
  cases hshallow : t'.shallow a' with
  | var r => exact absurd hshallow (hvar r)
  | record name' =>
    rw [hshallow] at hsame
    cases hsame
    rfl
  | prim | list | fn | error =>
    rw [hshallow] at hsame
    cases hsame

theorem shallow_eq_fn (hknown : t.shallow a = .fn params ret) :
    ∃ params' ret', t'.shallow a' = .fn params' ret' ∧ List.Forall₂ R.Alike params params' ∧
      R.Alike ret ret' := by
  obtain ⟨φ, hφ⟩ := h.lifts
  have hsame := h.alike_shallow ha ha' haa
  have hvar := h.shallow_ne_var ha ha' haa (by simp [hknown])
  rw [hknown] at hsame
  cases hshallow : t'.shallow a' with
  | var r => exact absurd hshallow (hvar r)
  | fn params' ret' =>
    rw [hshallow] at hsame
    refine ⟨params', ret', rfl, Link.forall₂_alike ⟨θ, φ, hφ⟩ fun ψ φ hR => ?_, fun ψ φ hR => ?_⟩
    · have heq := hsame hR
      rw [Ty.subst, Ty.subst, Ty.substList_eq_map, Ty.substList_eq_map] at heq
      exact (Ty.fn.inj heq).1
    · exact (Ty.fn.inj (hsame hR)).2
  | prim | list | record | error =>
    rw [hshallow] at hsame
    cases hsame hφ

end Linked

end Sluice.Unify
