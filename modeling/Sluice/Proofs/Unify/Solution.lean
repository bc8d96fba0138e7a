import Sluice.Proofs.Monad
import Sluice.Proofs.Unify.Grounded

/-!
# Solutions of a unification table

A table stands for a set of equations: a bound variable equals its binding,
and variables of one set equal each other. A reading of the variables that
satisfies them *solves* the table. Reading a type through a sound table gives
one such solution, and a successful unification makes the table stronger: every
solution of the table after it solves the table before it and makes the two
types equal (`unify_sound`).
-/

namespace Sluice.Unify

namespace Table

variable {t t' : Table} {v w a b r : TyVar} {ty : Ty} {θ : TyVar → Ty}

/-- A reading of the variables that agrees with the bindings and sets of a table. -/
def Solves (θ : TyVar → Ty) (t : Table) : Prop :=
  ∀ v, θ v = (t.binding? v).elim (θ (t.root v)) (·.subst θ)

/-- A forest whose bindings mention known variables only, are never just a variable, and do not
lead back to the variable they are bound to. -/
structure Sound (t : Table) : Prop extends t.IsForest where
  binding_sound : ∀ v ty, t.binding? v = some ty → ty.Sound t.size
  binding_ne_var : ∀ v w, t.binding? v ≠ some (.var w)
  acyclic : ∃ level : TyVar → Nat, ∀ v ty, t.binding? v = some ty →
    ∀ w ∈ ty.vars, level (t.root w) < level (t.root v)

theorem Sound.grounded (ht : t.Sound) : t.Grounded :=
  ⟨ht.toIsForest, fun v ty h => (ht.binding_sound v ty h).below, ht.binding_ne_var, ht.acyclic⟩

/-- A grounded table without the error type is sound. -/
theorem Grounded.sound (ht : t.Grounded)
    (h : ∀ v ty, t.binding? v = some ty → ty.hasError = false) : t.Sound :=
  ⟨ht.toIsForest, fun v ty hv => ⟨ht.binding_below v ty hv, h v ty hv⟩, ht.binding_ne_var,
    ht.acyclic⟩

theorem sound_empty : Sound {} :=
  grounded_empty.sound fun v ty h => by simp [binding?] at h

/-- Two tables with the same links and bindings are equally sound. -/
theorem Sound.congr (ht : t.Sound) (hf : t'.IsForest) (hp : t'.parents = t.parents)
    (hb : t'.bindings = t.bindings) : t'.Sound := by
  refine (ht.grounded.congr hf hp hb).sound fun v ty h => ?_
  rw [binding?_congr hp hb] at h
  exact (ht.binding_sound v ty h).no_error

theorem solves_congr (hp : t'.parents = t.parents) (hb : t'.bindings = t.bindings) :
    Solves θ t' ↔ Solves θ t := by
  simp only [Solves, binding?_congr hp hb, root_congr hp]

theorem Solves.of_binding? (h : Solves θ t) (hb : t.binding? v = some ty) : θ v = ty.subst θ := by
  rw [h v, hb]
  rfl

theorem Solves.root (h : Solves θ t) (ht : t.IsForest) (v : TyVar) : θ (t.root v) = θ v := by
  cases hb : t.binding? v with
  | none =>
    have := h v
    rw [hb] at this
    exact this.symm
  | some ty => rw [h.of_binding? hb, h.of_binding? (ht.binding?_root v ▸ hb)]

/-! ## Reading types through a table -/

theorem Sound.resolve_var (ht : t.Sound) (v : TyVar) :
    t.resolve (.var v) = (t.binding? v).elim (.var (t.root v)) t.resolve :=
  ht.grounded.resolve_var v

/-- The solution a table itself gives. -/
theorem Sound.solves_resolve (ht : t.Sound) : Solves (t.resolveVar t.size) t := by
  have hvar := ht.resolve_var
  intro v
  have hv := hvar v
  rw [resolve, Ty.subst] at hv
  rw [hv]
  cases hb : t.binding? v with
  | none =>
    have hr := hvar (t.root v)
    rw [ht.binding?_root, hb, ht.root_root] at hr
    exact hr.symm
  | some ty => rfl

/-- Every other solution reads on from there. -/
theorem Solves.subst_resolve (h : Solves θ t) (ht : t.IsForest) (ty : Ty) :
    (t.resolve ty).subst θ = ty.subst θ := by
  have hvar : ∀ n v, (t.resolveVar n v).subst θ = θ v := by
    intro n
    induction n with
    | zero => exact (h.root ht)
    | succ n ih =>
      intro v
      rw [resolveVar]
      cases hb : t.binding? v with
      | none => exact h.root ht v
      | some ty =>
        rw [Ty.subst_subst, h.of_binding? hb]
        exact Ty.subst_congr fun w _ => ih w
  rw [resolve, Ty.subst_subst]
  exact Ty.subst_congr fun v _ => hvar _ v

/-- No error comes in by reading. -/
theorem Sound.resolveVar_no_error (ht : t.Sound) (n : Nat) (v : TyVar) :
    (t.resolveVar n v).hasError = false := by
  induction n generalizing v with
  | zero => rfl
  | succ n ih =>
    rw [resolveVar]
    cases hb : t.binding? v with
    | none => rfl
    | some ty => exact Ty.hasError_subst (ht.binding_sound v ty hb).no_error fun w _ => ih w

/-! ## Binding a free root -/

/-- Binding a free root to a type that it does not occur in keeps the table sound. -/
theorem Sound.setBinding (ht : t.Sound) (hr : t.IsFree r) (hty : ty.Sound t.size)
    (hvar : ∀ w, ty ≠ .var w) (hocc : r ∉ (t.resolve ty).vars) : (t.setBinding r ty).Sound := by
  refine (ht.grounded.setBinding hr hty.below hvar hocc).sound fun v ty' h => ?_
  rw [binding?_setBinding ht.toIsForest hr.lt_size] at h
  split at h
  · cases h
    exact hty.no_error
  · exact (ht.binding_sound v ty' h).no_error

theorem Solves.of_setBinding (ht : t.IsForest) (hr : t.IsFree r)
    (h : Solves θ (t.setBinding r ty)) : Solves θ t ∧ θ r = ty.subst θ := by
  have hb := binding?_setBinding ht hr.lt_size ty
  refine ⟨fun v => ?_, h.of_binding? (by rw [hb, if_pos hr.root_eq])⟩
  by_cases hv : t.root v = r
  · have hnone : t.binding? v = none := by rw [← ht.binding?_root, hv, hr.unbound]
    have hroot := h.root (ht.setBinding r ty) v
    rw [root_setBinding] at hroot
    rw [hnone, ← hroot]
    rfl
  · have := h v
    rwa [hb, if_neg hv, root_setBinding] at this

/-! ## Merging free roots -/

/-- Linking one free root below another keeps the table sound. -/
theorem Sound.setParent (ht : t.Sound) (ha : t.IsFree a) (hb : t.IsFree b)
    (hrank : t.rank a < t.rank b) : (t.setParent a b).Sound := by
  refine (ht.grounded.setParent ha hb hrank).sound fun v ty h => ?_
  rw [binding?_setParent ht.toIsForest ha hb hrank] at h
  exact (ht.binding_sound v ty h).no_error

theorem Solves.of_setParent (ht : t.IsForest) (ha : t.IsFree a) (hb : t.IsFree b)
    (hrank : t.rank a < t.rank b) (h : Solves θ (t.setParent a b)) : Solves θ t ∧ θ a = θ b := by
  have hbind := binding?_setParent ht ha hb hrank
  have hroot := root_setParent ht ha.root_eq hb.root_eq ha.lt_size hb.lt_size hrank
  have hsame := h.root (ht.setParent ha.lt_size hb.lt_size hrank)
  refine ⟨fun v => ?_, ?_⟩
  · cases hv : t.binding? v with
    | some ty => exact h.of_binding? (by rw [hbind, hv])
    | none =>
      have h1 := hsame v
      have h2 := hsame (t.root v)
      rw [hroot, ht.root_root, ← hroot] at h2
      exact h1.symm.trans h2
  · have h1 := hsame a
    rw [hroot, ha.root_eq, if_pos rfl] at h1
    exact h1.symm

/-! ## Stronger tables -/

/-- A sound table that knows at least as much as another. -/
structure Refines (t t' : Table) : Prop where
  sound : t'.Sound
  size_le : t.size ≤ t'.size
  solves : ∀ θ, Solves θ t' → Solves θ t

theorem Refines.refl (ht : t.Sound) : t.Refines t :=
  ⟨ht, Nat.le.refl, fun _ h => h⟩

theorem Refines.trans (h : t.Refines t') (h' : t'.Refines t'') : t.Refines t'' :=
  ⟨h'.sound, Nat.le_trans h.size_le h'.size_le, fun θ hθ => h.solves θ (h'.solves θ hθ)⟩

theorem Sound.newVariable (ht : t.Sound) : t.newVariable.2.Sound := by
  refine ht.grounded.newVariable.sound fun v ty h => ?_
  rw [binding?_newVariable ht.toIsForest] at h
  exact (ht.binding_sound v ty h).no_error

theorem refines_newVariable (ht : t.Sound) : t.Refines t.newVariable.2 := by
  refine ⟨ht.newVariable, by rw [size_newVariable]; omega, fun θ h v => ?_⟩
  have := h v
  rwa [binding?_newVariable ht.toIsForest, root_newVariable ht.toIsForest] at this

/-- Logs and snapshots make no difference to what a table knows. -/
theorem refines_of_eq (ht : t.Sound) (hp : t'.parents = t.parents) (hr : t'.ranks = t.ranks)
    (hb : t'.bindings = t.bindings) : t.Refines t' :=
  ⟨ht.congr (ht.toIsForest.congr hp hr (by rw [hb])) hp hb, by rw [size, size, hp],
    fun _ h => (solves_congr hp hb).1 h⟩

/-- **Merging two free roots** makes them equal. -/
theorem refines_union (ht : t.Sound) (ha : t.IsFree a) (hb : t.IsFree b) :
    t.Refines (t.union a b).2 ∧ ∀ θ, Solves θ (t.union a b).2 → θ a = θ b := by
  refine union_cases (P := fun t' => t.Refines t' ∧ ∀ θ, Solves θ t' → θ a = θ b) ht.toIsForest ha
    hb (fun hab => ⟨.refl ht, fun θ _ => by rw [hab]⟩)
    fun t1 hf hp hr c d hpair hc hd hrank => ?_
  have ht1 := ht.congr hf hp hr
  have hsolves : ∀ θ, Solves θ (t1.setParent c d) → Solves θ t1 ∧ θ c = θ d := fun θ h =>
    h.of_setParent hf hc hd hrank
  refine ⟨⟨ht1.setParent hc hd hrank, ?_, fun θ h => (solves_congr hp hr).1 (hsolves θ h).1⟩,
    fun θ h => ?_⟩
  · rw [size_setParent, size, size, hp]
  · have hcd := (hsolves θ h).2
    rcases hpair with ⟨rfl, rfl⟩ | ⟨rfl, rfl⟩
    · exact hcd
    · exact hcd.symm

end Table

/-! ## Unification -/

open Table

variable {t t' : Table} {a b ty : Ty}

/-- A table reached by making two types equal. -/
def Unifies (a b : Ty) (t t' : Table) : Prop :=
  t.Refines t' ∧ ∀ θ, Solves θ t' → a.subst θ = b.subst θ

theorem bindRoot_unifies (ht : t.Sound) (hr : t.IsFree r) (hty : ty.Sound t.size)
    (hvar : ∀ w, ty ≠ .var w) (h : bindRoot r ty t = .ok () t') : Unifies (.var r) ty t t' := by
  rw [bindRoot] at h
  split at h
  · cases h
  · rename_i hocc
    have hocc' : r ∉ (t.resolve ty).vars := by
      simpa [occurs] using hocc
    cases h
    rw [Table.bind, find_of_parent_eq (ht.parent_eq_of_root_eq hr.root_eq)]
    have hs : ∀ θ, Solves θ (t.setBinding r ty) → Solves θ t ∧ θ r = ty.subst θ := fun _ =>
      Solves.of_setBinding ht.toIsForest hr
    exact ⟨⟨ht.setBinding hr hty hvar hocc',
      Nat.le_of_eq (size_setBinding t r ty).symm, fun θ h => (hs θ h).1⟩, fun θ h => (hs θ h).2⟩

/-- What a type looks like from the outside: the same to every solution, and a variable only if
that is free. -/
theorem shallow_spec (ht : t.Sound) (hty : ty.Sound t.size) :
    (t.shallow ty).Sound t.size ∧ (∀ θ, Solves θ t → (t.shallow ty).subst θ = ty.subst θ) ∧
      ∀ r, t.shallow ty = .var r → t.IsFree r := by
  refine ⟨⟨ht.grounded.shallow_below hty.below, ?_⟩, fun θ hθ => ?_,
    fun r => ht.grounded.isFree_of_shallow hty.below⟩
  · cases ty with
    | var v =>
      rw [ht.grounded.shallow_var (hty.below.lt_of_var)]
      cases hb : t.binding? v with
      | none => rfl
      | some ty => exact (ht.binding_sound v ty hb).no_error
    | _ => exact hty.no_error
  · rw [← hθ.subst_resolve ht.toIsForest, ht.grounded.resolve_shallow hty.below,
      hθ.subst_resolve ht.toIsForest]

theorem widened_ok (h : widened a b act t = .ok () t') : act t = .ok () t' := by
  rw [widened] at h
  split at h
  · rename_i heq
    cases h
    exact heq
  · cases h
  · cases h

/-- Lists of types are made equal pair by pair. -/
theorem eachPair_unifies {step : Ty → Ty → Solve Unit}
    (hstep : ∀ {a b t t'}, t.Sound → a.Sound t.size → b.Sound t.size → step a b t = .ok () t' →
      Unifies a b t t') :
    ∀ (as bs : List Ty) {t t'}, as.length = bs.length → t.Sound →
      (∀ a ∈ as, a.Sound t.size) → (∀ b ∈ bs, b.Sound t.size) →
      eachPair step as bs t = .ok () t' →
      t.Refines t' ∧ ∀ θ, Solves θ t' → Ty.substList θ as = Ty.substList θ bs
  | [], [], t, t', _, ht, _, _, h => by
    cases h
    exact ⟨.refl ht, fun _ _ => rfl⟩
  | [], _ :: _, _, _, hlen, _, _, _, _ | _ :: _, [], _, _, hlen, _, _, _, _ => by cases hlen
  | a :: as, b :: bs, t, t', hlen, ht, has, hbs, h => by
    obtain ⟨_, t1, h1, h2⟩ := bind_eq_ok.1 h
    obtain ⟨href, heq⟩ := hstep ht (has a List.mem_cons_self) (hbs b List.mem_cons_self) h1
    obtain ⟨href', heqs⟩ := eachPair_unifies hstep as bs (Nat.succ.inj hlen) href.sound
      (fun x hx => (has x (List.mem_cons_of_mem _ hx)).mono href.size_le)
      (fun x hx => (hbs x (List.mem_cons_of_mem _ hx)).mono href.size_le) h2
    refine ⟨href.trans href', fun θ hθ => ?_⟩
    rw [Ty.substList, Ty.substList, heq θ (href'.solves θ hθ), heqs θ hθ]

theorem unifyUpTo_unifies (n : Nat) : ∀ {a b t t'}, t.Sound → a.Sound t.size →
    b.Sound t.size → unifyUpTo n a b t = .ok () t' → Unifies a b t t' := by
  induction n with
  | zero =>
    intro a b t t' _ _ _ h
    cases h
  | succ n ih =>
    intro a b t t' ht ha hb h
    obtain ⟨hsa, heqa, hfa⟩ := shallow_spec ht ha
    obtain ⟨hsb, heqb, hfb⟩ := shallow_spec ht hb
    -- it is enough to make the two types equal as they look from the outside
    suffices hu : Unifies (t.shallow a) (t.shallow b) t t' from ⟨hu.1, fun θ hθ => by
      have hθt := hu.1.solves θ hθ
      rw [← heqa θ hθt, ← heqb θ hθt, hu.2 θ hθ]⟩
    simp only [unifyUpTo] at h
    split at h
    · rename_i x y hx hy
      cases h
      rw [hx, hy]
      exact refines_union ht (hfa x hx) (hfb y hy)
    · rename_i x hx hne
      rw [hx]
      exact bindRoot_unifies ht (hfa x hx) hsb (hne) h
    · rename_i y hy hne
      rw [hy]
      obtain ⟨href, heq⟩ := bindRoot_unifies ht (hfb y hy) hsa (hne) h
      exact ⟨href, fun θ hθ => (heq θ hθ).symm⟩
    · rename_i hx _
      rw [hx] at hsa
      exact absurd hsa.no_error (by decide)
    · rename_i hy _ _
      rw [hy] at hsb
      exact absurd hsb.no_error (by decide)
    · rename_i x y hx hy
      rw [hx] at hsa
      rw [hy] at hsb
      rw [hx, hy]
      obtain ⟨href, heq⟩ := ih ht (Ty.Sound.list_iff.1 hsa) (Ty.Sound.list_iff.1 hsb) (widened_ok h)
      exact ⟨href, fun θ hθ => congrArg Ty.list (heq θ hθ)⟩
    · rename_i ps r qs s hx hy
      rw [hx] at hsa
      rw [hy] at hsb
      rw [hx, hy]
      obtain ⟨hps, hr⟩ := Ty.Sound.fn_iff.1 hsa
      obtain ⟨hqs, hs⟩ := Ty.Sound.fn_iff.1 hsb
      split at h
      · rename_i hlen
        obtain ⟨_, t1, h1, h2⟩ := bind_eq_ok.1 (widened_ok h)
        obtain ⟨href, heqs⟩ := eachPair_unifies ih ps qs hlen ht hps hqs h1
        obtain ⟨href', heq⟩ := ih href.sound (hr.mono href.size_le) (hs.mono href.size_le) h2
        refine ⟨href.trans href', fun θ hθ => ?_⟩
        rw [Ty.subst, Ty.subst, heqs θ (href'.solves θ hθ), heq θ hθ]
      · cases h
    · split at h
      · rename_i heq
        cases h
        rw [heq]
        exact ⟨.refl ht, fun _ _ => rfl⟩
      · cases h

/-- **Unification is sound:** every solution of the table it leaves behind solves the table it
started from and makes the two types equal. -/
theorem unify_unifies (ht : t.Sound) (ha : a.Sound t.size) (hb : b.Sound t.size)
    (h : unify a b t = .ok () t') : Unifies a b t t' :=
  unifyUpTo_unifies _ ht ha hb h

end Sluice.Unify
