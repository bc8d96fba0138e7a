import Sluice.Proofs.Unify.Depth
import Sluice.Proofs.Unify.Solution

/-!
# Unification is complete

Types that some solution of the table makes equal are unified, and the
solution is kept (`unify_eq_ok`, `unify_solves`). While two types are unified
the height of what they are under a solution goes down, so some depth is enough
to unify them, and `unify` gives what any greater depth gives.
-/

namespace Sluice

open List

namespace Unify

namespace Table

variable {t t' : Table} {r a b : TyVar} {ty : Ty} {θ : TyVar → Ty}

/-! ## Solutions that are kept -/

theorem Solves.setBinding (ht : t.Sound) (hr : t.IsFree r) (h : Solves θ t)
    (heq : θ r = ty.subst θ) : Solves θ (t.setBinding r ty) := by
  intro v
  rw [binding?_setBinding ht.toIsForest hr.lt_size, root_setBinding]
  split
  · rename_i hv
    rw [← h.root ht.toIsForest v, hv]
    exact heq
  · exact h v

theorem Solves.setParent (ht : t.Sound) (ha : t.IsFree a) (hb : t.IsFree b)
    (hrank : t.rank a < t.rank b) (h : Solves θ t) (heq : θ a = θ b) :
    Solves θ (t.setParent a b) := by
  intro v
  rw [binding?_setParent ht.toIsForest ha hb hrank,
    root_setParent ht.toIsForest ha.root_eq hb.root_eq ha.lt_size hb.lt_size hrank]
  split
  · rename_i hv
    have hroot := h.root ht.toIsForest v
    rw [← heq, ← hv, hroot]
    cases hbind : t.binding? v with
    | none => rfl
    | some ty => exact h.of_binding? hbind
  · exact h v

/-- A solution under which two free roots are equal is kept when they are merged. -/
theorem Solves.union (ht : t.Sound) (ha : t.IsFree a) (hb : t.IsFree b) (h : Solves θ t)
    (heq : θ a = θ b) : Solves θ (t.union a b).2 := by
  refine union_cases ht.toIsForest ha hb (fun _ => h) fun t1 hf hp hr c d hpair hc hd hrank =>
    setParent (ht.congr hf hp hr) hc hd hrank ((solves_congr hp hr).2 h) ?_
  rcases hpair with ⟨rfl, rfl⟩ | ⟨rfl, rfl⟩
  · exact heq
  · exact heq.symm

end Table

open Table

variable {t t' : Table} {a b ty : Ty} {θ : TyVar → Ty} {P : Ty → Prop}

/-! ## Bindings are parts of what was there -/

/-- **Unification binds to parts of what was there:** a property that passes to parts, and that
the two types and all bindings have, is kept. -/
theorem unify_binds (hP : Ty.Hereditary P) (ht : t.Sound) (ha : a.Sound t.size)
    (hb : b.Sound t.size) (hPa : P a) (hPb : P b) (hbinds : t.Binds P)
    (h : unify a b t = .ok () t') : t'.Binds P := by
  have hadv := unify_advances hP ⟨ht.grounded, hbinds⟩ ⟨ha.below, hPa⟩ ⟨hb.below, hPb⟩
  rw [h] at hadv
  exact hadv.keeps.binds

/-! ## Types with a common instance are unified -/

/-- A run that keeps a solution, or fails for want of depth. -/
def Meets (θ : TyVar → Ty) (depth height : Nat) : EStateM.Result Clash Table Unit → Prop
  | .ok _ t => Solves θ t
  | .error _ _ => depth ≤ height

theorem Meets.widened (h : Meets θ depth height (act t))
    (expected found : Ty) : Meets θ (depth + 1) (height + 1) (widened expected found act t) := by
  rw [Unify.widened]
  cases hact : act t with
  | ok u t' =>
    rw [hact] at h
    exact h
  | error e t' =>
    rw [hact] at h
    cases e <;> exact Nat.succ_le_succ h

theorem Meets.le
    (h : Meets θ depth height r) (hle : height ≤ height') : Meets θ depth height' r := by
  cases r with
  | ok => exact h
  | error => exact Nat.le_trans h hle

/-- One run after another. -/
theorem Meets.bind {act next : EStateM Clash Table Unit} (h : Meets θ depth height (act t))
    (hnext : ∀ t1, act t = .ok () t1 → Solves θ t1 → Meets θ depth height (next t1)) :
    Meets θ depth height ((act >>= fun _ => next) t) := by
  simp only [Bind.bind, EStateM.bind]
  cases hact : act t with
  | ok u t1 =>
    rw [hact] at h
    exact hnext t1 hact h
  | error e t1 =>
    rw [hact] at h
    exact h

theorem eachPair_meets {step : Ty → Ty → Solve Unit}
    (hunifies : ∀ {a b t t'}, t.Sound → a.Sound t.size → b.Sound t.size → step a b t = .ok () t' →
      Unifies a b t t') (hstep : ∀ {a b t}, t.Sound → a.Sound t.size → b.Sound t.size → Solves θ t →
      a.subst θ = b.subst θ → Meets θ n (a.subst θ).height (step a b t)) :
    ∀ (as bs : List Ty) {t : Table}, t.Sound → (∀ a ∈ as, a.Sound t.size) →
      (∀ b ∈ bs, b.Sound t.size) → Solves θ t → Ty.substList θ as = Ty.substList θ bs →
      Meets θ n (Ty.heightList (Ty.substList θ as)) (eachPair step as bs t)
  | [], _, t, _, _, _, hθ, _ => hθ
  | _ :: _, [], t, _, _, _, hθ, _ => hθ
  | a :: as, b :: bs, t, ht, has, hbs, hθ, heq => by
    obtain ⟨heq, heqs⟩ := List.cons.inj heq
    have ha := has a mem_cons_self
    have hb := hbs b mem_cons_self
    refine Meets.bind ((hstep ht ha hb hθ heq).le (Nat.le_max_left _ _)) fun t1 h1 hθ1 => ?_
    obtain ⟨href, -⟩ := hunifies ht ha hb h1
    exact (eachPair_meets hunifies hstep as bs href.sound
      (fun x hx => (has x (mem_cons_of_mem _ hx)).mono href.size_le)
      (fun x hx => (hbs x (mem_cons_of_mem _ hx)).mono href.size_le) hθ1 heqs).le
      (Nat.le_max_right _ _)

/-- A root that equals a type under some solution does not occur in it: it would be lower than
itself. -/
theorem bindRoot_meets (ht : t.Sound) (hr : t.IsFree r) (hvar : ∀ w, ty ≠ .var w) (hθ : Solves θ t)
    (heq : θ r = ty.subst θ) : Meets θ n h (bindRoot r ty t) := by
  rw [bindRoot]
  split
  · rename_i hocc
    have hocc' : r ∈ (t.resolve ty).vars := by simpa [occurs] using hocc
    have hread := hθ.subst_resolve ht.toIsForest ty
    have hne : ∀ w, t.resolve ty ≠ .var w := by
      intro w hw
      cases ty with
      | var v => exact hvar v rfl
      | _ => cases hw
    have hlt := Ty.height_lt_height_subst (f := θ) hocc' hne
    rw [hread, ← heq] at hlt
    exact absurd hlt (Nat.lt_irrefl _)
  · rw [Table.bind, find_of_parent_eq (ht.parent_eq_of_root_eq hr.root_eq)]
    exact hθ.setBinding ht hr heq

/-- Types that are equal under a substitution are equal as they are, unless there is something in
them to replace. -/
theorem eq_of_subst_eq {x y : Ty} (hx : ∀ v, x = .var v → False) (hy : ∀ v, y = .var v → False)
    (hlist : ∀ c d, x = .list c → y = .list d → False)
    (hfn : ∀ ps r qs s, x = .fn ps r → y = .fn qs s → False) (h : x.subst θ = y.subst θ) :
    x = y := by
  cases x with
  | var v => exact (hx v rfl).elim
  | list c =>
    cases y with
    | list d => exact (hlist c d rfl rfl).elim
    | var v => exact (hy v rfl).elim
    | _ => cases h
  | fn ps r =>
    cases y with
    | fn qs s => exact (hfn ps r qs s rfl rfl).elim
    | var v => exact (hy v rfl).elim
    | _ => cases h
  | _ =>
    cases y with
    | var v => exact (hy v rfl).elim
    | list | fn => cases h
    | _ => exact h

theorem unifyUpTo_meets (n : Nat) : ∀ {a b : Ty} {t : Table}, t.Sound → a.Sound t.size →
    b.Sound t.size → Solves θ t → a.subst θ = b.subst θ →
    Meets θ n (a.subst θ).height (unifyUpTo n a b t) := by
  induction n with
  | zero => exact fun _ _ _ _ _ => Nat.zero_le _
  | succ n ih =>
    intro a b t ht ha hb hθ heq
    obtain ⟨hsa, heqa, hfa⟩ := shallow_spec ht ha
    obtain ⟨hsb, heqb, hfb⟩ := shallow_spec ht hb
    have hsame : (t.shallow a).subst θ = (t.shallow b).subst θ := by
      rw [heqa θ hθ, heqb θ hθ, heq]
    rw [← heqa θ hθ]
    simp only [unifyUpTo]
    split
    · rename_i x y hx hy
      rw [hx, hy] at hsame
      exact hθ.union ht (hfa x hx) (hfb y hy) hsame
    · rename_i x hx hne
      rw [hx] at hsame
      exact bindRoot_meets ht (hfa x hx) (hne) hθ hsame
    · rename_i y hy hne
      rw [hy] at hsame
      exact bindRoot_meets ht (hfb y hy) (hne) hθ hsame.symm
    · exact hθ
    · exact hθ
    · rename_i x y hx hy
      rw [hx, hy] at hsame
      rw [hx] at hsa ⊢
      rw [hy] at hsb
      exact (ih ht (Ty.Sound.list_iff.1 hsa) (Ty.Sound.list_iff.1 hsb) hθ
        (Ty.list.inj hsame)).widened _ _
    · rename_i ps r qs s hx hy
      rw [hx, hy] at hsame
      rw [hx] at hsa ⊢
      rw [hy] at hsb
      obtain ⟨hps, hr⟩ := Ty.Sound.fn_iff.1 hsa
      obtain ⟨hqs, hs⟩ := Ty.Sound.fn_iff.1 hsb
      obtain ⟨hparams, hret⟩ := Ty.fn.inj hsame
      have hlen : ps.length = qs.length := by
        have := congrArg List.length hparams
        rwa [Ty.substList_eq_map, Ty.substList_eq_map, length_map, length_map] at this
      rw [if_pos hlen, Ty.subst]
      refine Meets.widened (Meets.bind ((eachPair_meets (unifyUpTo_unifies n) ih ps qs ht hps hqs
        hθ hparams).le (Nat.le_max_left _ _)) fun t1 h1 hθ1 => ?_) _ _
      obtain ⟨href, -⟩ := eachPair_unifies (unifyUpTo_unifies n) ps qs hlen ht hps hqs h1
      exact (ih href.sound (hr.mono href.size_le) (hs.mono href.size_le) hθ1 hret).le
        (Nat.le_max_right _ _)
    · -- two types that are no variables and have nothing inside to unify
      rename_i hleft _ hright _ _ hlist hfn
      rw [if_pos (eq_of_subst_eq hleft hright hlist hfn hsame)]
      exact hθ

/-- **A solution that makes two types equal is kept** when they are unified. -/
theorem unify_solves (ht : t.Sound) (ha : a.Sound t.size) (hb : b.Sound t.size)
    (h : unify a b t = .ok () t') (hθ : Solves θ t) (heq : a.subst θ = b.subst θ) :
    Solves θ t' := by
  have hmeets := unifyUpTo_meets (t.unifyDepth a b) ht ha hb hθ heq
  rw [unify] at h
  rw [h] at hmeets
  exact hmeets

/-- **Unification is complete:** types that some solution makes equal are unified. -/
theorem unify_eq_ok (ht : t.Sound) (ha : a.Sound t.size) (hb : b.Sound t.size)
    (hθ : Solves θ t) (heq : a.subst θ = b.subst θ) : ∃ t', unify a b t = .ok () t' := by
  -- beyond the height under the solution the two are unified, and depth does not matter
  let n := t.unifyDepth a b + (a.subst θ).height + 1
  rw [← unifyUpTo_eq_unify ht.grounded ha.below hb.below (show t.unifyDepth a b ≤ n by omega)]
  have hmeets := unifyUpTo_meets n ht ha hb hθ heq
  cases hrun : unifyUpTo n a b t with
  | ok u t' => exact ⟨t', rfl⟩
  | error e t' =>
    rw [hrun] at hmeets
    have hle : n ≤ (a.subst θ).height := hmeets
    omega

end Unify

end Sluice
