import Sluice.Proofs.Monad
import Sluice.Proofs.Unify.Grounded

/-!
# How deep unification goes

While two types are unified the recursion goes down into both without a change
to the table, and then what the first one stands for is less high; or the table
changes, and then it has a free root less. Bindings are parts of types that were
there before, so no type gets higher. The recursion ends by itself for that
reason, and depth beyond `Table.unifyDepth` changes nothing, neither for
types that are unified nor for types that clash (`unifyUpTo_eq_unify`).
-/

namespace Sluice

open List

namespace Ty

variable {f : TyVar → Ty}

theorem height_pos (ty : Ty) : 0 < ty.height := by
  cases ty <;> simp [height]

mutual

/-- A substitution adds at most the height of what it puts in. -/
theorem height_subst_le :
    ∀ {ty : Ty}, (∀ v ∈ ty.vars, (f v).height ≤ m + 1) → (ty.subst f).height ≤ ty.height + m
  | prim _, _ | record _, _ | error, _ => by
    simp only [subst, height]
    omega
  | var v, h => by
    have hv := h v (mem_singleton.2 rfl)
    simp only [subst, height]
    omega
  | list elem, h => by
    have helem : (elem.subst f).height ≤ elem.height + m := height_subst_le h
    simp only [subst, height]
    omega
  | fn params ret, h => by
    obtain ⟨hparams, hret⟩ := forall_mem_append.1 h
    have hparams := heightList_subst_le hparams
    have hret := height_subst_le hret
    simp only [subst, height]
    omega

theorem heightList_subst_le :
    ∀ {l}, (∀ v ∈ varsList l, (f v).height ≤ m + 1) → heightList (substList f l) ≤ heightList l + m
  | [], _ => Nat.zero_le _
  | ty :: rest, h => by
    obtain ⟨hty, hrest⟩ := forall_mem_append.1 h
    have hty := height_subst_le hty
    have hrest := heightList_subst_le hrest
    simp only [substList, heightList]
    omega

end

theorem height_le_heightList : ∀ {l}, ty ∈ l → ty.height ≤ heightList l
  | head :: rest, h => by
    rw [heightList]
    rcases mem_cons.1 h with rfl | h
    · omega
    · have := height_le_heightList h
      omega

/-- A property that all variables have, and that passes to the parts of a type. -/
structure Hereditary (P : Ty → Prop) : Prop where
  var : ∀ v, P (.var v)
  list : ∀ elem, P (.list elem) → P elem
  param : ∀ params ret, P (.fn params ret) → ∀ ty ∈ params, P ty
  ret : ∀ params ret, P (.fn params ret) → P ret

theorem hereditary_true : Hereditary fun _ => True :=
  ⟨fun _ => trivial, fun _ _ => trivial, fun _ _ _ _ _ => trivial, fun _ _ _ => trivial⟩

theorem hereditary_height_le (hpos : 0 < h) : Hereditary fun ty => ty.height ≤ h where
  var _ := hpos
  list elem hle := by
    simp only [height] at hle
    omega
  param params ret hle ty hty := by
    have := height_le_heightList hty
    simp only [height] at hle
    omega
  ret params ret hle := by
    simp only [height] at hle
    omega

end Ty

namespace Unify

namespace Table

variable {t t' : Table} {r a b : TyVar} {ty : Ty}

/-! ## What is bound -/

/-- Everything that is bound has a property. -/
def Binds (t : Table) (P : Ty → Prop) : Prop :=
  ∀ v ty, t.binding? v = some ty → P ty

variable {P : Ty → Prop} {params : List Ty}

theorem Binds.congr {t' : Table} (h : t.Binds P) (hp : t'.parents = t.parents)
    (hb : t'.bindings = t.bindings) : t'.Binds P := by
  intro v ty hv
  rw [binding?_congr hp hb] at hv
  exact h v ty hv

theorem Binds.setBinding (ht : t.IsForest) (hr : r < t.size) (h : t.Binds P) (hty : P ty) :
    (t.setBinding r ty).Binds P := by
  intro v ty' hv
  rw [binding?_setBinding ht hr] at hv
  split at hv
  · cases hv
    exact hty
  · exact h v ty' hv

theorem Binds.shallow (hvar : ∀ v, P (.var v)) (h : t.Binds P) (hty : P ty) : P (t.shallow ty) := by
  have hshallow : ∀ n v, P (t.shallowVar n v) := by
    intro n
    induction n with
    | zero => exact fun v => hvar _
    | succ n ih =>
      intro v
      rw [shallowVar]
      split
      · exact hvar _
      · exact ih _
      · rename_i hb
        exact h v _ hb
  cases ty with
  | var v => exact hshallow _ v
  | _ => exact hty

/-- The heights of bindings go into `Table.bindingHeight`. -/
theorem height_le_bindingHeight (h : t.binding? v = some ty) : ty.height ≤ t.bindingHeight := by
  have hfold : ∀ (l : List (Option Ty)) (m : Nat),
      m ≤ l.foldl (fun h b => max h (b.elim 0 Ty.height)) m ∧
        ∀ ty, some ty ∈ l → ty.height ≤ l.foldl (fun h b => max h (b.elim 0 Ty.height)) m := by
    intro l
    induction l with
    | nil => exact fun m => ⟨Nat.le_refl m, nofun⟩
    | cons b rest ih =>
      intro m
      obtain ⟨hle, hrest⟩ := ih (max m (b.elim 0 Ty.height))
      refine ⟨by rw [foldl_cons]; omega, fun ty hty => ?_⟩
      rcases mem_cons.1 hty with rfl | hty
      · simp only [foldl_cons, Option.elim_some] at hle ⊢
        omega
      · exact hrest ty hty
  rw [bindingHeight, ← Array.foldl_toList]
  refine (hfold t.bindings.toList 0).2 ty ?_
  rw [binding?, Array.getD_eq_getD_getElem?] at h
  cases hget : t.bindings[t.root v]? with
  | none =>
    rw [hget] at h
    cases h
  | some b =>
    rw [hget] at h
    cases h
    exact Array.mem_toList_iff.2 (Array.mem_of_getElem? hget)

/-- **Reading passes every set at most once,** so it adds at most one binding's height for each. -/
theorem height_resolve_le (hbinds : t.Binds fun ty => ty.height ≤ h) :
    (t.resolve ty).height ≤ ty.height + t.size * h := by
  have hvar : ∀ n v, (t.resolveVar n v).height ≤ n * h + 1 := by
    intro n
    induction n with
    | zero =>
      intro v
      simp [resolveVar, Ty.height]
    | succ n ih =>
      intro v
      rw [resolveVar]
      cases hb : t.binding? v with
      | none => simp [Ty.height]
      | some ty =>
        have hty := hbinds v ty hb
        have hsubst := Ty.height_subst_le fun w (_ : w ∈ ty.vars) => ih w
        have hmul : (n + 1) * h = n * h + h := Nat.succ_mul n h
        simp only
        omega
  exact Ty.height_subst_le fun v _ => hvar t.size v

/-! ## Tables along a unification -/

/-- A grounded table whose bindings have a property. -/
structure Keeps (P : Ty → Prop) (t : Table) : Prop extends t.Grounded where
  binds : t.Binds P

/-- A type over the variables of a table, with a property. -/
structure Fits (P : Ty → Prop) (t : Table) (ty : Ty) : Prop where
  below : ty.Below t.size
  holds : P ty

namespace Fits

theorem shallow (hP : Ty.Hereditary P) (ht : t.Keeps P) (h : t.Fits P ty) :
    t.Fits P (t.shallow ty) :=
  ⟨ht.shallow_below h.below, ht.binds.shallow hP.var h.holds⟩

theorem elem {elem} (hP : Ty.Hereditary P) (h : t.Fits P (.list elem)) : t.Fits P elem :=
  ⟨h.below, hP.list _ h.holds⟩

theorem param (hP : Ty.Hereditary P) (h : t.Fits P (.fn params ret)) : ∀ p ∈ params, t.Fits P p :=
  fun p hp => ⟨(Ty.Below.fn_iff.1 h.below).1 p hp, hP.param _ _ h.holds p hp⟩

theorem ret {ret} (hP : Ty.Hereditary P) (h : t.Fits P (.fn params ret)) : t.Fits P ret :=
  ⟨(Ty.Below.fn_iff.1 h.below).2, hP.ret _ _ h.holds⟩

end Fits

/-- A table keeps bindings at roots only, so that all of them count. -/
def BindsRoots (t : Table) : Prop :=
  ∀ v ty, t.kept v = some ty → t.root v = v

/-- **A later table of a unification.** It has the same variables, and unless it is the same table
it has fewer free roots. -/
structure Advances (P : Ty → Prop) (t t' : Table) : Prop where
  keeps : t'.Keeps P
  size_eq : t'.size = t.size
  eq_or_lt : t' = t ∨ t'.free.card < t.free.card
  bindsRoots : t.BindsRoots → t'.BindsRoots

namespace Advances

theorem refl (ht : t.Keeps P) : Advances P t t :=
  ⟨ht, rfl, .inl rfl, id⟩

theorem trans (h : Advances P t t') (h' : Advances P t' t'') : Advances P t t'' := by
  refine ⟨h'.keeps, h'.size_eq.trans h.size_eq, ?_, h'.bindsRoots ∘ h.bindsRoots⟩
  rcases h.eq_or_lt with rfl | hlt
  · exact h'.eq_or_lt
  · rcases h'.eq_or_lt with rfl | hlt'
    · exact .inr hlt
    · exact .inr (Nat.lt_trans hlt' hlt)

theorem fits (h : Advances P t t') (hty : t.Fits P ty) : t'.Fits P ty :=
  ⟨h.size_eq ▸ hty.below, hty.holds⟩

end Advances

/-- Bindings at roots stay at roots when a root is bound. -/
theorem BindsRoots.setBinding (ht : t.IsForest) (hroot : t.root r = r) (hlt : r < t.size)
    (h : t.BindsRoots) : (t.setBinding r ty).BindsRoots := by
  intro v ty' hv
  rw [kept_setBinding (by rwa [ht.bindings_size])] at hv
  rw [root_setBinding]
  split at hv
  · rename_i hvr
    rw [hvr, hroot]
  · exact h v ty' hv

theorem advances_union (ht : t.Keeps P) (ha : t.IsFree a) (hb : t.IsFree b) :
    Advances P t (t.union a b).2 := by
  refine union_cases ht.toIsForest ha hb (fun _ => .refl ht)
    fun t1 hf hp hbs c d _ hc hd hrank =>
      ⟨⟨?_, fun v ty hv => ?_⟩, ?_, .inr ?_, fun h v ty hv => ?_⟩
  · exact (ht.toGrounded.congr hf hp hbs).setParent hc hd hrank
  · rw [binding?_setParent hf hc hd hrank, binding?_congr hp hbs] at hv
    exact ht.binds v ty hv
  · rw [size_setParent, size, size, hp]
  · rw [← free_congr hp hbs]
    exact card_free_setParent hf hc hd hrank
  · have hkept : t.kept v = some ty := by simpa [setParent, kept, hbs] using hv
    have hroot : t1.root v = v := by rw [root_congr hp, h v ty hkept]
    -- the root that is linked below keeps nothing, so it is not the one in question
    have hne : v ≠ c := by
      rintro rfl
      have hnone := hc.kept_eq
      rw [kept, hbs] at hnone
      rw [kept, hnone] at hkept
      cases hkept
    rw [root_setParent hf hc.root_eq hd.root_eq hc.lt_size hd.lt_size hrank, hroot, if_neg hne]

/-! ## The bound on the depth -/

/-- How deep a unification can go from here, where nothing is higher than `h`: each free root can
be used up once, after which the first type stands for one that is at most `(size + 1) * h`
high. -/
def effort (t : Table) (h : Nat) (ty : Ty) : Nat :=
  t.free.card * ((t.size + 1) * h) + (t.resolve ty).height

variable {h : Nat}

theorem height_resolve_le_of_keeps (ht : t.Keeps fun ty => ty.height ≤ h) (hty : ty.height ≤ h) :
    (t.resolve ty).height ≤ (t.size + 1) * h := by
  have hread : (t.resolve ty).height ≤ ty.height + t.size * h := height_resolve_le ht.binds
  have hexpand : (t.size + 1) * h = t.size * h + h := Nat.succ_mul t.size h
  omega

theorem height_resolve_param_lt (t : Table) (hp : p ∈ params) (ret : Ty) :
    (t.resolve p).height < (t.resolve (.fn params ret)).height := by
  have hmem : t.resolve p ∈ Ty.substList (t.resolveVar t.size) params := by
    rw [Ty.substList_eq_map]
    exact mem_map_of_mem hp
  have hle := Ty.height_le_heightList hmem
  simp only [resolve, Ty.subst, Ty.height] at hle ⊢
  omega

theorem height_resolve_ret_lt (t : Table) (params : List Ty) (ret : Ty) :
    (t.resolve ret).height < (t.resolve (.fn params ret)).height := by
  simp only [resolve, Ty.subst, Ty.height]
  omega

theorem effort_pos (t : Table) (h : Nat) (ty : Ty) : 0 < t.effort h ty := by
  have := (t.resolve ty).height_pos
  unfold effort
  omega

theorem effort_le (ht : t.Keeps fun ty => ty.height ≤ h) (hty : ty.height ≤ h) :
    t.effort h ty ≤ (t.size + 1) * (t.size + 1) * h := by
  have hread := height_resolve_le_of_keeps ht hty
  have hfree : t.free.card * ((t.size + 1) * h) ≤ t.size * ((t.size + 1) * h) :=
    Nat.mul_le_mul_right _ t.card_free_le
  have hexpand : (t.size + 1) * (t.size + 1) * h =
      t.size * ((t.size + 1) * h) + (t.size + 1) * h := by
    rw [Nat.mul_assoc, Nat.succ_mul]
  unfold effort
  omega

/-- **A part takes less effort than the whole,** now and in any later table. -/
theorem Advances.effort_lt (hadv : Advances (fun ty => ty.height ≤ h) t t')
    (hpart : part.height ≤ h) (hlt : (t.resolve part).height < (t.resolve ty).height) :
    t'.effort h part < t.effort h ty := by
  rcases hadv.eq_or_lt with rfl | hfree
  · unfold effort
    omega
  · -- the free root that is gone pays for all the height that reading can add
    have hread := height_resolve_le_of_keeps hadv.keeps hpart
    rw [hadv.size_eq] at hread
    have hpaid : (t'.free.card + 1) * ((t.size + 1) * h) ≤ t.free.card * ((t.size + 1) * h) :=
      Nat.mul_le_mul_right _ hfree
    rw [Nat.succ_mul] at hpaid
    unfold effort
    rw [hadv.size_eq]
    omega

end Table

open Table

variable {t t' : Table} {a b ty : Ty} {P : Ty → Prop} {step : Ty → Ty → Solve Unit}

/-! ## Where unification leads -/

theorem advances_bindRoot (ht : t.Keeps P) (hr : t.IsFree r) (hty : t.Fits P ty)
    (hvar : ∀ w, ty ≠ .var w) : Advances P t (finalState (bindRoot r ty t)) := by
  rw [bindRoot]
  split
  · exact .refl ht
  · rename_i hocc
    have hocc' : r ∉ (t.resolve ty).vars := by simpa [occurs] using hocc
    simp only [finalState, Table.bind, find_of_parent_eq (ht.parent_eq_of_root_eq hr.root_eq)]
    exact ⟨⟨ht.toGrounded.setBinding hr hty.below hvar hocc',
      ht.binds.setBinding ht.toIsForest hr.lt_size hty.holds⟩, size_setBinding t r ty,
      .inr (card_free_setBinding ht.toIsForest hr ty),
      .setBinding ht.toIsForest hr.root_eq hr.lt_size⟩

theorem finalState_widened (expected found : Ty) (act : Solve Unit) (t : Table) :
    finalState (widened expected found act t) = finalState (act t) := by
  rw [widened]
  cases act t with
  | ok u t' => rfl
  | error e t' => cases e <;> rfl

theorem Table.Advances.bind {act next : Solve Unit} (h : Advances P t (finalState (act t)))
    (hnext : ∀ t1, Advances P t t1 → Advances P t1 (finalState (next t1))) :
    Advances P t (finalState ((act >>= fun _ => next) t)) := by
  simp only [Bind.bind, EStateM.bind]
  cases hact : act t with
  | ok u t1 =>
    rw [hact] at h
    exact h.trans (hnext t1 h)
  | error e t1 =>
    rw [hact] at h
    exact h

/-- A way to unify types that advances the table, whether it succeeds or fails. -/
def StepAdvances (P : Ty → Prop) (step : Ty → Ty → Solve Unit) : Prop :=
  ∀ {a b t}, t.Keeps P → t.Fits P a → t.Fits P b → Advances P t (finalState (step a b t))

theorem eachPair_advances (hstep : StepAdvances P step) :
    ∀ (as bs : List Ty) {t : Table}, t.Keeps P → (∀ a ∈ as, t.Fits P a) → (∀ b ∈ bs, t.Fits P b) →
      Advances P t (finalState (eachPair step as bs t))
  | [], _, t, ht, _, _ | _ :: _, [], t, ht, _, _ => .refl ht
  | a :: as, b :: bs, t, ht, has, hbs => by
    refine (hstep ht (has a mem_cons_self) (hbs b mem_cons_self)).bind fun t1 hadv => ?_
    exact eachPair_advances hstep as bs hadv.keeps
      (fun x hx => hadv.fits (has x (mem_cons_of_mem _ hx)))
      (fun x hx => hadv.fits (hbs x (mem_cons_of_mem _ hx)))

/-- Types are unified part by part. -/
theorem eachPair_bind_advances (hP : Ty.Hereditary P) (hstep : StepAdvances P step)
    {ps qs : List Ty} (ht : t.Keeps P) (ha : t.Fits P (.fn ps r)) (hb : t.Fits P (.fn qs q)) :
    Advances P t (finalState ((eachPair step ps qs >>= fun _ => step r q) t)) :=
  (eachPair_advances hstep ps qs ht (ha.param hP) (hb.param hP)).bind fun _ hadv =>
    hstep hadv.keeps (hadv.fits (ha.ret hP)) (hadv.fits (hb.ret hP))

theorem unifyUpTo_advances (hP : Ty.Hereditary P) (n : Nat) : StepAdvances P (unifyUpTo n) := by
  induction n with
  | zero => exact fun ht _ _ => .refl ht
  | succ n ih =>
    intro a b t ht ha hb
    have hsa := ha.shallow hP ht
    have hsb := hb.shallow hP ht
    have hfa := fun r => ht.isFree_of_shallow (r := r) ha.below
    have hfb := fun r => ht.isFree_of_shallow (r := r) hb.below
    -- only the first three branches change the table, and each of them uses up a free root
    simp only [unifyUpTo]
    split
    · rename_i x y hx hy
      exact advances_union ht (hfa x hx) (hfb y hy)
    · rename_i x hx hne
      exact advances_bindRoot ht (hfa x hx) hsb hne
    · rename_i y hy hne
      exact advances_bindRoot ht (hfb y hy) hsa hne
    · exact .refl ht
    · exact .refl ht
    · rename_i x y hx hy
      rw [hx] at hsa
      rw [hy] at hsb
      rw [finalState_widened]
      exact ih ht (hsa.elem hP) (hsb.elem hP)
    · rename_i ps r qs s hx hy
      rw [hx] at hsa
      rw [hy] at hsb
      split
      · rw [finalState_widened]
        exact eachPair_bind_advances hP ih ht hsa hsb
      · exact .refl ht
    · split
      · exact .refl ht
      · exact .refl ht

theorem Table.Grounded.keeps (ht : t.Grounded) : t.Keeps fun _ => True :=
  ⟨ht, fun _ _ _ => trivial⟩

theorem Table.Fits.of_below (h : ty.Below t.size) : t.Fits (fun _ => True) ty :=
  ⟨h, trivial⟩

/-! ## More depth changes nothing -/

/-- Two steps that agree in every later table agree on lists. -/
theorem eachPair_congr (hstep : StepAdvances P step) :
    ∀ (as bs : List Ty) {t}, t.Keeps P → (∀ a ∈ as, t.Fits P a) → (∀ b ∈ bs, t.Fits P b) →
      (∀ a ∈ as, ∀ b ∈ bs, ∀ t', Advances P t t' → step a b t' = step' a b t') →
      eachPair step as bs t = eachPair step' as bs t
  | [], _, t, _, _, _, _ | _ :: _, [], t, _, _, _, _ => rfl
  | a :: as, b :: bs, t, ht, has, hbs, hsame => by
    have hadv := hstep ht (has a mem_cons_self) (hbs b mem_cons_self)
    have hhead := hsame a mem_cons_self b mem_cons_self t (.refl ht)
    simp only [eachPair, Bind.bind, EStateM.bind]
    rw [← hhead]
    cases hrun : step a b t with
    | error e t1 => rfl
    | ok u t1 =>
      rw [hrun] at hadv
      exact eachPair_congr hstep as bs hadv.keeps
        (fun x hx => hadv.fits (has x (mem_cons_of_mem _ hx)))
        (fun x hx => hadv.fits (hbs x (mem_cons_of_mem _ hx)))
        fun x hx y hy t' h => hsame x (mem_cons_of_mem _ hx) y (mem_cons_of_mem _ hy) t'
          (hadv.trans h)

/-- One level of unification, with a given way to unify the parts of the types. -/
def unifyStep (step : Ty → Ty → Solve Unit) (expected found : Ty) : Solve Unit := fun t =>
  match t.shallow expected, t.shallow found with
  | .var a, .var b => .ok () (t.union a b).2
  | .var a, ty => bindRoot a ty t
  | ty, .var b => bindRoot b ty t
  | .error, _ => .ok () t
  | _, .error => .ok () t
  | .list a, .list b => widened (.list a) (.list b) (step a b) t
  | .fn ps r, .fn qs s =>
    if ps.length = qs.length then
      widened (.fn ps r) (.fn qs s) (do eachPair step ps qs; step r s) t
    else
      .error (t.mismatch (.fn ps r) (.fn qs s)) t
  | a, b => if a = b then .ok () t else .error (t.mismatch a b) t

theorem unifyUpTo_succ_eq (n : Nat) (a b : Ty) :
    unifyUpTo (n + 1) a b = unifyStep (unifyUpTo n) a b :=
  rfl

/-- One level of unification depends on the level below only through the parts of the types, and
what stands inside the first type is less high. -/
theorem unifyStep_congr {step'} (hP : Ty.Hereditary P) (hstep : StepAdvances P step)
    (ht : t.Keeps P) (ha : t.Fits P a) (hb : t.Fits P b)
    (hsame : ∀ {x y t'}, Advances P t t' → t.Fits P x → t.Fits P y →
      (t.resolve x).height < (t.resolve a).height → step x y t' = step' x y t') :
    unifyStep step a b t = unifyStep step' a b t := by
  have hsa := ha.shallow hP ht
  have hsb := hb.shallow hP ht
  simp only [← ht.resolve_shallow ha.below] at hsame
  simp only [unifyStep]
  generalize t.shallow a = x at hsa hsame ⊢
  generalize t.shallow b = y at hsb ⊢
  cases x with
  | list x =>
    cases y with
    | list y =>
      have hlt : (t.resolve x).height < (t.resolve (.list x)).height := Nat.lt_succ_self _
      simp only [widened, hsame (.refl ht) (hsa.elem hP) (hsb.elem hP) hlt]
    | _ => rfl
  | fn ps r =>
    cases y with
    | fn qs s =>
      have hparams : eachPair step ps qs t = eachPair step' ps qs t := by
        refine eachPair_congr hstep ps qs ht (hsa.param hP) (hsb.param hP)
          fun p hp q hq t' hadv => ?_
        exact hsame hadv (hsa.param hP p hp) (hsb.param hP q hq) (height_resolve_param_lt t hp r)
      have hadv := eachPair_advances hstep ps qs ht (hsa.param hP) (hsb.param hP)
      have hboth : (eachPair step ps qs >>= fun _ => step r s) t =
          (eachPair step' ps qs >>= fun _ => step' r s) t := by
        simp only [Bind.bind, EStateM.bind]
        rw [← hparams]
        cases hrun : eachPair step ps qs t with
        | error e t1 => rfl
        | ok u t1 =>
          rw [hrun] at hadv
          exact hsame hadv (hsa.ret hP) (hsb.ret hP) (height_resolve_ret_lt t ps r)
      simp only [widened, hboth]
    | _ => rfl
  | _ => cases y <;> rfl

/-- One more level of depth than the effort changes nothing. -/
theorem unifyUpTo_succ (hpos : 0 < h) (n : Nat) : ∀ {a b t},
    t.Keeps (fun ty => ty.height ≤ h) → t.Fits (fun ty => ty.height ≤ h) a →
    t.Fits (fun ty => ty.height ≤ h) b → t.effort h a ≤ n →
    unifyUpTo n a b t = unifyUpTo (n + 1) a b t := by
  have hP := Ty.hereditary_height_le hpos
  induction n with
  | zero =>
    intro a b t _ _ _ hn
    have := t.effort_pos h a
    omega
  | succ n ih =>
    intro a b t ht ha hb hn
    refine unifyStep_congr hP (unifyUpTo_advances hP n) ht ha hb fun hadv hx hy hlt => ?_
    -- a part takes less effort, also after other parts were unified
    have heffort := hadv.effort_lt hx.holds hlt
    exact ih hadv.keeps (hadv.fits hx) (hadv.fits hy) (by omega)

theorem unifyUpTo_eq_of_le (ht : t.Keeps fun ty => ty.height ≤ h)
    (ha : t.Fits (fun ty => ty.height ≤ h) a) (hb : t.Fits (fun ty => ty.height ≤ h) b)
    (hm : (t.size + 1) * (t.size + 1) * h ≤ m) (hle : m ≤ n) :
    unifyUpTo m a b t = unifyUpTo n a b t := by
  have hpos : 0 < h := Nat.lt_of_lt_of_le a.height_pos ha.holds
  have heffort := Nat.le_trans (effort_le ht ha.holds) hm
  induction n, hle using Nat.le_induction with
  | base => rfl
  | succ n hle ih => rw [ih, unifyUpTo_succ hpos n ht ha hb (Nat.le_trans heffort hle)]

/-- A height that nothing in a table and in two types exceeds, and what it means for the depth. -/
theorem Table.Grounded.keeps_height (ht : t.Grounded) (a b : Ty) :
    ∃ h, 0 < h ∧ t.Keeps (fun ty => ty.height ≤ h) ∧ a.height ≤ h ∧ b.height ≤ h ∧
      t.unifyDepth a b = (t.size + 1) * (t.size + 1) * h + 1 := by
  have hah := Nat.le_max_left a.height b.height
  have hbh := Nat.le_max_right a.height b.height
  have hab := Nat.le_max_right t.bindingHeight (max a.height b.height)
  refine ⟨max t.bindingHeight (max a.height b.height), ?_, ⟨ht, fun v ty hv => ?_⟩,
    Nat.le_trans hah hab, Nat.le_trans hbh hab, rfl⟩
  · have := a.height_pos
    omega
  · exact Nat.le_trans (height_le_bindingHeight hv) (Nat.le_max_left _ _)

/-- **The depth of `unify` is never met:** any greater depth gives the same. -/
theorem unifyUpTo_eq_unify (ht : t.Grounded) (ha : a.Below t.size) (hb : b.Below t.size)
    (hn : t.unifyDepth a b ≤ n) : unifyUpTo n a b t = unify a b t := by
  obtain ⟨h, -, hkeeps, hah, hbh, hdepth⟩ := ht.keeps_height a b
  exact (unifyUpTo_eq_of_le hkeeps ⟨ha, hah⟩ ⟨hb, hbh⟩ (by omega) hn).symm

/-- What counts for the depth are the bindings that are read: any depth that their heights call for
gives what `unify` gives. -/
theorem unifyUpTo_eq_unify_of_keeps (ht : t.Keeps fun ty => ty.height ≤ h)
    (ha : t.Fits (fun ty => ty.height ≤ h) a) (hb : t.Fits (fun ty => ty.height ≤ h) b)
    (hn : (t.size + 1) * (t.size + 1) * h ≤ n) : unifyUpTo n a b t = unify a b t := by
  rw [unifyUpTo_eq_of_le ht ha hb hn (Nat.le_max_left n (t.unifyDepth a b))]
  exact unifyUpTo_eq_unify ht.toGrounded ha.below hb.below (Nat.le_max_right _ _)

/-- **Unification advances the table,** whether it succeeds or fails. -/
theorem unify_advances (hP : Ty.Hereditary P) : StepAdvances P unify :=
  unifyUpTo_advances hP _

end Unify

end Sluice
