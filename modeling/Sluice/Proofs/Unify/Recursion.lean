import Sluice.Proofs.Unify.Depth
import Sluice.Proofs.Unify.Find

/-!
# Recursion without bounds

The functions on a table are given a bound on their recursion. In a grounded
table none of the bounds is ever met: each function satisfies the recursive
equation that it has without a bound, and what one call leads to is a relation
without infinite descent. Looking for a root goes up the links (`Up`), reading a
type goes on to bindings and to parts (`Reads`), and unifying goes on to the
parts of both types, in the table that the parts before have led to (`Calls`).
The two facts together say that the recursion ends by itself, with the result
that the bounded function gives.
-/

namespace Sluice.Unify

open List

namespace Table

variable {t : Table} {v w r : TyVar} {ty : Ty}

/-! ## Up the links -/

/-- One link up from a variable. -/
def Up (t : Table) (p v : TyVar) : Prop :=
  t.parent v = p ∧ p ≠ v

theorem IsForest.wellFounded_up (ht : t.IsForest) : WellFounded t.Up := by
  refine ⟨fun v => ?_⟩
  induction v using ht.induct with
  | step v ih =>
    refine ⟨v, fun p hp => ?_⟩
    obtain ⟨rfl, hne⟩ := hp
    exact ih hne

/-! ## From a type to what it is read with -/

/-- What reading a type goes on to read: the binding of a variable, and the parts of the other
types. -/
inductive Reads (t : Table) : Ty → Ty → Prop
  | binding {v : TyVar} {ty : Ty} (h : t.binding? v = some ty) : Reads t ty (.var v)
  | elem (elem : Ty) : Reads t elem (.list elem)
  | param {p : Ty} {params : List Ty} (ret : Ty) (h : p ∈ params) : Reads t p (.fn params ret)
  | ret (params : List Ty) (ret : Ty) : Reads t ret (.fn params ret)

/-- How far a type is from being read: the height of what it stands for, and one step more for a
variable, whose binding stands for the same. -/
def distance (t : Table) (ty : Ty) : Nat :=
  2 * (t.resolve ty).height + match ty with
    | .var _ => 1
    | _ => 0

theorem distance_of_ne_var (h : ∀ w, ty ≠ .var w) : t.distance ty = 2 * (t.resolve ty).height := by
  cases ty with
  | var w => exact absurd rfl (h w)
  | _ => rfl

theorem distance_le (t : Table) (ty : Ty) : t.distance ty ≤ 2 * (t.resolve ty).height + 1 := by
  unfold distance
  cases ty <;> simp

namespace Grounded

theorem distance_lt (ht : t.Grounded) (h : t.Reads part ty) : t.distance part < t.distance ty := by
  cases h with
  | @binding v _ hb =>
    have hne : ∀ w, part ≠ .var w := fun w hw => ht.binding_ne_var v w (hw ▸ hb)
    have hsame : t.resolve (.var v) = t.resolve part := by rw [ht.resolve_var, hb, Option.elim_some]
    have hvar : t.distance (.var v) = 2 * (t.resolve (.var v)).height + 1 := rfl
    rw [distance_of_ne_var hne, hvar, hsame]
    omega
  | elem =>
    have hle := t.distance_le part
    have hlist : t.distance (.list part) = 2 * ((t.resolve part).height + 1) := rfl
    omega
  | @param _ params ret hp =>
    have hle := t.distance_le part
    have hlt := height_resolve_param_lt t hp ret
    have hfn : t.distance (.fn params ret) = 2 * (t.resolve (.fn params ret)).height := rfl
    omega
  | ret params =>
    have hle := t.distance_le part
    have hlt := height_resolve_ret_lt t params part
    have hfn : t.distance (.fn params part) = 2 * (t.resolve (.fn params part)).height := rfl
    omega

/-- **Reading a type ends.** -/
theorem wellFounded_reads (ht : t.Grounded) : WellFounded t.Reads :=
  Subrelation.wf (fun h => ht.distance_lt h) (measure t.distance).wf

end Grounded

/-- One level of reading the outermost constructor of a type. -/
def shallowStep (t : Table) (read : Ty → Ty) : Ty → Ty
  | .var v => (t.binding? v).elim (.var (t.root v)) read
  | ty => ty

/-- One level of reading a whole type. -/
def resolveStep (t : Table) (read : Ty → Ty) : Ty → Ty
  | .var v => (t.binding? v).elim (.var (t.root v)) read
  | .list elem => .list (read elem)
  | .fn params ret => .fn (params.map read) (read ret)
  | ty => ty

/-- One level of looking for a root in a type. -/
def occursStep (t : Table) (r : TyVar) (occurs : Ty → Bool) : Ty → Bool
  | .var v => (t.binding? v).elim (decide (t.root v = r)) occurs
  | .list elem => occurs elem
  | .fn params ret => params.any occurs || occurs ret
  | _ => false

theorem IsForest.binding?_of_size_le (ht : t.IsForest) (h : t.size ≤ v) : t.binding? v = none := by
  cases hb : t.binding? v with
  | none => rfl
  | some ty => exact absurd (ht.lt_of_binding? hb) (Nat.not_lt_of_le h)

theorem resolve_fn (t : Table) (params : List Ty) (ret : Ty) :
    t.resolve (.fn params ret) = .fn (params.map t.resolve) (t.resolve ret) := by
  rw [resolve, Ty.subst, Ty.substList_eq_map]
  rfl

theorem mem_varsList_resolve {params : List Ty} :
    w ∈ Ty.varsList (params.map t.resolve) ↔ ∃ p ∈ params, w ∈ (t.resolve p).vars := by
  simp [Ty.mem_varsList]

namespace Grounded

theorem shallow_eq (ht : t.Grounded) (ty : Ty) : t.shallow ty = t.shallowStep t.shallow ty := by
  cases ty with
  | var v =>
    by_cases hv : v < t.size
    · rw [ht.shallow_var hv, shallowStep]
      cases hb : t.binding? v with
      | none => rfl
      | some ty =>
        cases ty with
        | var w => exact absurd hb (ht.binding_ne_var v w)
        | _ => rfl
    · have hb := ht.toIsForest.binding?_of_size_le (Nat.le_of_not_lt hv)
      rw [shallow, shallowStep, hb]
      cases t.size with
      | zero => rfl
      | succ n => rw [shallowVar, hb]; rfl
  | _ => rfl

theorem resolve_eq (ht : t.Grounded) (ty : Ty) : t.resolve ty = t.resolveStep t.resolve ty := by
  cases ty with
  | var v => exact ht.resolve_var v
  | fn params ret => exact t.resolve_fn params ret
  | _ => rfl

theorem occurs_eq (ht : t.Grounded) (r : TyVar) (ty : Ty) :
    t.occurs r ty = t.occursStep r (t.occurs r) ty := by
  rw [occurs, ht.resolve_eq]
  cases ty with
  | var v =>
    rw [resolveStep, occursStep]
    cases t.binding? v with
    | none => simp [Ty.vars, eq_comm]
    | some ty => rfl
  | fn params ret =>
    rw [Bool.eq_iff_iff]
    simp only [resolveStep, occursStep, Ty.vars, contains_iff_mem, mem_append,
      Bool.or_eq_true, any_eq_true, mem_varsList_resolve, occurs]
  | _ => rfl

/-! ## What is left after reading -/

/-- **What is read holds free roots only.** -/
theorem isRoot_of_mem_resolve (ht : t.Grounded) :
    ∀ v ∈ (t.resolve ty).vars, t.root v = v ∧ t.binding? v = none := by
  induction ty using ht.wellFounded_reads.induction with
  | h ty ih =>
    intro v hv
    rw [ht.resolve_eq] at hv
    cases ty with
    | var w =>
      rw [resolveStep] at hv
      cases hb : t.binding? w with
      | none =>
        rw [hb] at hv
        obtain rfl := mem_singleton.1 hv
        exact ⟨ht.root_root w, by rw [ht.binding?_root, hb]⟩
      | some ty =>
        rw [hb] at hv
        exact ih ty (.binding hb) v hv
    | list elem => exact ih elem (.elem elem) v hv
    | fn params ret =>
      rw [resolveStep, Ty.vars, mem_append, mem_varsList_resolve] at hv
      rcases hv with ⟨p, hp, hv⟩ | hv
      · exact ih p (.param ret hp) v hv
      · exact ih ret (.ret params ret) v hv
    | prim | record | error => exact nomatch hv

/-- **Reading twice is reading once.** -/
theorem resolve_resolve (ht : t.Grounded) (ty : Ty) : t.resolve (t.resolve ty) = t.resolve ty := by
  have hsame : (t.resolve ty).subst (fun v => t.resolve (.var v)) = (t.resolve ty).subst .var := by
    refine Ty.subst_congr fun v hv => ?_
    obtain ⟨hroot, hnone⟩ := ht.isRoot_of_mem_resolve v hv
    rw [ht.resolve_var, hnone, Option.elim_none, hroot]
  rw [resolve_eq_subst t (t.resolve ty), hsame, Ty.subst_var]

end Grounded

end Table

open Table

variable {t t' : Table} {a b x y : Ty} {P : Ty → Prop}

/-! ## From two types to their parts -/

/-- **Unifying without a bound:** one level, with the parts unified in the same way. -/
theorem unify_eq (ht : t.Grounded) (ha : a.Below t.size) (hb : b.Below t.size) :
    unify a b t = unifyStep unify a b t := by
  obtain ⟨h, hpos, hkeeps, hah, hbh, hdepth⟩ := ht.keeps_height a b
  have hP := Ty.hereditary_height_le hpos
  -- the bound of `unify` is one more than what the parts can take
  rw [unify, hdepth, unifyUpTo_succ_eq]
  refine unifyStep_congr hP (unifyUpTo_advances hP _) hkeeps ⟨ha, hah⟩ ⟨hb, hbh⟩
    fun hadv hx hy _ => ?_
  exact unifyUpTo_eq_unify_of_keeps hadv.keeps (hadv.fits hx) (hadv.fits hy)
    (by rw [hadv.size_eq])

/-- The calls that unifying two types makes. The parts of function types are unified from left to
right, each in the table that the ones before have led to. -/
inductive Calls : Table × Ty × Ty → Table × Ty × Ty → Prop
  | elem {t : Table} {a b x y : Ty} (ha : t.shallow a = .list x) (hb : t.shallow b = .list y) :
    Calls (t, x, y) (t, a, b)
  | param {t : Table} {a b p q r s : Ty} {ps qs : List Ty} (i : Nat)
    (ha : t.shallow a = .fn ps r) (hb : t.shallow b = .fn qs s)
    (hp : ps[i]? = some p) (hq : qs[i]? = some q) :
    Calls (finalState (eachPair unify (ps.take i) (qs.take i) t), p, q) (t, a, b)
  | ret {t : Table} {a b r s : Ty} {ps qs : List Ty}
    (ha : t.shallow a = .fn ps r) (hb : t.shallow b = .fn qs s) :
    Calls (finalState (eachPair unify ps qs t), r, s) (t, a, b)

/-- What a call is about: parts of both types, in a later table, and what stands inside the first
type is less high. -/
theorem Calls.parts (hP : Ty.Hereditary P) (h : Calls (t', x, y) (t, a, b)) (ht : t.Keeps P)
    (ha : t.Fits P a) (hb : t.Fits P b) :
    Advances P t t' ∧ t.Fits P x ∧ t.Fits P y ∧ (t.resolve x).height < (t.resolve a).height := by
  have hsa := ha.shallow hP ht
  have hsb := hb.shallow hP ht
  rw [← ht.resolve_shallow ha.below]
  cases h with
  | elem hx hy =>
    rw [hx] at hsa ⊢
    rw [hy] at hsb
    exact ⟨.refl ht, hsa.elem hP, hsb.elem hP, Nat.lt_succ_self _⟩
  | @param _ _ _ _ _ r s ps qs i hx hy hp hq =>
    rw [hx] at hsa ⊢
    rw [hy] at hsb
    have hmem := mem_of_getElem? hp
    refine ⟨?_, hsa.param hP x hmem, hsb.param hP y (mem_of_getElem? hq),
      height_resolve_param_lt t hmem r⟩
    exact eachPair_advances (unify_advances hP) _ _ ht
      (fun p hp => hsa.param hP p (mem_of_mem_take hp))
      (fun q hq => hsb.param hP q (mem_of_mem_take hq))
  | @ret _ _ _ _ _ ps qs hx hy =>
    rw [hx] at hsa ⊢
    rw [hy] at hsb
    exact ⟨eachPair_advances (unify_advances hP) ps qs ht (hsa.param hP) (hsb.param hP),
      hsa.ret hP, hsb.ret hP, height_resolve_ret_lt t ps x⟩

/-- **Unifying ends:** from a grounded table no sequence of calls goes on for ever. -/
theorem acc_calls (ht : t.Grounded) (ha : a.Below t.size) (hb : b.Below t.size) :
    Acc Calls (t, a, b) := by
  obtain ⟨h, hpos, hkeeps, hah, hbh, -⟩ := ht.keeps_height a b
  have hP := Ty.hereditary_height_le hpos
  suffices hall : ∀ n (t : Table) a b, t.Keeps (fun ty => ty.height ≤ h) →
      t.Fits (fun ty => ty.height ≤ h) a → t.Fits (fun ty => ty.height ≤ h) b →
      t.effort h a = n → Acc Calls (t, a, b) from
    hall _ t a b hkeeps ⟨ha, hah⟩ ⟨hb, hbh⟩ rfl
  intro n
  induction n using Nat.strongRecOn with
  | ind n ih =>
    intro t a b ht ha hb hn
    refine ⟨_, fun call hcall => ?_⟩
    obtain ⟨t', x, y⟩ := call
    obtain ⟨hadv, hx, hy, hlt⟩ := hcall.parts hP ht ha hb
    have heffort := hadv.effort_lt hx.holds hlt
    exact ih _ (by omega) t' x y hadv.keeps (hadv.fits hx) (hadv.fits hy) rfl

end Sluice.Unify
