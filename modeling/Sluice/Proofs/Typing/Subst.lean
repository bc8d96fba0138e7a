import Mathlib.Tactic.Common
import Sluice.Ty

/-!
# Substitution in types

What replacing the variables of a type does to its variables, to the error
type in it and to its height.
-/

namespace Sluice.Ty

open List

variable {f g : TyVar → Ty} {v : TyVar}

/-! ## Congruence and composition -/

mutual

/-- Only the variables of a type matter for a substitution. -/
theorem subst_congr : ∀ {t : Ty}, (∀ v ∈ t.vars, f v = g v) → t.subst f = t.subst g
  | prim _, _ | record _, _ | error, _ => rfl
  | list elem, h => by simp only [subst, subst_congr (t := elem) h]
  | fn params _, h => by
    obtain ⟨hparams, hret⟩ := forall_mem_append.1 h
    rw [subst, subst, substList_congr hparams, subst_congr hret]
  | var v, h => h v (mem_singleton.2 rfl)

theorem substList_congr : ∀ {l}, (∀ v ∈ varsList l, f v = g v) → substList f l = substList g l
  | [], _ => rfl
  | _ :: _, h => by
    obtain ⟨ht, hrest⟩ := forall_mem_append.1 h
    rw [substList, substList, subst_congr ht, substList_congr hrest]

end

mutual

/-- One substitution after another is one substitution. -/
theorem subst_subst (f g : TyVar → Ty) :
    ∀ t : Ty, (t.subst f).subst g = t.subst fun v => (f v).subst g
  | prim _ | record _ | error | var _ => rfl
  | list elem => by simp only [subst, subst_subst f g elem]
  | fn params ret => by simp only [subst, substList_substList f g params, subst_subst f g ret]

theorem substList_substList (f g : TyVar → Ty) :
    ∀ l : List Ty, substList g (substList f l) = substList (fun v => (f v).subst g) l
  | [] => rfl
  | t :: rest => by simp only [substList, subst_subst f g t, substList_substList f g rest]

end

mutual

/-- Variables put in place of themselves change nothing. -/
theorem subst_var : ∀ t : Ty, t.subst var = t
  | prim _ | record _ | error | var _ => rfl
  | list elem => by rw [subst, subst_var elem]
  | fn params ret => by rw [subst, substList_var params, subst_var ret]

theorem substList_var : ∀ l : List Ty, substList var l = l
  | [] => rfl
  | t :: rest => by rw [substList, subst_var t, substList_var rest]

end

theorem substList_eq_map (f : TyVar → Ty) (l : List Ty) : substList f l = l.map (·.subst f) := by
  induction l with
  | nil => rfl
  | cons t rest ih => rw [substList, map_cons, ih]

theorem mem_varsList : v ∈ varsList l ↔ ∃ t ∈ l, v ∈ t.vars := by
  induction l with
  | nil => simp [varsList]
  | cons t rest ih => simp [varsList, ih]

theorem hasErrorList_eq_false : hasErrorList l = false ↔ ∀ t ∈ l, t.hasError = false := by
  induction l with
  | nil => simp [hasErrorList]
  | cons t rest ih => simp [hasErrorList, ih]

/-! ## Variables, errors and height -/

mutual

/-- The variables after a substitution are those of what the variables before were replaced
by. -/
theorem mem_vars_subst : ∀ {t : Ty}, w ∈ (t.subst f).vars ↔ ∃ v ∈ t.vars, w ∈ (f v).vars
  | prim _ | record _ | error | var _ => by simp [subst, vars]
  | list elem => by simp only [subst, vars, mem_vars_subst (t := elem)]
  | fn params ret => by
    simp only [subst, vars, mem_append, mem_varsList_subst (l := params),
      mem_vars_subst (t := ret), or_and_right, exists_or]

theorem mem_varsList_subst : ∀ {l}, w ∈ varsList (substList f l) ↔ ∃ v ∈ varsList l, w ∈ (f v).vars
  | [] => by simp [substList, varsList]
  | t :: rest => by
    simp only [substList, varsList, mem_append, mem_vars_subst (t := t),
      mem_varsList_subst (l := rest), or_and_right, exists_or]

end

mutual

/-- A substitution by types without the error type adds none. -/
theorem hasError_subst : ∀ {t : Ty}, t.hasError = false → (∀ v ∈ t.vars, (f v).hasError = false) →
    (t.subst f).hasError = false
  | prim _, _, _ | record _, _, _ => rfl
  | error, h, _ => h
  | var v, _, hf => hf v (mem_singleton.2 rfl)
  | list elem, h, hf => hasError_subst (t := elem) h hf
  | fn params ret, h, hf => by
    obtain ⟨hparams, hret⟩ := forall_mem_append.1 hf
    simp only [hasError, Bool.or_eq_false_iff] at h
    simp only [subst, hasError, Bool.or_eq_false_iff]
    exact ⟨hasErrorList_subst h.1 hparams, hasError_subst h.2 hret⟩

theorem hasErrorList_subst : ∀ {l}, hasErrorList l = false →
    (∀ v ∈ varsList l, (f v).hasError = false) → hasErrorList (substList f l) = false
  | [], _, _ => rfl
  | t :: rest, h, hf => by
    obtain ⟨ht, hrest⟩ := forall_mem_append.1 hf
    simp only [hasErrorList, Bool.or_eq_false_iff] at h
    simp only [substList, hasErrorList, Bool.or_eq_false_iff]
    exact ⟨hasError_subst h.1 ht, hasErrorList_subst h.2 hrest⟩

end

mutual

/-- What a variable of a type is replaced by is no higher than the result. -/
theorem height_le_height_subst : ∀ {t : Ty}, v ∈ t.vars → (f v).height ≤ (t.subst f).height
  | prim _, h | record _, h | error, h => nomatch h
  | var w, h => by rw [mem_singleton.1 h]; exact Nat.le.refl
  | list elem, h => by
    have := height_le_height_subst (t := elem) h
    rw [subst, height]
    omega
  | fn params ret, h => by
    rw [vars, mem_append] at h
    rw [subst, height]
    rcases h with h | h
    · have := height_le_heightList_subst (l := params) h
      omega
    · have := height_le_height_subst (t := ret) h
      omega

theorem height_le_heightList_subst :
    ∀ {l}, v ∈ varsList l → (f v).height ≤ heightList (substList f l)
  | [], h => nomatch h
  | t :: rest, h => by
    rw [varsList, mem_append] at h
    rw [substList, heightList]
    rcases h with h | h
    · have := height_le_height_subst (t := t) h
      omega
    · have := height_le_heightList_subst (l := rest) h
      omega

end

/-- Inside a type that is not just a variable, what a variable is replaced by is lower than the
result. -/
theorem height_lt_height_subst : ∀ {t : Ty}, v ∈ t.vars → (∀ w, t ≠ var w) →
    (f v).height < (t.subst f).height
  | prim _, h, _ | record _, h, _ | error, h, _ => nomatch h
  | var w, _, hne => absurd rfl (hne w)
  | list elem, h, _ => by
    have := height_le_height_subst (f := f) (t := elem) h
    rw [subst, height]
    omega
  | fn params ret, h, _ => by
    rw [vars, mem_append] at h
    rw [subst, height]
    rcases h with h | h
    · have := height_le_heightList_subst (f := f) (l := params) h
      omega
    · have := height_le_height_subst (f := f) (t := ret) h
      omega

/-! ## Sound types -/

/-- A type that mentions only the first `size` variables and not the error type. -/
structure Sound (size : Nat) (ty : Ty) : Prop where
  lt_of_mem : ∀ v ∈ ty.vars, v < size
  no_error : ty.hasError = false

namespace Sound

variable {size size' : Nat} {ty : Ty}

theorem mono (h : ty.Sound size) (hle : size ≤ size') : ty.Sound size' :=
  ⟨fun v hv => Nat.lt_of_lt_of_le (h.lt_of_mem v hv) hle, h.no_error⟩

/-- A type without variables stays as it is. -/
theorem subst_of_closed (h : ty.Sound 0) (f : TyVar → Ty) : ty.subst f = ty :=
  (subst_congr fun v hv => absurd (h.lt_of_mem v hv) (Nat.not_lt_zero v)).trans ty.subst_var

/-- Where all variables stand for types without variables, none is left. -/
theorem subst_closed {f : TyVar → Ty} (h : ty.Sound size) (hf : ∀ v, (f v).Sound 0) :
    (ty.subst f).Sound 0 where
  lt_of_mem w hw := by
    obtain ⟨v, -, hw⟩ := mem_vars_subst.1 hw
    exact (hf v).lt_of_mem w hw
  no_error := hasError_subst h.no_error fun v _ => (hf v).no_error

theorem of_prim (p : Prim) : (prim p).Sound size :=
  ⟨nofun, rfl⟩

theorem of_record (name : String) : (record name).Sound size :=
  ⟨nofun, rfl⟩

theorem of_var (h : v < size) : (var v).Sound size :=
  ⟨fun w hw => by rw [mem_singleton.1 hw]; exact h, rfl⟩

theorem list_iff {elem} : (list elem).Sound size ↔ elem.Sound size :=
  ⟨fun h => ⟨h.lt_of_mem, h.no_error⟩, fun h => ⟨h.lt_of_mem, h.no_error⟩⟩

theorem fn_iff : (fn params ret).Sound size ↔ (∀ p ∈ params, p.Sound size) ∧ ret.Sound size := by
  constructor
  · rintro ⟨hv, he⟩
    simp only [hasError, Bool.or_eq_false_iff, hasErrorList_eq_false] at he
    refine ⟨fun p hp => ⟨fun v hpv => ?_, he.1 p hp⟩, fun v hrv => ?_, he.2⟩
    · exact hv v (mem_append_left _ (mem_varsList.2 ⟨p, hp, hpv⟩))
    · exact hv v (mem_append_right _ hrv)
  · rintro ⟨hp, hr⟩
    refine ⟨fun v hv => ?_, ?_⟩
    · rw [vars, mem_append] at hv
      rcases hv with hv | hv
      · obtain ⟨p, hpm, hpv⟩ := mem_varsList.1 hv
        exact (hp p hpm).lt_of_mem v hpv
      · exact hr.lt_of_mem v hv
    · simp only [hasError, Bool.or_eq_false_iff, hasErrorList_eq_false]
      exact ⟨fun p hpm => (hp p hpm).no_error, hr.no_error⟩

end Sound

end Sluice.Ty
