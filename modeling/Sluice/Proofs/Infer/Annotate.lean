import Sluice.Infer.Declare
import Sluice.Proofs.Infer.Basic
import Sluice.Proofs.Unify.Link
import Sluice.Typed.Annotated

/-!
# What annotations name

The type an annotation names is allowed by it under every reading and mentions
declared records only, and reading annotations binds no variable. The other way
round, a type without variables that mentions declared records only is what its
own spelling names.
-/

namespace Sluice

open List

namespace Ty

variable {records records' : RecordTable}

mutual

/-- A type that mentions declared records only. -/
def Named (records : RecordTable) : Ty → Prop
  | prim _ | var _ | error => True
  | list elem => elem.Named records
  | record name => records.contains name = true
  | fn params ret => NamedList records params ∧ ret.Named records

def NamedList (records : RecordTable) : List Ty → Prop
  | [] => True
  | ty :: rest => ty.Named records ∧ NamedList records rest

end

theorem namedList_iff : NamedList records l ↔ ∀ ty ∈ l, ty.Named records := by
  induction l with
  | nil => exact ⟨fun _ _ h => absurd h not_mem_nil, fun _ => trivial⟩
  | cons ty rest ih => rw [NamedList, ih, forall_mem_cons]

theorem named_fn_iff :
    (fn params ret).Named records ↔ (∀ ty ∈ params, ty.Named records) ∧ ret.Named records := by
  rw [Named, namedList_iff]

/-- The parts of a type mention no other records than the type. -/
theorem hereditary_named : Hereditary (Named records) where
  var _ := trivial
  list _ h := h
  param _ _ h := (named_fn_iff.1 h).1
  ret _ _ h := (named_fn_iff.1 h).2

mutual

theorem Named.subst (hf : ∀ v, (f v).Named records) :
    ∀ {ty : Ty}, ty.Named records → (ty.subst f).Named records
  | prim _, _ | error, _ => trivial
  | record _, h => h
  | var v, _ => hf v
  | list elem, h => show (elem.subst f).Named records from Named.subst hf h
  | fn _ _, h => ⟨NamedList.subst hf h.1, Named.subst hf h.2⟩

theorem NamedList.subst (hf : ∀ v, (f v).Named records) :
    ∀ {l}, NamedList records l → NamedList records (substList f l)
  | [], _ => trivial
  | _ :: _, h => ⟨Named.subst hf h.1, NamedList.subst hf h.2⟩

end

mutual

/-- Only the names of the records matter. -/
theorem Named.congr (h : ∀ name, records.contains name = records'.contains name) :
    ∀ {ty : Ty}, ty.Named records → ty.Named records'
  | prim _, _ | var _, _ | error, _ => trivial
  | record name, hty => (h name).symm.trans hty
  | list elem, hty => show elem.Named records' from Named.congr h hty
  | fn _ _, hty => ⟨NamedList.congr h hty.1, Named.congr h hty.2⟩

theorem NamedList.congr (h : ∀ name, records.contains name = records'.contains name) :
    ∀ {l}, NamedList records l → NamedList records' l
  | [], _ => trivial
  | _ :: _, hl => ⟨Named.congr h hl.1, NamedList.congr h hl.2⟩

end

/-- A type that can be spelled out: no variables are left in it, and it mentions declared records
only. -/
structure Spellable (records : RecordTable) (ty : Ty) : Prop where
  closed : ty.Sound 0
  named : ty.Named records

theorem Spellable.congr {ty : Ty} (h : ty.Spellable records)
    (hrecords : ∀ name, records.contains name = records'.contains name) : ty.Spellable records' :=
  ⟨h.closed, h.named.congr hrecords⟩

end Ty

theorem Unify.Table.Binds.newVariable {t : Unify.Table} (ht : t.IsForest)
    (h : t.Binds P) : t.newVariable.2.Binds P := by
  intro v ty hv
  rw [binding?_newVariable ht] at hv
  exact h v ty hv

namespace Infer

open Source (TypeExpr)
open Unify (Table)
open Unify.Table (Solves)

variable {records : RecordTable} {t t' : Table} {a : TypeExpr}

/-- A table that has more variables than another, all of them open. -/
structure Opens (t t' : Table) : Prop where
  binds : ∀ {P : Ty → Prop}, t.Binds P → t'.Binds P
  solves : ∀ {ψ : TyVar → Ty}, Solves ψ t → Solves ψ t'

namespace Opens

theorem refl (t : Table) : Opens t t := ⟨id, id⟩

theorem trans (h : Opens t t1) (h' : Opens t1 t') : Opens t t' :=
  ⟨fun hP => h'.binds (h.binds hP), fun hψ => h'.solves (h.solves hψ)⟩

theorem newVariable (ht : t.Sound) : Opens t t.newVariable.2 :=
  ⟨fun hP => hP.newVariable ht.toIsForest, fun hψ => hψ.newVariable ht⟩

end Opens

/-- What an annotation without error leaves behind: a table that knows more, in which no variable
has been bound, and a type that it allows under every reading. The variables of the type are new,
and the records that it mentions are declared. -/
structure Annotates (records : RecordTable) (a : TypeExpr) (t : Table) (ty : Ty) (t' : Table) :
    Prop where
  refines : t.Refines t'
  opens : Opens t t'
  sound : ty.Sound t'.size
  named : ty.Named records
  vars_new : ∀ v ∈ ty.vars, t.size ≤ v
  allowed : ∀ θ, a.Allows records (ty.subst θ)

/-- The same for several annotations. -/
structure AnnotatesList (records : RecordTable) (as : List TypeExpr) (t : Table) (tys : List Ty)
    (t' : Table) : Prop where
  refines : t.Refines t'
  opens : Opens t t'
  sound : ∀ ty ∈ tys, ty.Sound t'.size
  named : ∀ ty ∈ tys, ty.Named records
  vars_new : ∀ ty ∈ tys, ∀ v ∈ ty.vars, t.size ≤ v
  allowed : ∀ θ, TypeExpr.AllowsList records as (Ty.substList θ tys)

theorem AnnotatesList.nil (ht : t.Sound) : AnnotatesList records [] t [] t :=
  ⟨.refl ht, .refl t, by simp, by simp, by simp, fun _ => rfl⟩

theorem AnnotatesList.cons (h : Annotates records a t ty t1)
    (hrest : AnnotatesList records rest t1 tys t') :
    AnnotatesList records (a :: rest) t (ty :: tys) t' where
  refines := h.refines.trans hrest.refines
  opens := h.opens.trans hrest.opens
  sound := forall_mem_cons.2 ⟨h.sound.mono hrest.refines.size_le, hrest.sound⟩
  named := forall_mem_cons.2 ⟨h.named, hrest.named⟩
  -- what is new after the first is new before it
  vars_new := forall_mem_cons.2 ⟨h.vars_new, fun ty hty v hv =>
    Nat.le_trans h.refines.size_le (hrest.vars_new ty hty v hv)⟩
  allowed θ := ⟨_, _, rfl, h.allowed θ, hrest.allowed θ⟩

/-- A list without its elements leaves them open. -/
theorem Annotates.newVariable (ht : t.Sound) (ha : ∀ elem : Ty, a.Allows records (.list elem)) :
    Annotates records a t (.list (.var t.newVariable.1)) t.newVariable.2 where
  refines := Unify.Table.refines_newVariable ht
  opens := .newVariable ht
  sound := Ty.Sound.list_iff.2 (.of_var (newVariable_lt t))
  named := trivial
  vars_new _ hv := Nat.le_of_eq (mem_singleton.1 hv).symm
  allowed _ := ha _

mutual

/-- **The type an annotation names** is allowed by it, and its variables are new and stay open. -/
theorem annotated_annotates : ∀ (a : TypeExpr) {t t' ty}, t.Sound →
    annotated records a t = .ok ty t' → Annotates records a t ty t'
  | .named _ name, t, t', ty, ht, h => by
    rw [annotated] at h
    by_cases hlist : name.name = "list"
    · -- a list by name is a list without its elements
      simp only [hlist, if_true] at h
      cases h
      exact .newVariable ht fun elem => by
        rw [TypeExpr.Allows, if_pos hlist]
        exact ⟨elem, rfl⟩
    · simp only [hlist, if_false] at h
      cases hprim : Prim.ofText? name.name with
      | some q =>
        simp only [hprim] at h
        cases h
        refine ⟨.refl ht, .refl t, .of_prim q, trivial, by simp [Ty.vars], fun θ => ?_⟩
        rw [TypeExpr.Allows, if_neg hlist, hprim]
        rfl
      | none =>
        simp only [hprim] at h
        split at h
        · rename_i hrec
          cases h
          refine ⟨.refl ht, .refl t, .of_record _, hrec, by simp [Ty.vars], fun θ => ?_⟩
          rw [TypeExpr.Allows, if_neg hlist, hprim]
          exact ⟨hrec, rfl⟩
        · cases h
  | .bareList _, t, t', ty, ht, h => by
    cases h
    exact .newVariable ht fun elem => ⟨elem, rfl⟩
  | .list _ elem, t, t', ty, ht, h => by
    obtain ⟨ty1, t1, h1, h2⟩ := bind_eq_ok.1 h
    obtain ⟨rfl, rfl⟩ := pure_eq_ok.1 h2
    have he := annotated_annotates elem ht h1
    exact ⟨he.refines, he.opens, Ty.Sound.list_iff.2 he.sound, he.named, he.vars_new,
      fun θ => ⟨_, rfl, he.allowed θ⟩⟩
  | .fn _ params ret, t, t', ty, ht, h => by
    obtain ⟨tys, t1, h1, h2⟩ := bind_eq_ok.1 h
    obtain ⟨ty2, t2, h3, h4⟩ := bind_eq_ok.1 h2
    obtain ⟨rfl, rfl⟩ := pure_eq_ok.1 h4
    have hp := annotatedList_annotates params ht h1
    have hr := annotated_annotates ret hp.refines.sound h3
    refine ⟨hp.refines.trans hr.refines, hp.opens.trans hr.opens, Ty.Sound.fn_iff.2
      ⟨fun q hq => (hp.sound q hq).mono hr.refines.size_le, hr.sound⟩,
      Ty.named_fn_iff.2 ⟨hp.named, hr.named⟩, fun v hv => ?_,
      fun θ => ⟨_, _, rfl, hp.allowed θ, hr.allowed θ⟩⟩
    rw [Ty.vars, mem_append] at hv
    rcases hv with hv | hv
    · obtain ⟨param, hparam, hv⟩ := Ty.mem_varsList.1 hv
      exact hp.vars_new param hparam v hv
    · exact Nat.le_trans hp.refines.size_le (hr.vars_new v hv)

theorem annotatedList_annotates : ∀ (as : List TypeExpr) {t t' tys}, t.Sound →
    annotatedList records as t = .ok tys t' → AnnotatesList records as t tys t'
  | [], t, t', tys, ht, h => by
    obtain ⟨rfl, rfl⟩ := pure_eq_ok.1 h
    exact .nil ht
  | a :: rest, t, t', tys, ht, h => by
    obtain ⟨ty1, t1, h1, h2⟩ := bind_eq_ok.1 h
    obtain ⟨tys2, t2, h3, h4⟩ := bind_eq_ok.1 h2
    obtain ⟨rfl, rfl⟩ := pure_eq_ok.1 h4
    have ha := annotated_annotates a ht h1
    exact .cons ha (annotatedList_annotates rest ha.refines.sound h3)

end

theorem annotatedType_settles (hs : s.Sound) (h : annotatedType records a s = .ok ty s') :
    Settles g s s' (fun _ _ θ => a.Allows records (ty.subst θ)) ∧ ty.Sound s'.table.size := by
  rw [annotatedType] at h
  split at h
  · rename_i ht
    cases h
    have ha := annotated_annotates a hs.table_sound ht
    exact ⟨.of_refines hs ha.refines fun _ _ θ _ => ha.allowed θ, ha.sound⟩
  · cases h

/-! ## Spelled types -/

/-- No declared record has the name of a built-in type. -/
def NoBuiltin (records : RecordTable) : Prop :=
  ∀ name, records.contains name = true → Declared.isBuiltin name = false

theorem NoBuiltin.congr (h : NoBuiltin records)
    (hrecords : ∀ name, records.contains name = records'.contains name) : NoBuiltin records' :=
  fun name hname => h name ((hrecords name).trans hname)

mutual

/-- **A type is what its spelling names,** if it has no variables and mentions declared records
only. -/
theorem annotated_spelled (hrecords : NoBuiltin records) (span : Span) (t : Table) :
    ∀ {ty}, ty.Sound 0 → ty.Named records → annotated records (ty.spelled span) t = .ok ty t
  | .prim p, _, _ => by
    cases p <;> rfl
  | .record name, _, hnamed => by
    have hbuiltin := hrecords name hnamed
    rw [Declared.isBuiltin, Bool.or_eq_false_iff] at hbuiltin
    have hlist : name ≠ "list" := by simpa using hbuiltin.1
    have hprim : Prim.ofText? name = none := by simpa using hbuiltin.2
    rw [Ty.spelled, annotated]
    simp only [if_neg hlist, hprim]
    exact if_pos hnamed
  | .var v, hclosed, _ => absurd (hclosed.lt_of_mem v (mem_singleton.2 rfl)) (Nat.not_lt_zero v)
  | .error, hclosed, _ => absurd hclosed.no_error (by decide)
  | .list elem, hclosed, hnamed => by
    have helem := annotated_spelled hrecords span t (Ty.Sound.list_iff.1 hclosed) hnamed
    exact bind_ok helem rfl
  | .fn params ret, hclosed, hnamed => by
    obtain ⟨hparams, hret⟩ := Ty.Sound.fn_iff.1 hclosed
    exact bind_ok (annotatedList_spelled hrecords span t hparams hnamed.1) <|
      bind_ok (annotated_spelled hrecords span t hret hnamed.2) rfl

theorem annotatedList_spelled (hrecords : NoBuiltin records) (span : Span) (t : Table) :
    ∀ {tys}, (∀ ty ∈ tys, ty.Sound 0) → Ty.NamedList records tys →
    annotatedList records (Ty.spelledList span tys) t = .ok tys t
  | [], _, _ => by
    rfl
  | ty :: rest, hclosed, hnamed => by
    obtain ⟨hty, hrest⟩ := forall_mem_cons.1 hclosed
    exact bind_ok (annotated_spelled hrecords span t hty hnamed.1) <|
      bind_ok (annotatedList_spelled hrecords span t hrest hnamed.2) rfl

end

end Infer

end Sluice
