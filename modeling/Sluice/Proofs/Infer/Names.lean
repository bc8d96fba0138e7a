import Sluice.Proofs.Infer.Carry

/-!
# Types mention declared records only

A record comes into a type by being named, and it is looked up there. So if the
types that bodies can refer to mention declared records only, those that are
inferred do too.
-/

namespace Sluice.Infer

open List
open Source (RecordFollows RecordItem)
open Typed (Function)
open Unify (Table)

variable {g : Globals} {records : RecordTable} {s s' : State} {t t' : Table} {ty : Ty}

/-- What bodies can refer to mentions declared records only. -/
structure Globals.Named (g : Globals) : Prop where
  field_named : ∀ name r, g.records.get? name = some r → ∀ d ∈ r.fields, d.ty.Named g.records
  function_named : ∀ name sig, g.function? name = some sig → sig.ty.Named g.records
  method_named : ∀ owner r, g.records.get? owner = some r → ∀ m ∈ r.methods,
    m.ty.Named g.records

/-- What is declared mentions declared records only. -/
theorem Declared.Entries.named {d : Declared} {rs items} (h : d.Entries rs)
    (hfollows : Forall₂ (RecordFollows d.globals.records) items rs) : d.globals.Named := by
  refine ⟨fun name r hr x hx => ?_, fun name sig hsig => ?_, fun owner r hr m hm => ?_⟩
  · obtain ⟨r0, hr0, hfields, -⟩ := h.exists_of_get? hr
    obtain ⟨item, -, hitem⟩ := exists_of_forall₂_right hfollows hr0
    obtain ⟨_, -, hfield⟩ := exists_of_forall₂_right hitem.fields (hfields ▸ hx)
    exact hfield.named
  · obtain ⟨q, hq, -, -, rfl⟩ := h.exists_of_function? hsig
    exact h.signature_named q hq
  · obtain ⟨q, hq, -, -, hty⟩ := h.exists_of_method hr hm
    exact hty ▸ h.signature_named q hq

/-! ## Checks -/

theorem Unifies.binds {a b} (h : Unifies s a b s') (hs : s.table.Binds (Ty.Named records))
    (ha : a.Named records) (hb : b.Named records) : s'.table.Binds (Ty.Named records) :=
  Unify.unify_binds Ty.hereditary_named h.sound.table_sound h.left_sound h.right_sound ha hb hs
    h.run

theorem UnifiesEach.binds {as bs} (h : UnifiesEach s as bs s')
    (hs : s.table.Binds (Ty.Named records)) (has : ∀ a ∈ as, a.Named records)
    (hbs : ∀ b ∈ bs, b.Named records) : s'.table.Binds (Ty.Named records) := by
  induction h with
  | nil => exact hs
  | cons h _ ih =>
    obtain ⟨ha, has⟩ := forall_mem_cons.1 has
    obtain ⟨hb, hbs⟩ := forall_mem_cons.1 hbs
    exact ih (h.binds hs ha hb) has hbs

theorem CallStep.named {callee args} (h : CallStep s callee args ty s') (hsound : s.Sound)
    (hs : s.table.Binds (Ty.Named records)) (hcallee : callee.Named records)
    (hargs : ∀ a ∈ args, a.Named records) :
    s'.table.Binds (Ty.Named records) ∧ ty.Named records := by
  have hshallow := hs.shallow (fun _ => trivial) hcallee
  cases h with
  | known hfn _ hparams =>
    rw [hfn] at hshallow
    obtain ⟨hps, hret⟩ := Ty.named_fn_iff.1 hshallow
    exact ⟨hparams.binds hs hps hargs, hret⟩
  | unknown _ hfn =>
    exact ⟨hfn.binds (hs.newVariable hsound.table_sound.toIsForest) trivial
      (Ty.named_fn_iff.2 ⟨hargs, trivial⟩), trivial⟩

/-- **Checks carry along that types mention declared records only:** a record that comes into a type
is looked up. -/
def Globals.Named.carrying (hg : g.Named) : Carrying g where
  draws _ := True
  table t := t.Binds (Ty.Named g.records)
  type _ ty := ty.Named g.records
  meets ty := ty.Named g.records
  expr _ _ := True
  draws_child _ _ _ := trivial
  draws_cases _ _ := trivial
  type_mono h _ := h
  type_prim := trivial
  type_list := trivial
  type_record hr := RecordTable.contains_eq_true.2
    ⟨_, RecordTable.mem_of_get? hr, RecordTable.name_of_get? hr⟩
  type_field _ hr hd := hg.field_named _ _ hr _ hd
  type_function _ _ hsig := hg.function_named _ _ hsig
  type_method _ _ hr hm := hg.method_named _ _ hr _ (mem_of_find?_eq_some hm)
  meets_var := trivial
  meets_type h := h
  fresh ht h := h.newVariable ht.toIsForest
  annotated ht h hx :=
    have ha := annotated_annotates _ ht hx
    ⟨ha.opens.binds h, ha.named⟩
  unify hu h ha hb := ⟨hu.binds h ha hb, ha⟩
  call h hsound _ := h.named hsound
  expr_mono h _ := h
  expr_field := trivial
  expr_binary _ _ := trivial
  expr_other _ _ := trivial

/-! ## Bodies -/

/-- **What bodies declare mentions declared records only.** -/
theorem BodiesRun.named (hg : g.Named) (h : BodiesRun g t pending fs t')
    (hpending : ∀ p ∈ pending, p.signature.ty.Named g.records ∧ p.Fits)
    (ht : t.Binds (Ty.Named g.records)) :
    t'.Binds (Ty.Named g.records) ∧ ∀ f ∈ fs, ∀ l ∈ f.locals, l.ty.Named g.records := by
  induction h with
  | nil => exact ⟨ht, nofun⟩
  | cons h _ ih =>
    obtain ⟨⟨hp, hfits⟩, hrest⟩ := forall_mem_cons.1 hpending
    obtain ⟨hparams, hret⟩ := Ty.named_fn_iff.1 hp
    -- the marks around a body leave the bindings as they are
    obtain ⟨hbinds, hlocals, -⟩ := Carrying.body (c := hg.carrying) h trivial (ht.congr rfl rfl)
      (fun q hq => hparams _ (hfits q hq)) hret
    obtain ⟨hbinds', hlocals'⟩ := ih hrest (hbinds.congr rfl rfl)
    exact ⟨hbinds', forall_mem_cons.2 ⟨hlocals, hlocals'⟩⟩

/-- What a table reads a type as mentions declared records only if its bindings do. -/
theorem resolve_named (ht : t.Binds (Ty.Named records)) (hty : ty.Named records) :
    (t.resolve ty).Named records := by
  have hvar : ∀ n v, (t.resolveVar n v).Named records := by
    intro n
    induction n with
    | zero => exact fun v => trivial
    | succ n ih =>
      intro v
      rw [Table.resolveVar]
      cases hb : t.binding? v with
      | none => exact trivial
      | some bound => exact (ht v bound hb).subst ih
  exact hty.subst (hvar t.size)

end Sluice.Infer
