import Sluice.Proofs.Infer.Alone
import Sluice.Proofs.Infer.Resolved

/-!
# Declarations that leave nothing open

In a fully annotated program every result type is written down and no
annotation leaves the element type of a list open. Declaring it makes no type
variable, whether or not errors are reported on the way: the table is still
empty, and what bodies can refer to has no variables (`declare_settled`).
-/

namespace Sluice

open List

namespace Source

/-- A definition that writes down its result type and leaves no type open. -/
structure Definition.FullyAnnotated (d : Definition) : Prop where
  params_full : ∀ p ∈ d.params, p.value.isFull = true
  ret_full : ∃ a, d.ret = some a ∧ a.isFull = true

/-- An item whose annotations leave no type open. -/
def Item.FullyAnnotated : Item → Prop
  | .record _ _ fields => ∀ f ∈ fields, f.value.isFull = true
  | .function _ d => d.FullyAnnotated
  | .methods _ _ defs => ∀ d ∈ defs, d.FullyAnnotated

/-- **A fully annotated program:** every function and method has a result annotation, and no
annotation of a field, parameter or result mentions a list without element type. -/
def Program.FullyAnnotated (source : Program) : Prop :=
  ∀ item ∈ source, item.FullyAnnotated

/-! Bodies do not matter for this. -/

theorem Definition.FullyAnnotated.of_sameHead {d d' : Definition} (hd : d.FullyAnnotated)
    (h : d.SameHead d') : d'.FullyAnnotated := by
  rw [Definition.SameHead] at h
  rw [h]
  exact ⟨hd.params_full, hd.ret_full⟩

/-- What holds of all members of a list passes to the members of a related list. -/
theorem forall_mem_of_forall₂ {P : α → Prop} (h : Forall₂ R xs ys) (hR : ∀ {x y}, P x → R x y → P y)
    (hxs : ∀ x ∈ xs, P x) : ∀ y ∈ ys, P y := by
  induction h with
  | nil => exact hxs
  | cons hxy _ ih =>
    obtain ⟨hx, hrest⟩ := forall_mem_cons.1 hxs
    exact forall_mem_cons.2 ⟨hR hx hxy, ih hrest⟩

theorem Item.FullyAnnotated.of_sameHeads {item item' : Item} (hitem : item.FullyAnnotated)
    (h : item.SameHeads item') : item'.FullyAnnotated := by
  cases h with
  | record => exact hitem
  | function hd => exact Definition.FullyAnnotated.of_sameHead hitem hd
  | methods hdefs => exact forall_mem_of_forall₂ hdefs Definition.FullyAnnotated.of_sameHead hitem

theorem Program.FullyAnnotated.of_sameHeads {source source' : Program}
    (hfull : source.FullyAnnotated) (h : source.SameHeads source') : source'.FullyAnnotated :=
  forall_mem_of_forall₂ h Item.FullyAnnotated.of_sameHeads hfull

end Source

namespace Infer

open Source (Definition Item Named TypeExpr Program)
open Unify (Table)

/-! ## Declarations -/

/-- **No type has been left open** by what has been declared. -/
structure Declared.Settled (d : Declared) : Prop where
  table_eq : d.table = {}
  globals_closed : d.globals.Closed
  pending_closed : ∀ p ∈ d.pending, p.signature.ty.vars = []

namespace Declared

variable {d : Declared} {definition : Definition}

namespace Settled

theorem report (h : d.Settled) (span : Span) (fault : Fault) : (d.report span fault).Settled :=
  ⟨h.table_eq, h.globals_closed, h.pending_closed⟩

theorem withGlobals (h : d.Settled) (hg : g.Closed) : Settled { d with globals := g } :=
  ⟨h.table_eq, hg, h.pending_closed⟩

theorem withRecords (h : d.Settled)
    (hrecords : ∀ r ∈ records.records, r.Closed) : (d.withRecords records).Settled :=
  h.withGlobals ⟨hrecords, h.globals_closed.function_closed⟩

theorem queue (h : d.Settled) (sound : Bool) (hp : p.signature.ty.vars = []) :
    (d.queue sound p).Settled := by
  rw [Declared.queue]
  split
  · exact ⟨h.table_eq, h.globals_closed,
      forall_mem_append.2 ⟨h.pending_closed, forall_mem_singleton.2 hp⟩⟩
  · exact h

theorem annotationType (h : d.Settled) (hx : x.isFull = true) :
    (d.annotationType x).1.vars = [] ∧ (d.annotationType x).2.Settled := by
  have hleads := annotated_leads (R := Eq) (fun _ => rfl) .trans d.globals.records x
    (fun hopen => absurd (hopen.symm.trans hx) Bool.false_ne_true) d.table
  rw [Declared.annotationType]
  split <;> rename_i t heq <;> rw [heq] at hleads <;> obtain rfl : d.table = t := hleads
  · -- its variables would be new ones, and there are none
    have ha := annotated_annotates x (h.table_eq ▸ Table.sound_empty) heq
    have hvars : ∀ v, v ∉ Ty.vars _ := fun v hv =>
      Nat.not_le.2 (ha.sound.lt_of_mem v hv) (ha.vars_new v hv)
    exact ⟨eq_nil_iff_forall_not_mem.2 hvars, h.table_eq, h.globals_closed, h.pending_closed⟩
  · exact ⟨rfl, h.table_eq, h.globals_closed, h.pending_closed⟩

theorem annotationTypes : ∀ (xs : List TypeExpr) {d : Declared}, d.Settled →
    (∀ x ∈ xs, x.isFull = true) →
    Ty.varsList (d.annotationTypes xs).1 = [] ∧ (d.annotationTypes xs).2.Settled
  | [], _, h, _ => ⟨rfl, h⟩
  | x :: rest, d, h, hxs => by
    obtain ⟨hx, hrest⟩ := forall_mem_cons.1 hxs
    obtain ⟨hty, h1⟩ := h.annotationType hx
    obtain ⟨htys, h2⟩ := annotationTypes rest h1 hrest
    refine ⟨?_, h2⟩
    simp only [Declared.annotationTypes, Ty.varsList, hty, htys, append_nil]

theorem signature (h : d.Settled) (hd : definition.FullyAnnotated) (receiver : List Ty)
    (hreceiver : Ty.varsList receiver = []) :
    (d.signature definition receiver).1.ty.vars = [] ∧
      (d.signature definition receiver).2.2.Settled := by
  obtain ⟨a, hret, ha⟩ := hd.ret_full
  obtain ⟨hparams, h1⟩ := annotationTypes (definition.params.map (·.value)) h
    (forall_mem_map.2 hd.params_full)
  obtain ⟨hty, h2⟩ := h1.annotationType ha
  have happend : ∀ tys tys' : List Ty, Ty.varsList tys = [] → Ty.varsList tys' = [] →
      Ty.varsList (tys ++ tys') = [] := by
    intro tys tys' htys htys'
    induction tys with
    | nil => exact htys'
    | cons ty rest ih =>
      rw [Ty.varsList, append_eq_nil_iff] at htys
      rw [cons_append, Ty.varsList, htys.1, ih htys.2]
      rfl
  rw [Declared.signature]
  simp only [hret, Signature.ty, Ty.vars, happend _ _ hreceiver hparams, hty, append_nil, true_and]
  exact h2

theorem entered {g signature} (h : g.Closed) (kind : Typed.Kind) (definition : Definition)
    (hty : signature.ty.vars = []) : (Declared.entered g kind definition signature).Closed := by
  cases kind with
  | free =>
    exact ⟨h.record_closed, forall_mem_append.2 ⟨h.function_closed, forall_mem_singleton.2 hty⟩⟩
  | method record name =>
    refine ⟨fun r hr => ?_, h.function_closed⟩
    obtain ⟨r0, hr0, rfl⟩ := mem_map.1 hr
    have hclosed := h.record_closed r0 hr0
    split
    · exact ⟨hclosed.1, forall_mem_append.2 ⟨hclosed.2, forall_mem_singleton.2 hty⟩⟩
    · exact hclosed

/-- A definition is entered even where its body is not queued. -/
theorem declareAs (h : d.Settled) (kind : Typed.Kind) (hd : definition.FullyAnnotated) :
    (d.declareAs kind definition).Settled := by
  obtain ⟨hty, h1⟩ := h.signature hd ((Source.receiver kind).map (·.2)) (by cases kind <;> rfl)
  rw [Declared.declareAs]
  simp only
  split
  · exact h.report _ _
  · exact (h1.withGlobals (entered h1.globals_closed kind definition hty)).queue _ hty

theorem declareItem (h : d.Settled) (hitem : item.FullyAnnotated) :
    (d.declareItem item).Settled := by
  cases item with
  | record => exact h
  | function _ definition => exact h.declareAs .free hitem
  | methods _ record defs =>
    rw [Declared.declareItem]
    split
    · exact List.foldlRecOn defs _ h fun d hd m hm =>
        hd.declareAs (.method record.name _) (hitem m hm)
    · exact h.report _ _

theorem declareRecord (h : d.Settled) (span : Span) (name : Source.Ident) :
    (d.declareRecord span name).2.Settled := by
  rw [Declared.declareRecord]
  cases hinsert : d.globals.records.insert? ⟨span, name.name, [], []⟩ with
  | none => exact h.report _ _
  | some records =>
    simp only
    split
    · exact h.report _ _
    · -- a new record has no fields and methods yet
      rw [RecordTable.insert?] at hinsert
      split at hinsert
      · cases hinsert
      · cases hinsert
        exact h.withRecords (forall_mem_append.2 ⟨h.globals_closed.record_closed,
          forall_mem_singleton.2 ⟨forall_mem_nil _, forall_mem_nil _⟩⟩)

theorem declareRecords : ∀ (items : List Item) {d : Declared}, d.Settled →
    (∀ item ∈ items, item.FullyAnnotated) → (d.declareRecords items).2.Settled ∧
      ∀ x ∈ (d.declareRecords items).1, ∀ f ∈ x.2, f.value.isFull = true
  | [], _, h, _ => ⟨h, nofun⟩
  | .record span name fields :: rest, d, h, hitems => by
    obtain ⟨hitem, hrest⟩ := forall_mem_cons.1 hitems
    obtain ⟨h1, hfull⟩ := declareRecords rest (h.declareRecord span name) hrest
    refine ⟨h1, ?_⟩
    simp only [Declared.declareRecords]
    split
    · exact forall_mem_cons.2 ⟨hitem, hfull⟩
    · exact hfull
  | .function _ _ :: rest, d, h, hitems | .methods _ _ _ :: rest, d, h, hitems =>
    declareRecords rest h (forall_mem_cons.1 hitems).2

theorem declareFields (record : Source.Ident) : ∀ (fields : List (Named TypeExpr))
    {sofar} {d : Declared}, d.Settled → (∀ f ∈ fields, f.value.isFull = true) →
    (∀ f ∈ sofar, f.ty.vars = []) → (d.declareFields record sofar fields).Settled
  | [], sofar, d, h, _, hsofar => by
    refine h.withRecords fun r hr => ?_
    obtain ⟨r0, hr0, rfl⟩ := mem_map.1 hr
    have hclosed := h.globals_closed.record_closed r0 hr0
    split
    · exact ⟨hsofar, hclosed.2⟩
    · exact hclosed
  | ⟨span, name, x⟩ :: rest, sofar, d, h, hfields, hsofar => by
    obtain ⟨hx, hrest⟩ := forall_mem_cons.1 hfields
    rw [Declared.declareFields]
    split
    · exact declareFields record rest (h.report _ _) hrest hsofar
    · obtain ⟨hty, h1⟩ := h.annotationType hx
      exact declareFields record rest h1 hrest
        (forall_mem_append.2 ⟨hsofar, forall_mem_singleton.2 hty⟩)

end Settled

theorem settled_empty : Settled {} where
  table_eq := rfl
  globals_closed := ⟨nofun, nofun⟩
  pending_closed _ hp := nomatch hp

end Declared

/-- **Declaring a fully annotated program leaves no type open.** -/
theorem declare_settled {source : Program} (h : source.FullyAnnotated) :
    (declare source).Settled := by
  obtain ⟨h1, hfull⟩ := Declared.Settled.declareRecords source Declared.settled_empty h
  have h2 := List.foldlRecOn _ (fun (d : Declared) (x : Source.Ident × List (Named TypeExpr)) =>
    d.declareFields x.1 [] x.2) h1 fun d hd x hx => hd.declareFields x.1 x.2 (hfull x hx) nofun
  exact List.foldlRecOn source _ h2 fun d hd item hitem => hd.declareItem (h item hitem)

end Infer

end Sluice
