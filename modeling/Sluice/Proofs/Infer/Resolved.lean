import Sluice.Proofs.Infer.Program
import Sluice.Proofs.Typing.Parts

/-!
# Types of records after checking

That all types of functions are known is checked, that those of records are known is
not: a field whose annotation leaves something open keeps it open if no function
mentions the field (`infer_openSource`). This is the only way: methods are functions,
and a field that is mentioned has the type of an expression or pattern
(`infer_records_resolved`).
-/

namespace Sluice

open List

theorem Ty.isUnresolved_eq_false {ty : Ty} : ty.isUnresolved = false ↔ ty.Sound 0 := by
  simp only [isUnresolved, Bool.or_eq_false_iff, Bool.not_eq_false', List.isEmpty_iff]
  constructor
  · rintro ⟨hvars, herror⟩
    exact ⟨fun v hv => absurd (hvars ▸ hv) not_mem_nil, herror⟩
  · rintro ⟨hvars, herror⟩
    exact ⟨eq_nil_iff_forall_not_mem.2 fun v hv => absurd (hvars v hv) (Nat.not_lt_zero v), herror⟩

/-! ## Annotations -/

namespace Source

mutual

/-- A type that such an annotation allows is closed. -/
theorem TypeExpr.Allows.closed :
    ∀ {a : TypeExpr} {ty}, a.Allows records ty → a.isFull = true → ty.Sound 0
  | .named _ name, ty, h, hfull => by
    rw [Allows, if_neg (bne_iff_ne.1 hfull)] at h
    split at h
    · rw [h]
      exact .of_prim _
    · rw [h.2]
      exact .of_record _
  | .list _ elem, _, ⟨_, rfl, h⟩, hfull => Ty.Sound.list_iff.2 (TypeExpr.Allows.closed h hfull)
  | .bareList _, _, _, hfull => by cases hfull
  | .fn _ params ret, _, ⟨_, _, rfl, hparams, hret⟩, hfull => by
    rw [isFull, Bool.and_eq_true] at hfull
    exact Ty.Sound.fn_iff.2 ⟨TypeExpr.AllowsList.closed hparams hfull.1,
      TypeExpr.Allows.closed hret hfull.2⟩

theorem TypeExpr.AllowsList.closed : ∀ {as tys},
    TypeExpr.AllowsList records as tys → TypeExpr.areFull as = true → ∀ ty ∈ tys, ty.Sound 0
  | [], tys, h, _ => by
    rw [AllowsList] at h
    rw [h]
    exact nofun
  | a :: rest, tys, h, hfull => by
    rw [AllowsList] at h
    obtain ⟨ty, others, rfl, ha, hrest⟩ := h
    rw [areFull, Bool.and_eq_true] at hfull
    exact forall_mem_cons.2 ⟨TypeExpr.Allows.closed ha hfull.1,
      TypeExpr.AllowsList.closed hrest hfull.2⟩

end

end Source

/-! ## Fields that are mentioned -/

namespace Typed

/-- **An expression mentions a field of a record:** it reads it, gives it a value or matches it. -/
inductive Expr.Mentions (e : Expr) (owner : String) (index : Nat) : Prop
  | read {info target name} :
    .field info target name index ∈ e.parts → target.ty = .record owner → e.Mentions owner index
  | given {info fields d} :
    .record info owner fields ∈ e.parts → d ∈ fields → d.index = index → e.Mentions owner index
  | matched {info info' id scrutinee arms a fields d} :
    .cases info id scrutinee arms ∈ e.parts → a ∈ arms →
      .record info' owner fields ∈ a.pattern.parts → d ∈ fields → d.index = index →
      e.Mentions owner index

/-- The fields that an expression gives a value, if it makes a record. -/
def Expr.given : Expr → List (String × Nat)
  | .record _ owner fields => fields.map fun d => (owner, d.index)
  | _ => []

theorem Expr.mentions_of_mem_given {e : Expr}
    (h : (owner, index) ∈ e.given) : e.Mentions owner index := by
  cases e with
  | record info name fields =>
    obtain ⟨d, hd, heq⟩ := mem_map.1 h
    cases heq
    exact .given mem_cons_self hd rfl
  | _ => exact nomatch h

variable {p : Program} {locals : List Local} {scope : List LocalId}

theorem Pattern.WellTyped.info_ty {q : Pattern}
    (h : q.WellTyped records locals ty) : q.info.ty = ty := by
  cases q with
  | wildcard => exact h
  | binding | literal | record => exact h.1

theorem Pattern.info_mem_sites (q : Pattern) : q.info ∈ q.sites := by
  cases q <;> exact mem_cons_self

theorem Pattern.sites_subset_fieldSites :
    ∀ {fields}, d ∈ fields → d.value.sites ⊆ fieldSites fields
  | ⟨_, _, _, _⟩ :: _, h => by
    rcases mem_cons.1 h with rfl | h
    · exact subset_append_left _ _
    · exact subset_append_of_subset_right _ (sites_subset_fieldSites h)

/-- **A field that is mentioned has the type of a node.** -/
theorem Expr.Mentions.exists_site {e : Expr} (h : e.Mentions owner index)
    (he : e.WellTyped p locals scope) :
    ∃ r d, p.records.get? owner = some r ∧ r.fields[index]? = some d ∧
      ∃ site ∈ e.sites, site.ty = d.ty := by
  cases h with
  | @read info target name hpart howner =>
    obtain ⟨_, ⟨owner', r, d, howner', hr, hd, hty⟩, -⟩ := he.parts hpart
    rw [howner] at howner'
    cases howner'
    exact ⟨r, d, hr, hd.1, info, sites_subset_of_mem_parts hpart mem_cons_self, hty⟩
  | @given info fields d hpart hd hindex =>
    -- the value has the type of the field
    obtain ⟨_, -, r, hr, -, hfields⟩ := he.parts hpart
    obtain ⟨⟨x, hx, hty⟩, -⟩ := hfields.of_mem hd
    refine ⟨r, x, hr, hindex ▸ hx.1, d.value.info, sites_subset_of_mem_parts hpart ?_, hty⟩
    exact sites_subset_of_mem_children (mem_map_of_mem hd) d.value.info_mem_sites
  | @matched info info' id scrutinee arms a fields d hpart ha hsub hd hindex =>
    -- so has the pattern for it
    obtain ⟨_, -, harms⟩ := he.parts hpart
    obtain ⟨ty, -, -, -, r, hr, hfields⟩ := (harms.pattern ha).parts hsub
    obtain ⟨x, hx, hq⟩ := hfields.of_mem hd
    refine ⟨r, x, hr, hindex ▸ hx.1, d.value.info, sites_subset_of_mem_parts hpart ?_, hq.info_ty⟩
    refine mem_cons_of_mem _ (mem_append_right _ (mem_armSites ha ?_))
    exact Pattern.sites_subset_of_mem_parts hsub (mem_cons_of_mem _
      (Pattern.sites_subset_fieldSites hd d.value.info_mem_sites))

/-- The parameters and the result of a well typed function have closed types. -/
theorem Function.WellTyped.closed {f : Function} (hf : f.WellTyped p) :
    (∀ ty ∈ f.paramTypes, ty.Sound 0) ∧ f.ret.Sound 0 := by
  refine ⟨fun ty hty => ?_, Ty.isUnresolved_eq_false.1 (hf.resolved ⟨f.span, f.ret⟩ ?_)⟩
  · obtain ⟨id, -, hid⟩ := mem_filterMap.1 hty
    obtain ⟨l, hl, rfl⟩ := Option.map_eq_some_iff.1 hid
    refine Ty.isUnresolved_eq_false.1 (hf.resolved ⟨l.span, l.ty⟩ (mem_append_left _ ?_))
    exact mem_map_of_mem (f := fun l : Local => (⟨l.span, l.ty⟩ : Info))
      (mem_of_getElem? hl)
  · exact mem_append_right _ mem_cons_self

end Typed

/-! ## Records of a checked program -/

namespace Infer

open Unify (Table)

variable {source : Source.Program} {p : Typed.Program} {t : Table} {functions : List Typed.Function}

namespace CheckedAll

variable (h : CheckedAll source p t functions) {r : RecordDecl}
include h

/-- The records of the program can be told apart, and are those of the source. -/
theorem records_follow :
    p.records.Distinct ∧ Forall₂ (fun item r => r.name = item.name.name ∧
      Forall₂ (fun x d => x.value.Allows p.records d.ty) item.fields r.fields)
        source.recordItems p.records.records := by
  obtain ⟨rs, hentries, hapart, hfollows⟩ := declare_entries h.declared.no_errors
  have hrecords : p.records.records = rs.map fun r =>
      { r with methods := (declare source).pending.filterMap (Pending.methodOf? r.name) }.mapTy
        t.resolve := by
    rw [h.records_eq, RecordTable.mapTy, hentries.records_eq, map_map]
    rfl
  have hcontains : ∀ name, (declare source).globals.records.contains name =
      p.records.contains name := fun name => by
    rw [h.records_eq, RecordTable.contains_mapTy]
  constructor
  · rw [RecordTable.Distinct, hrecords, map_map]
    exact hapart.distinct
  · rw [hrecords, forall₂_map_right_iff]
    refine hfollows.imp fun item r hr => ⟨hr.name_eq, ?_⟩
    refine forall₂_map_right_iff.2 (hr.fields.imp fun x d hd => ?_)
    exact (Source.TypeExpr.allows_congr hcontains).1 (hd.allowed _)

/-- A record of the program is a declared one with its types read. -/
theorem exists_declared (hr : r ∈ p.records.records) :
    ∃ r0, (declare source).globals.records.get? r.name = some r0 ∧ r0.mapTy t.resolve = r := by
  have hget := RecordTable.get?_of_mem h.records_follow.1 hr
  rw [h.records_eq, RecordTable.get?_mapTy] at hget
  exact Option.map_eq_some_iff.1 hget

/-- A method of the program is one of its functions, so its type is known. -/
theorem method_closed (hr : r ∈ p.records.records) {m : MethodDecl} (hm : m ∈ r.methods) :
    m.ty.Sound 0 := by
  obtain ⟨r0, hr0, rfl⟩ := h.exists_declared hr
  obtain ⟨m0, hm0, rfl⟩ := mem_map.1 hm
  obtain ⟨params, ret, hty, -, hq⟩ := h.declared.method_queued _ r0 m0 hr0 hm0
  obtain ⟨f, hf, -, -, hparams, hret⟩ := h.declares hq
  obtain ⟨hp, hr⟩ := (h.wellTyped f hf).closed
  rw [hparams] at hp
  rw [hret] at hr
  change (m0.ty.subst (t.resolveVar t.size)).Sound 0
  rw [hty]
  exact Ty.Sound.fn_iff.2 ⟨hp, hr⟩

/-- No type of a field holds the error type. -/
theorem field_no_error (hr : r ∈ p.records.records) (hd : d ∈ r.fields) :
    d.ty.hasError = false := by
  obtain ⟨r0, hr0, rfl⟩ := h.exists_declared hr
  obtain ⟨d0, hd0, rfl⟩ := mem_map.1 hd
  have hsound := h.declared.globals_sound.field_sound _ r0 hr0 d0 hd0
  exact Ty.hasError_subst hsound.no_error fun v _ => h.table_sound.resolveVar_no_error _ v

end CheckedAll

/-- **Types of records after checking.** In every program that passes, the types of methods are
known, and no type of a field holds the error type. The type of a field is known if a function
mentions the field, or if its annotation leaves nothing open. -/
theorem infer_records_resolved (h : infer source = .ok p) :
    ∀ r ∈ p.records.records, (∀ m ∈ r.methods, m.ty.isUnresolved = false) ∧
      ∀ (i : Nat) d, r.fields[i]? = some d → d.ty.hasError = false ∧
        ((∃ f ∈ p.functions, f.body.Mentions r.name i) → d.ty.isUnresolved = false) ∧
        ∀ item ∈ source.recordItems, item.name.name = r.name →
          ∀ x, item.fields[i]? = some x → x.value.isFull = true → d.ty.isUnresolved = false := by
  obtain ⟨herrors, rfl⟩ := infer_eq_ok.1 h
  obtain ⟨t, functions, hall⟩ := checkedAll_of_check (List.isEmpty_iff.1 herrors)
  obtain ⟨hdistinct, hfollows⟩ := hall.records_follow
  intro r hr
  refine ⟨fun m hm => Ty.isUnresolved_eq_false.2 (hall.method_closed hr hm), fun i d hd =>
    ⟨hall.field_no_error hr (mem_of_getElem? hd), ?_, ?_⟩⟩
  · rintro ⟨f, hf, hmentions⟩
    have hwt := hall.wellTyped f hf
    obtain ⟨r', d', hr', hd', site, hsite, hty⟩ := hmentions.exists_site hwt.body_typed
    rw [RecordTable.get?_of_mem hdistinct hr] at hr'
    cases hr'
    rw [hd] at hd'
    cases hd'
    rw [← hty]
    exact hwt.resolved site (mem_append_right _ (mem_cons_of_mem _ hsite))
  · intro item hitem hname x hx hfull
    obtain ⟨r', hr', hname', hfields⟩ := exists_of_forall₂_left hfollows hitem
    have heq : r' = r :=
      inj_on_of_nodup_map hdistinct hr' hr (hname'.trans hname)
    subst heq
    obtain ⟨hi, rfl⟩ := List.getElem?_eq_some_iff.1 hx
    obtain ⟨hi', rfl⟩ := List.getElem?_eq_some_iff.1 hd
    exact Ty.isUnresolved_eq_false.2 ((hfields.get hi hi').closed hfull)

/-- A record with a list of anything, and a function that fills it. -/
def boxSource : Source.Program :=
  let at0 : Span := ⟨0, 0⟩
  let id (name : String) : Source.Ident := ⟨name, at0⟩
  [.record at0 (id "Box") [⟨at0, id "items", .bareList at0⟩],
   .function at0 ⟨at0, id "fill", [], none,
     .record at0 (id "Box") [⟨at0, id "items", .list at0 [.literal at0 (.int 1)]⟩]⟩]

theorem infer_records_resolved_boxSource :
    infer boxSource = .ok (check boxSource).program ∧
    ∃ r ∈ (check boxSource).program.records.records, ∃ d, r.fields[0]? = some d ∧
      (∃ f ∈ (check boxSource).program.functions, f.body.Mentions r.name 0) ∧
      d.ty.isUnresolved = false := by
  have hok : infer boxSource = .ok (check boxSource).program :=
    infer_eq_ok.2 ⟨by decide +kernel, rfl⟩
  have hrecord : ∃ r ∈ (check boxSource).program.records.records,
      r.name = "Box" ∧ r.fields[0]?.isSome = true := by decide +kernel
  have hgiven : ∃ f ∈ (check boxSource).program.functions, ("Box", 0) ∈ f.body.given := by
    decide +kernel
  obtain ⟨r, hr, hname, hfield⟩ := hrecord
  obtain ⟨d, hd⟩ := Option.isSome_iff_exists.1 hfield
  obtain ⟨f, hf, hmem⟩ := hgiven
  rw [← hname] at hmem
  have hmentions : ∃ f ∈ (check boxSource).program.functions, f.body.Mentions r.name 0 :=
    ⟨f, hf, Typed.Expr.mentions_of_mem_given hmem⟩
  exact ⟨hok, r, hr, d, hd, hmentions, ((infer_records_resolved hok r hr).2 0 d hd).2.1 hmentions⟩

/-- A record with a list of anything, and nothing else. -/
def openSource : Source.Program :=
  let at0 : Span := ⟨0, 0⟩
  let id (name : String) : Source.Ident := ⟨name, at0⟩
  [.record at0 (id "Box") [⟨at0, id "items", .bareList at0⟩]]

/-- **A program can pass with an unknown type in a field** that no function mentions. -/
theorem infer_openSource : infer openSource = .ok (check openSource).program ∧
    ∃ r ∈ (check openSource).program.records.records, ∃ d ∈ r.fields,
      d.ty.isUnresolved = true :=
  ⟨infer_eq_ok.2 ⟨by decide +kernel, rfl⟩, by decide +kernel⟩

end Infer

end Sluice
