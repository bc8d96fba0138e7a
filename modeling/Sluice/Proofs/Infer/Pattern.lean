import Sluice.Proofs.Infer.Annotate
import Sluice.Proofs.Typing.MapTy

/-!
# Checked patterns are well typed

A pattern that passed its check has the type it was checked against, under
every reading; its record patterns name declared fields, each once. One lemma
for each form of pattern puts its check together from those of its parts.
-/

namespace Sluice

open List

/-! ## Records with their types read -/

theorem RecordTable.get?_mapTy (t : RecordTable) (f : Ty → Ty) (name : String) :
    (t.mapTy f).get? name = (t.get? name).map (RecordDecl.mapTy f) := by
  rw [get?, mapTy, find?_map]
  rfl

namespace RecordDecl

theorem field?_mapTy (r : RecordDecl) (f : Ty → Ty) (name : String) :
    (r.mapTy f).field? name = (r.field? name).map fun d => (d.1, { d.2 with ty := f d.2.ty }) := by
  have hidx : (r.mapTy f).fields.findIdx? (·.name == name) =
      r.fields.findIdx? (·.name == name) := by
    rw [mapTy, findIdx?_map]
    rfl
  rw [field?, field?, hidx]
  cases r.fields.findIdx? (·.name == name) with
  | none => rfl
  | some i =>
    rw [mapTy, Option.bind_some, Option.bind_some, getElem?_map, Option.map_map, Option.map_map]
    rfl

theorem method?_mapTy (r : RecordDecl) (f : Ty → Ty) (name : String) :
    (r.mapTy f).method? name = (r.method? name).map fun m => { m with ty := f m.ty } := by
  rw [method?, mapTy, find?_map]
  rfl

end RecordDecl

theorem RecordTable.contains_mapTy (t : RecordTable) (f : Ty → Ty) (name : String) :
    (t.mapTy f).contains name = t.contains name := by
  rw [contains, mapTy, any_map]
  rfl

theorem RecordTable.mapTy_congr {t : RecordTable}
    (h : ∀ r ∈ t.records, (∀ d ∈ r.fields, f d.ty = f' d.ty) ∧ ∀ m ∈ r.methods, f m.ty = f' m.ty) :
    t.mapTy f = t.mapTy f' := by
  refine congrArg mk (map_congr_left fun r hr => ?_)
  obtain ⟨hfields, hmethods⟩ := h r hr
  have hd : r.fields.map (fun d => { d with ty := f d.ty }) =
      r.fields.map fun d => { d with ty := f' d.ty } :=
    map_congr_left fun d hd => by rw [hfields d hd]
  have hm : r.methods.map (fun m => { m with ty := f m.ty }) =
      r.methods.map fun m => { m with ty := f' m.ty } :=
    map_congr_left fun m hm => by rw [hmethods m hm]
  rw [RecordDecl.mapTy, RecordDecl.mapTy, hd, hm]

theorem RecordTable.mapTy_id (t : RecordTable) : t.mapTy id = t := by
  have hrecord : RecordDecl.mapTy id = id := by
    funext r
    simp [RecordDecl.mapTy]
  rw [mapTy, hrecord, map_id]

mutual

/-- What an annotation allows depends on the names of the records only. -/
theorem Source.TypeExpr.allows_congr (h : ∀ name, records.contains name = records'.contains name) :
    ∀ {a : TypeExpr} {ty}, a.Allows records ty ↔ a.Allows records' ty
  | .named _ name, ty => by rw [Allows, Allows, h]
  | .bareList _, ty => Iff.rfl
  | .list _ elem, ty => by
    simp only [Allows, allows_congr h (a := elem)]
  | .fn _ params ret, ty => by
    simp only [Allows, allows_congr h (a := ret), allowsList_congr h (l := params)]

theorem Source.TypeExpr.allowsList_congr
    (h : ∀ name, records.contains name = records'.contains name) :
    ∀ {l} {tys}, AllowsList records l tys ↔ AllowsList records' l tys
  | [], _ => Iff.rfl
  | a :: rest, tys => by
    simp only [AllowsList, allows_congr h (a := a), allowsList_congr h (l := rest)]

end

theorem Typed.IsField.mapTy (h : Typed.IsField r name i d) (f : Ty → Ty) :
    Typed.IsField (r.mapTy f) name i { d with ty := f d.ty } := by
  refine ⟨?_, h.2⟩
  rw [RecordDecl.mapTy, getElem?_map, h.1]
  rfl

theorem RecordDecl.isField_of_field? {r name i d}
    (h : r.field? name = some (i, d)) : Typed.IsField r name i d := by
  obtain ⟨j, hj, hd⟩ := Option.bind_eq_some_iff.1 h
  obtain ⟨d', hd', heq⟩ := Option.map_eq_some_iff.1 hd
  cases heq
  obtain ⟨hlt, hname, -⟩ := findIdx?_eq_some_iff_getElem.1 hj
  rw [getElem?_eq_getElem hlt] at hd'
  cases hd'
  exact ⟨getElem?_eq_getElem hlt, by simpa using hname⟩

/-- Where no two fields share a name, the name tells the index. -/
theorem Typed.IsField.index_unique (hr : (r.fields.map (·.name)).Nodup)
    (h : Typed.IsField r name i d) (h' : Typed.IsField r name j d') : i = j := by
  have hi : (r.fields.map (·.name))[i]? = some name := by
    rw [getElem?_map, h.1]
    exact congrArg some h.2
  have hj : (r.fields.map (·.name))[j]? = some name := by
    rw [getElem?_map, h'.1]
    exact congrArg some h'.2
  have hlt := (List.getElem?_eq_some_iff.1 hi).1
  exact (getElem?_inj hlt hr).1 (hi.trans hj.symm)

namespace Infer

open Typed (Local LocalId Pattern Program)

variable {g : Globals} {s s' : State} {scope bound : Scope} {expected : Ty}

/-- What bodies can refer to is sound: the types are, no two fields of a record share a name, and
the type of a method starts with its record. -/
structure Globals.Sound (g : Globals) (size : Nat) : Prop where
  field_sound : ∀ name r, g.records.get? name = some r → ∀ d ∈ r.fields, d.ty.Sound size
  fields_nodup : ∀ name r, g.records.get? name = some r → (r.fields.map (·.name)).Nodup
  method_sound : ∀ name r, g.records.get? name = some r → ∀ m ∈ r.methods, m.ty.Sound size
  function_sound : ∀ name signature, g.function? name = some signature → signature.ty.Sound size

theorem Globals.Sound.le (hg : g.Sound size) (h : size ≤ size') : g.Sound size' :=
  ⟨fun name r hr d hd => (hg.field_sound name r hr d hd).mono h, hg.fields_nodup,
    fun name r hr m hm => (hg.method_sound name r hr m hm).mono h,
    fun name sig hsig => (hg.function_sound name sig hsig).mono h⟩

theorem Globals.Sound.mono (hg : g.Sound s.table.size) (h : Grows s s') : g.Sound s'.table.size :=
  hg.le h.refines.size_le

/-- Names in scope stand for locals declared under them. -/
def InScope (scope : Scope) (s : State) : Prop :=
  ∀ name id, (name, id) ∈ scope → ∃ l, s.locals[id]? = some l ∧ l.name = name

theorem InScope.mono (hsc : InScope scope s) (h : Grows s s') : InScope scope s' := by
  intro name id hid
  obtain ⟨l, hl, hn⟩ := hsc name id hid
  obtain ⟨rest, hrest⟩ := h.locals_grow
  refine ⟨l, ?_, hn⟩
  rw [← hrest, getElem?_append_left (List.getElem?_eq_some_iff.1 hl).1, hl]

theorem InScope.append (h : InScope bound s) (h' : InScope scope s) :
    InScope (bound ++ scope) s := fun name id hid =>
  (mem_append.1 hid).elim (h name id) (h' name id)

theorem InScope.cons {name id l} (h : InScope scope s) (hl : s.locals[id]? = some l)
    (hn : l.name = name) : InScope ((name, id) :: scope) s := by
  intro name' id' hid
  rcases mem_cons.1 hid with heq | hid
  · cases heq
    exact ⟨l, hl, hn⟩
  · exact h name' id' hid

/-! ## Fields named at most once -/

/-- Fields of a record, each named once and none of them seen before. -/
structure NamedOnce {α : Type} (r : RecordDecl) (seen : List String)
    (fields : List (Typed.Field α)) :
    Prop where
  declared : ∀ f ∈ fields, ∃ d, Typed.IsField r f.name f.index d
  unseen : ∀ f ∈ fields, f.name ∉ seen
  nodup : (fields.map (·.name)).Nodup

namespace NamedOnce

variable {α : Type} {r : RecordDecl} {seen : List String} {fields : List (Typed.Field α)}

theorem nil : NamedOnce r seen ([] : List (Typed.Field α)) :=
  ⟨nofun, nofun, nodup_nil⟩

theorem cons (hd : Typed.IsField r f.name f.index d) (hseen : f.name ∉ seen)
    (h : NamedOnce r (f.name :: seen) fields) : NamedOnce r seen (f :: fields) := by
  refine ⟨forall_mem_cons.2 ⟨⟨d, hd⟩, h.declared⟩, forall_mem_cons.2 ⟨hseen, fun f' hf' hmem => ?_⟩,
    nodup_cons.2 ⟨fun hmem => ?_, h.nodup⟩⟩
  · exact h.unseen f' hf' (mem_cons_of_mem _ hmem)
  · obtain ⟨f', hf', heq⟩ := mem_map.1 hmem
    exact h.unseen f' hf' (heq ▸ mem_cons_self)

/-- Different names are different indices. -/
theorem nodup_index (h : NamedOnce r seen fields) : (fields.map (·.index)).Nodup := by
  refine Nodup.of_map (fun i => (r.fields[i]?.map (·.name)).getD "") ?_
  rw [map_map]
  have hnames : fields.map ((fun i => (r.fields[i]?.map (·.name)).getD "") ∘ (·.index)) =
      fields.map (·.name) := by
    refine map_congr_left fun f hf => ?_
    obtain ⟨d, hd, hname⟩ := h.declared f hf
    simp only [Function.comp, hd, Option.map_some, Option.getD_some, hname]
  rw [hnames]
  exact h.nodup

end NamedOnce

/-! ## Patterns -/

/-- A checked pattern, with the names it brought into scope. -/
structure PatternChecks (g : Globals) (expected : Ty) (bound : Scope) (q : Source.Pattern)
    (s : State) (q' : Pattern) (bound' : Scope) (s' : State) : Prop where
  checks : Checks g s s' q'.sites fun p L θ =>
    (q'.mapTy (Ty.subst θ)).WellTyped p.records L (expected.subst θ) ∧
      q.TypedAs L (q'.mapTy (Ty.subst θ))
  in_scope : InScope bound s → InScope bound' s'
  bound_subset : ∀ id ∈ bound'.map (·.2), id ∈ q'.binders ∨ id ∈ bound.map (·.2)

/-- Checked field patterns. -/
structure FieldPatternsCheck (g : Globals) (r : RecordDecl) (bound : Scope) (seen : List String)
    (fields : List (Source.Named Source.Pattern)) (s : State)
    (fields' : List (Typed.Field Pattern)) (bound' : Scope) (s' : State) : Prop where
  checks : Checks g s s' (Pattern.fieldSites fields') fun p L θ =>
      Pattern.WellTypedFields p.records L (r.mapTy (Ty.subst θ))
        (Pattern.mapFieldsTy (Ty.subst θ) fields') ∧
      Source.Pattern.TypedAsFields L fields (Pattern.mapFieldsTy (Ty.subst θ) fields')
  in_scope : InScope bound s → InScope bound' s'
  bound_subset : ∀ id ∈ bound'.map (·.2),
    id ∈ Pattern.fieldBinders fields' ∨ id ∈ bound.map (·.2)
  named_once : NamedOnce r seen fields'

theorem wildcard_checks (hs : s.Sound) (hty : expected.Sound s.table.size) (span : Span) :
    PatternChecks g expected bound (.wildcard span) s (.wildcard ⟨span, expected⟩) bound s where
  checks := (Checks.nothing hs).weaken (fun site hsite => .inr (by
    cases mem_singleton.1 hsite
    exact hty)) fun _ _ _ _ _ => ⟨rfl, trivial⟩
  in_scope := id
  bound_subset _ hid := .inr hid

theorem binding_checks (hs : s.Sound) (hty : expected.Sound s.table.size) (span : Span) {name id}
    (h : declareLocal name expected s = .ok id s') :
    PatternChecks g expected bound (.binding span name) s (.binding ⟨span, expected⟩ id)
      ((name.name, id) :: bound) s' := by
  obtain ⟨hc, hl⟩ := declareLocal_checks (g := g) hs hty h
  refine ⟨hc.weaken (fun site hsite => .inr ?_) fun _ _ _ _ hP => ⟨⟨rfl, hP.1⟩, hP.2⟩,
    fun hsc => (hsc.mono hc.grows).cons hl rfl, fun i hi => ?_⟩
  · cases mem_singleton.1 hsite
    exact hc.grows.mono hty
  · rcases mem_cons.1 hi with rfl | hi
    · exact .inl (mem_singleton.2 rfl)
    · exact .inr hi

theorem literal_checks (hty : expected.Sound s.table.size) (span : Span)
    (hc : Settles g s s' fun _ _ θ => expected.subst θ = value.ty.subst θ) :
    PatternChecks g expected bound (.literal span value) s (.literal ⟨span, expected⟩ value)
      bound s' := by
  refine ⟨hc.weaken (fun site hsite => .inr ?_) fun _ _ _ _ hP => ⟨⟨rfl, hP⟩, rfl⟩,
    fun hsc => hsc.mono hc.grows, fun _ hid => .inr hid⟩
  cases mem_singleton.1 hsite
  exact hc.grows.mono hty

theorem recordPattern_checks (hty : expected.Sound s.table.size) (span : Span)
    (hr : g.records.get? name.name = some r)
    (hc : Settles g s s1 fun _ _ θ => expected.subst θ = .record name.name)
    (hf : FieldPatternsCheck g r bound [] fields s1 fields' bound' s') :
    PatternChecks g expected bound (.record span name fields) s
      (.record ⟨span, expected⟩ name.name fields') bound' s' := by
  refine ⟨(hc.seq hf.checks).weaken (fun site hsite => ?_) fun p L θ hread hP => ?_,
    fun hsc => hf.in_scope (hsc.mono hc.grows), hf.bound_subset⟩
  · rcases mem_cons.1 hsite with rfl | hsite
    · exact .inr (hf.checks.grows.mono (hc.grows.mono hty))
    · exact .inl hsite
  · obtain ⟨heq, hwt, hta⟩ := hP
    refine ⟨⟨rfl, heq, ?_, _, ?_, hwt⟩, rfl, hta⟩
    · rw [Pattern.map_index_mapFieldsTy]
      exact hf.named_once.nodup_index
    · rw [hread.realises.records_eq, RecordTable.get?_mapTy, hr]
      rfl

theorem fieldPattern_cons_checks {r bound1 bound' seen span name i d q q' rest rest' s1}
    (hd : Typed.IsField r name.name i d) (hseen : name.name ∉ seen)
    (hq : PatternChecks g d.ty bound q s q' bound1 s1)
    (hf : FieldPatternsCheck g r bound1 (name.name :: seen) rest s1 rest' bound' s') :
    FieldPatternsCheck g r bound seen (⟨span, name, q⟩ :: rest) s
      (⟨span, name.name, i, q'⟩ :: rest') bound' s' := by
  refine ⟨(hq.checks.seq hf.checks).imp fun p L θ hread hP => ?_,
    fun hsc => hf.in_scope (hq.in_scope hsc), fun id hid => ?_, .cons hd hseen hf.named_once⟩
  · obtain ⟨⟨hwt, hta⟩, hwts, htas⟩ := hP
    exact ⟨⟨⟨_, hd.mapTy _, hwt⟩, hwts⟩, rfl, hta, htas⟩
  · rcases hf.bound_subset id hid with hmem | hmem
    · exact .inl (mem_append_right _ hmem)
    · rcases hq.bound_subset id hmem with hmem | hmem
      · exact .inl (mem_append_left _ hmem)
      · exact .inr hmem

end Infer

end Sluice
