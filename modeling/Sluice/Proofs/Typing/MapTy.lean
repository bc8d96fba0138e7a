import Sluice.Proofs.Typing.Rules

/-!
# Typed trees with other types

Changing all the types of a tree keeps its shape: the types afterwards are the
changed types of before, and binders, matches and fields stay as they are.
-/

namespace Sluice.Typed

open List

variable {f : Ty → Ty}

/-! ## Nodes and fields -/

theorem Expr.info_mem_sites (e : Expr) : e.info ∈ e.sites := by
  cases e <;> exact mem_cons_self

@[simp] theorem Expr.ty_mapTy (e : Expr) : (e.mapTy f).ty = f e.ty := by
  cases e <;> rfl

theorem Expr.mapListTy_eq_map (es : List Expr) : mapListTy f es = es.map (·.mapTy f) := by
  induction es with
  | nil => rfl
  | cons e rest ih => rw [mapListTy, map_cons, ih]

theorem Expr.map_ty_mapListTy (es : List Expr) :
    (mapListTy f es).map (·.ty) = es.map fun e => f e.ty := by
  rw [mapListTy_eq_map, map_map]
  exact map_congr_left fun e _ => ty_mapTy e

theorem Expr.map_index_mapFieldsTy (fields : List (Field Expr)) :
    (mapFieldsTy f fields).map (·.index) = fields.map (·.index) := by
  induction fields with
  | nil => rfl
  | cons field rest ih => rw [mapFieldsTy, map_cons, map_cons, ih]

theorem Pattern.map_index_mapFieldsTy (fields : List (Field Pattern)) :
    (mapFieldsTy f fields).map (·.index) = fields.map (·.index) := by
  induction fields with
  | nil => rfl
  | cons field rest ih => rw [mapFieldsTy, map_cons, map_cons, ih]

/-! ## Types, binders, uses and matches -/

mutual

theorem Pattern.shape_mapTy : ∀ q : Pattern,
    (q.mapTy f).sites = q.sites.map (·.mapTy f) ∧ (q.mapTy f).binders = q.binders
  | .wildcard _ | .binding _ _ | .literal _ _ => ⟨rfl, rfl⟩
  | .record _ _ fields => (fieldShape_mapTy fields).imp_left (congrArg _)

theorem Pattern.fieldShape_mapTy : ∀ fields : List (Field Pattern),
    fieldSites (mapFieldsTy f fields) = (fieldSites fields).map (·.mapTy f) ∧
    fieldBinders (mapFieldsTy f fields) = fieldBinders fields
  | [] => ⟨rfl, rfl⟩
  | ⟨_, _, _, q⟩ :: rest => by
    simp [mapFieldsTy, fieldSites, fieldBinders, shape_mapTy q, fieldShape_mapTy rest]

end

@[simp] theorem Pattern.binders_mapTy (q : Pattern) : (q.mapTy f).binders = q.binders :=
  q.shape_mapTy.2

mutual

/-- The types are the changed ones. Other types are no other names: what is bound, used and matched
stays. -/
theorem Expr.shape_mapTy : ∀ e : Expr, (e.mapTy f).sites = e.sites.map (·.mapTy f) ∧
    (e.mapTy f).binders = e.binders ∧ (e.mapTy f).matchIds = e.matchIds ∧
    ∀ sc, (e.mapTy f).uses sc = e.uses sc
  | .literal _ _ | .var _ _ | .function _ _ => ⟨rfl, rfl, rfl, fun _ => rfl⟩
  | .letIn _ _ a b | .ifThen _ a b | .binary _ _ a b => by
    simp [mapTy, sites, binders, matchIds, uses, shape_mapTy a, shape_mapTy b]
  | .ifElse _ c a b => by
    simp [mapTy, sites, binders, matchIds, uses, shape_mapTy c, shape_mapTy a, shape_mapTy b]
  | .field _ a _ _ | .unary _ _ a => by
    simp [mapTy, sites, binders, matchIds, uses, shape_mapTy a]
  | .block _ es | .list _ es | .callFunction _ _ es | .callMethod _ _ _ _ es => by
    simp [mapTy, sites, binders, matchIds, uses, listShape_mapTy es]
  | .record _ _ fields => by
    simp [mapTy, sites, binders, matchIds, uses, fieldShape_mapTy fields]
  | .callValue _ a es => by
    simp [mapTy, sites, binders, matchIds, uses, shape_mapTy a, listShape_mapTy es]
  | .cases _ _ a arms => by
    simp [mapTy, sites, binders, matchIds, uses, shape_mapTy a, armShape_mapTy arms]

theorem Expr.listShape_mapTy : ∀ es : List Expr,
    listSites (mapListTy f es) = (listSites es).map (·.mapTy f) ∧
    listBinders (mapListTy f es) = listBinders es ∧
    listMatchIds (mapListTy f es) = listMatchIds es ∧
    ∀ sc, listUses sc (mapListTy f es) = listUses sc es
  | [] => ⟨rfl, rfl, rfl, fun _ => rfl⟩
  | e :: rest => by
    simp [mapListTy, listSites, listBinders, listMatchIds, listUses, shape_mapTy e,
      listShape_mapTy rest]

theorem Expr.fieldShape_mapTy : ∀ fields : List (Field Expr),
    fieldSites (mapFieldsTy f fields) = (fieldSites fields).map (·.mapTy f) ∧
    fieldBinders (mapFieldsTy f fields) = fieldBinders fields ∧
    fieldMatchIds (mapFieldsTy f fields) = fieldMatchIds fields ∧
    ∀ sc, fieldUses sc (mapFieldsTy f fields) = fieldUses sc fields
  | [] => ⟨rfl, rfl, rfl, fun _ => rfl⟩
  | ⟨_, _, _, e⟩ :: rest => by
    simp [mapFieldsTy, fieldSites, fieldBinders, fieldMatchIds, fieldUses, shape_mapTy e,
      fieldShape_mapTy rest]

theorem Expr.armShape_mapTy : ∀ arms : List (Arm Expr),
    armSites (mapArmsTy f arms) = (armSites arms).map (·.mapTy f) ∧
    armBinders (mapArmsTy f arms) = armBinders arms ∧
    armMatchIds (mapArmsTy f arms) = armMatchIds arms ∧
    ∀ sc, armUses sc (mapArmsTy f arms) = armUses sc arms
  | [] => ⟨rfl, rfl, rfl, fun _ => rfl⟩
  | ⟨_, q, none, b⟩ :: rest => by
    simp [mapArmsTy, armSites, armBinders, armMatchIds, armUses, q.shape_mapTy, shape_mapTy b,
      armShape_mapTy rest]
  | ⟨_, q, some c, b⟩ :: rest => by
    simp [mapArmsTy, armSites, armBinders, armMatchIds, armUses, q.shape_mapTy, shape_mapTy c,
      shape_mapTy b, armShape_mapTy rest]

end

theorem Function.sites_mapTy (g : Function) : (g.mapTy f).sites = g.sites.map (·.mapTy f) := by
  simp [mapTy, sites, g.body.shape_mapTy, Info.mapTy]

/-! ## Functions that agree -/

section Congr

variable {h : Ty → Ty}

mutual

/-- Only what happens to the types of a pattern matters. -/
theorem Pattern.mapTy_congr : ∀ q : Pattern, (∀ site ∈ q.sites, f site.ty = h site.ty) →
    q.mapTy f = q.mapTy h
  | .wildcard info, hq | .binding info _, hq | .literal info _, hq => by
    simp only [mapTy, Info.mapTy, hq info (mem_singleton.2 rfl)]
  | .record info _ fields, hq => by
    obtain ⟨hinfo, hfields⟩ := forall_mem_cons.1 hq
    simp only [mapTy, Info.mapTy, hinfo, mapFieldsTy_congr fields hfields]

theorem Pattern.mapFieldsTy_congr : ∀ fields : List (Field Pattern),
    (∀ site ∈ fieldSites fields, f site.ty = h site.ty) →
    mapFieldsTy f fields = mapFieldsTy h fields
  | [], _ => rfl
  | ⟨_, _, _, q⟩ :: rest, hq => by
    obtain ⟨hq, hrest⟩ := forall_mem_append.1 hq
    simp only [mapFieldsTy, mapTy_congr q hq, mapFieldsTy_congr rest hrest]

end

mutual

/-- Only what happens to the types of an expression matters. -/
theorem Expr.mapTy_congr : ∀ e : Expr, (∀ site ∈ e.sites, f site.ty = h site.ty) →
    e.mapTy f = e.mapTy h
  | .literal info _, he | .var info _, he | .function info _, he => by
    simp only [mapTy, Info.mapTy, he info (mem_singleton.2 rfl)]
  | .letIn _ _ a b, he | .ifThen _ a b, he | .binary _ _ a b, he => by
    simp only [sites, forall_mem_cons, forall_mem_append] at he
    simp only [mapTy, Info.mapTy, he.1, mapTy_congr a he.2.1, mapTy_congr b he.2.2]
  | .ifElse _ c a b, he => by
    simp only [sites, forall_mem_cons, forall_mem_append] at he
    simp only [mapTy, Info.mapTy, he.1, mapTy_congr c he.2.1.1, mapTy_congr a he.2.1.2,
      mapTy_congr b he.2.2]
  | .field _ a _ _, he | .unary _ _ a, he => by
    simp only [sites, forall_mem_cons] at he
    simp only [mapTy, Info.mapTy, he.1, mapTy_congr a he.2]
  | .block _ es, he | .list _ es, he | .callFunction _ _ es, he | .callMethod _ _ _ _ es, he => by
    simp only [sites, forall_mem_cons] at he
    simp only [mapTy, Info.mapTy, he.1, mapListTy_congr es he.2]
  | .record _ _ fields, he => by
    simp only [sites, forall_mem_cons] at he
    simp only [mapTy, Info.mapTy, he.1, mapFieldsTy_congr fields he.2]
  | .callValue _ a es, he => by
    simp only [sites, forall_mem_cons, forall_mem_append] at he
    simp only [mapTy, Info.mapTy, he.1, mapTy_congr a he.2.1, mapListTy_congr es he.2.2]
  | .cases _ _ a arms, he => by
    simp only [sites, forall_mem_cons, forall_mem_append] at he
    simp only [mapTy, Info.mapTy, he.1, mapTy_congr a he.2.1, mapArmsTy_congr arms he.2.2]

theorem Expr.mapListTy_congr : ∀ es : List Expr,
    (∀ site ∈ listSites es, f site.ty = h site.ty) →
    mapListTy f es = mapListTy h es
  | [], _ => rfl
  | e :: rest, he => by
    obtain ⟨he, hrest⟩ := forall_mem_append.1 he
    simp only [mapListTy, mapTy_congr e he, mapListTy_congr rest hrest]

theorem Expr.mapFieldsTy_congr : ∀ fields : List (Field Expr),
    (∀ site ∈ fieldSites fields, f site.ty = h site.ty) →
    mapFieldsTy f fields = mapFieldsTy h fields
  | [], _ => rfl
  | ⟨_, _, _, e⟩ :: rest, he => by
    obtain ⟨he, hrest⟩ := forall_mem_append.1 he
    simp only [mapFieldsTy, mapTy_congr e he, mapFieldsTy_congr rest hrest]

theorem Expr.mapArmsTy_congr : ∀ arms : List (Arm Expr),
    (∀ site ∈ armSites arms, f site.ty = h site.ty) →
    mapArmsTy f arms = mapArmsTy h arms
  | [], _ => rfl
  | ⟨_, q, none, body⟩ :: rest, he => by
    simp only [armSites, forall_mem_append] at he
    simp only [mapArmsTy, q.mapTy_congr he.1.1, mapTy_congr body he.1.2, mapArmsTy_congr rest he.2]
  | ⟨_, q, some guard, body⟩ :: rest, he => by
    simp only [armSites, forall_mem_append] at he
    simp only [mapArmsTy, q.mapTy_congr he.1.1.1, mapTy_congr guard he.1.1.2,
      mapTy_congr body he.1.2, mapArmsTy_congr rest he.2]

end

/-- **Only what happens to the types of a function matters.** -/
theorem Function.mapTy_congr (g : Function) (hg : ∀ site ∈ g.sites, f site.ty = h site.ty) :
    g.mapTy f = g.mapTy h := by
  obtain ⟨hlocals, hrest⟩ := forall_mem_append.1 hg
  obtain ⟨hret, hbody⟩ := forall_mem_cons.1 hrest
  have hread : g.locals.map (fun l => { l with ty := f l.ty }) =
      g.locals.map fun l => { l with ty := h l.ty } :=
    map_congr_left fun l hl => by rw [hlocals ⟨l.span, l.ty⟩ (mem_map_of_mem hl)]
  simp only [mapTy, hread, hret, Expr.mapTy_congr g.body hbody]

end Congr

end Sluice.Typed

namespace Sluice.Source

open List

/-- Names are resolved whatever the types are. -/
theorem Expr.ScopedAs.mapTy {body : Expr} (h : body.ScopedAs f)
    (read : Ty → Ty) : body.ScopedAs (f.mapTy read) := by
  obtain ⟨-, hbinders, hids, huses⟩ := f.body.shape_mapTy (f := read)
  refine ⟨?_, hids.trans h.matches_eq, ?_⟩
  · exact (congrArg (f.params ++ ·) hbinders).trans
      (h.locals_eq.trans (congrArg _ (length_map _).symm))
  · have hnames : (f.mapTy read).locals.map (·.name) = f.locals.map (·.name) := map_map ..
    rw [hnames]
    exact huses _ ▸ h.uses_stand

end Sluice.Source
