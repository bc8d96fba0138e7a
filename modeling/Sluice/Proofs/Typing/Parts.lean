import Sluice.Proofs.Typing.MapTy

/-!
# Parts of expressions

The expressions that an expression is made of, itself included, and the patterns that
a pattern is made of. What holds of a well typed tree holds of its parts: they are
well typed, and their types are among its types.
-/

namespace Sluice

open List

namespace Typed

mutual

/-- The patterns inside a pattern. -/
def Pattern.inner : Pattern → List Pattern
  | .wildcard _ | .binding _ _ | .literal _ _ => []
  | .record _ _ fields => Pattern.fieldInner fields

/-- The patterns of some fields, and those inside them. -/
def Pattern.fieldInner : List (Field Pattern) → List Pattern
  | [] => []
  | ⟨_, _, _, q⟩ :: rest => q :: q.inner ++ Pattern.fieldInner rest

end

/-- **The parts of a pattern:** itself and the patterns inside it. -/
def Pattern.parts (q : Pattern) : List Pattern := q :: q.inner

mutual

/-- The expressions inside an expression. -/
def Expr.inner : Expr → List Expr
  | .literal _ _ | .var _ _ | .function _ _ => []
  | .letIn _ _ value body => value :: value.inner ++ body :: body.inner
  | .block _ items | .list _ items => Expr.listInner items
  | .ifThen _ c a => c :: c.inner ++ a :: a.inner
  | .ifElse _ c a b => c :: c.inner ++ a :: a.inner ++ b :: b.inner
  | .record _ _ fields => Expr.fieldInner fields
  | .field _ target _ _ => target :: target.inner
  | .callFunction _ _ args | .callMethod _ _ _ _ args => Expr.listInner args
  | .callValue _ callee args => callee :: callee.inner ++ Expr.listInner args
  | .cases _ _ scrutinee arms => scrutinee :: scrutinee.inner ++ Expr.armInner arms
  | .binary _ _ lhs rhs => lhs :: lhs.inner ++ rhs :: rhs.inner
  | .unary _ _ operand => operand :: operand.inner

/-- Some expressions, and those inside them. -/
def Expr.listInner : List Expr → List Expr
  | [] => []
  | e :: rest => e :: e.inner ++ Expr.listInner rest

/-- The values of some fields, and the expressions inside them. -/
def Expr.fieldInner : List (Field Expr) → List Expr
  | [] => []
  | ⟨_, _, _, e⟩ :: rest => e :: e.inner ++ Expr.fieldInner rest

/-- The guards and bodies of some arms, and the expressions inside them. -/
def Expr.armInner : List (Arm Expr) → List Expr
  | [] => []
  | ⟨_, _, none, body⟩ :: rest => body :: body.inner ++ Expr.armInner rest
  | ⟨_, _, some guard, body⟩ :: rest =>
    guard :: guard.inner ++ body :: body.inner ++ Expr.armInner rest

end

/-- **The parts of an expression:** itself and the expressions inside it. -/
def Expr.parts (e : Expr) : List Expr := e :: e.inner

/-- The expressions right below an expression. -/
def Expr.children : Expr → List Expr
  | .literal _ _ | .var _ _ | .function _ _ => []
  | .letIn _ _ value body => [value, body]
  | .block _ items | .list _ items => items
  | .ifThen _ c a => [c, a]
  | .ifElse _ c a b => [c, a, b]
  | .record _ _ fields => fields.map (·.value)
  | .field _ target _ _ => [target]
  | .callFunction _ _ args | .callMethod _ _ _ _ args => args
  | .callValue _ callee args => callee :: args
  | .cases _ _ scrutinee arms => scrutinee :: arms.flatMap fun a => a.guard.toList ++ [a.body]
  | .binary _ _ lhs rhs => [lhs, rhs]
  | .unary _ _ operand => [operand]

theorem Expr.listInner_eq (es : List Expr) : listInner es = es.flatMap parts := by
  induction es with
  | nil => rfl
  | cons e rest ih => rw [listInner, ih, flatMap_cons, parts]

theorem Expr.fieldInner_eq (fields : List (Field Expr)) :
    fieldInner fields = (fields.map (·.value)).flatMap parts := by
  induction fields with
  | nil => rfl
  | cons d rest ih => rw [fieldInner, ih, map_cons, flatMap_cons, parts]

theorem Expr.armInner_eq (arms : List (Arm Expr)) : armInner arms =
    (arms.flatMap fun a => a.guard.toList ++ [a.body]).flatMap parts := by
  induction arms with
  | nil => rfl
  | cons a rest ih =>
    obtain ⟨_, _, guard, _⟩ := a
    cases guard <;> simp [armInner, ih, parts]

/-- **The parts of an expression** are itself and the parts of those right below it. -/
theorem Expr.parts_eq (e : Expr) : e.parts = e :: e.children.flatMap parts := by
  refine congrArg (e :: ·) ?_
  cases e with
  | block | list | callFunction | callMethod => exact listInner_eq _
  | record => exact fieldInner_eq _
  | callValue => simp [inner, listInner_eq, children, parts]
  | cases => simp [inner, armInner_eq, children, parts]
  | _ => simp [inner, children, parts]

theorem Expr.sizeOf_lt_of_mem_children {e c : Expr} (h : c ∈ e.children) : sizeOf c < sizeOf e := by
  cases e with
  | literal | var | function => exact nomatch h
  | letIn | ifThen | binary | ifElse | field | unary =>
    simp only [children, mem_cons, not_mem_nil, or_false] at h
    rcases h with rfl | rfl | rfl <;> simp <;> omega
  | block | list | callFunction | callMethod =>
    exact Nat.lt_of_lt_of_le (sizeOf_lt_of_mem h) (by simp [children])
  | record =>
    obtain ⟨⟨_, _, _, _⟩, hd, rfl⟩ := mem_map.1 h
    have := sizeOf_lt_of_mem hd
    simp at *
    omega
  | callValue =>
    rcases mem_cons.1 h with rfl | h
    · simp
      omega
    · exact Nat.lt_of_lt_of_le (sizeOf_lt_of_mem h) (by simp)
  | cases =>
    rcases mem_cons.1 h with rfl | h
    · simp
      omega
    · obtain ⟨⟨_, _, guard, _⟩, ha, hc⟩ := mem_flatMap.1 h
      have := sizeOf_lt_of_mem ha
      cases guard <;> simp at * <;> rcases hc with rfl | rfl <;> omega

/-- **What passes to children passes to all parts.** -/
theorem Expr.forall_parts {P : Expr → Prop} (hP : ∀ e, P e → ∀ c ∈ e.children, P c) (e : Expr)
    (he : P e) : ∀ x ∈ e.parts, P x := by
  rw [parts_eq]
  refine forall_mem_cons.2 ⟨he, forall_mem_flatMap.2 fun c hc => ?_⟩
  have := sizeOf_lt_of_mem_children hc
  exact forall_parts hP c (hP e he c hc)
termination_by sizeOf e

/-! ## Types of parts -/

theorem Expr.listSites_eq (es : List Expr) : listSites es = es.flatMap sites := by
  induction es with
  | nil => rfl
  | cons e rest ih => rw [listSites, ih, flatMap_cons]

theorem Expr.fieldSites_eq (fields : List (Field Expr)) :
    fieldSites fields = (fields.map (·.value)).flatMap sites := by
  induction fields with
  | nil => rfl
  | cons d rest ih => rw [fieldSites, ih, map_cons, flatMap_cons]

theorem Expr.armSites_eq (arms : List (Arm Expr)) : armSites arms =
    arms.flatMap fun a => a.pattern.sites ++ (a.guard.toList ++ [a.body]).flatMap sites := by
  induction arms with
  | nil => rfl
  | cons a rest ih =>
    obtain ⟨_, _, guard, _⟩ := a
    cases guard <;> simp [armSites, ih]

/-- The types of an arm's pattern are types of the match. -/
theorem Expr.mem_armSites {a info} (ha : a ∈ arms) (hinfo : info ∈ a.pattern.sites) :
    info ∈ armSites arms := by
  rw [armSites_eq]
  exact mem_flatMap.2 ⟨a, ha, mem_append_left _ hinfo⟩

theorem Expr.sites_subset_of_mem_children {e c : Expr} (h : c ∈ e.children) :
    c.sites ⊆ e.sites := by
  intro site hsite
  have hlist : ∀ {es : List Expr}, c ∈ es → site ∈ es.flatMap sites :=
    fun h => mem_flatMap.2 ⟨c, h, hsite⟩
  cases e with
  | literal | var | function => exact nomatch h
  | letIn | ifThen | binary | field | unary | ifElse =>
    simp only [children, mem_cons, not_mem_nil, or_false] at h
    simp only [sites, mem_cons, mem_append]
    rcases h with rfl | rfl | rfl <;> simp [hsite]
  | block | list | callFunction | callMethod | callValue =>
    rw [sites, listSites_eq]
    exact mem_cons_of_mem _ (hlist h)
  | record =>
    rw [sites, fieldSites_eq]
    exact mem_cons_of_mem _ (hlist h)
  | cases =>
    refine mem_cons_of_mem _ (mem_append.2 ?_)
    rcases mem_cons.1 h with rfl | h
    · exact .inl hsite
    · obtain ⟨a, ha, hc⟩ := mem_flatMap.1 h
      rw [armSites_eq]
      exact .inr (mem_flatMap.2 ⟨a, ha, mem_append_right _ (hlist hc)⟩)

/-- The types of a part are types of the whole. -/
theorem Expr.sites_subset_of_mem_parts {e x : Expr} (h : x ∈ e.parts) : x.sites ⊆ e.sites :=
  forall_parts (fun _ hsub _ hc => Subset.trans (sites_subset_of_mem_children hc) hsub) e
    (Subset.refl _) x h

mutual

/-- The types of a part of a pattern are types of the pattern. -/
theorem Pattern.sites_subset_of_mem_parts : ∀ {q x : Pattern}, x ∈ q.parts → x.sites ⊆ q.sites
  | .wildcard _, _, hx | .binding _ _, _, hx | .literal _ _, _, hx => by
    cases mem_singleton.1 hx
    exact Subset.refl _
  | .record _ _ fields, x, hx => by
    rcases mem_cons.1 hx with rfl | hx
    · exact Subset.refl _
    · exact subset_cons_of_subset _ (sites_subset_fieldInner hx)

theorem Pattern.sites_subset_fieldInner :
    ∀ {fields} {x}, x ∈ fieldInner fields → x.sites ⊆ fieldSites fields
  | ⟨_, _, _, q⟩ :: rest, x, hx => by
    rw [fieldInner, mem_append] at hx
    rcases hx with hx | hx
    · exact subset_append_of_subset_left _ (sites_subset_of_mem_parts hx)
    · exact subset_append_of_subset_right _ (sites_subset_fieldInner hx)

end

/-! ## Well typed parts -/

section

variable {p : Program} {locals : List Local} {scope : List LocalId}

theorem Expr.WellTypedList.of_mem :
    ∀ {es}, Expr.WellTypedList p locals scope es → e ∈ es → e.WellTyped p locals scope
  | _ :: _, hes, h => by
    rcases mem_cons.1 h with rfl | h
    · exact hes.1
    · exact of_mem hes.2 h

theorem Expr.WellTypedFields.of_mem :
    ∀ {fields}, Expr.WellTypedFields p locals scope r fields → d ∈ fields →
      (∃ x, IsField r d.name d.index x ∧ d.value.ty = x.ty) ∧ d.value.WellTyped p locals scope
  | ⟨_, _, _, _⟩ :: _, hfields, h => by
    rcases mem_cons.1 h with rfl | h
    · exact ⟨hfields.1, hfields.2.1⟩
    · exact of_mem hfields.2.2 h

theorem Expr.WellTypedArms.children {ty result} : ∀ {arms},
    Expr.WellTypedArms p locals scope ty result arms →
    ∀ e ∈ arms.flatMap fun a => a.guard.toList ++ [a.body], ∃ scope', e.WellTyped p locals scope'
  | [], _ => forall_mem_nil _
  | ⟨_, _, none, _⟩ :: _, ⟨_, _, hbody, hrest⟩ =>
    forall_mem_append.2 ⟨forall_mem_singleton.2 ⟨_, hbody⟩, children hrest⟩
  | ⟨_, _, some _, _⟩ :: _, ⟨_, _, _, hguard, hbody, hrest⟩ =>
    forall_mem_append.2 ⟨forall_mem_cons.2 ⟨⟨_, hguard⟩, forall_mem_singleton.2 ⟨_, hbody⟩⟩,
      children hrest⟩

theorem Expr.WellTyped.children {e : Expr} (he : e.WellTyped p locals scope) :
    ∀ c ∈ e.children, ∃ scope', c.WellTyped p locals scope' := by
  cases e with
  | literal | var | function => exact forall_mem_nil _
  | letIn => exact forall_mem_cons.2 ⟨⟨_, he.2.2.1⟩, forall_mem_singleton.2 ⟨_, he.2.2.2⟩⟩
  | block | list | callFunction => exact fun _ h => ⟨_, he.2.of_mem h⟩
  | callMethod => exact fun _ h => ⟨_, he.2.2.2.of_mem h⟩
  | ifThen => exact forall_mem_cons.2 ⟨⟨_, he.2.2.2.1⟩, forall_mem_singleton.2 ⟨_, he.2.2.2.2⟩⟩
  | ifElse =>
    obtain ⟨-, -, -, hc, ha, hb⟩ := he
    exact forall_mem_cons.2 ⟨⟨_, hc⟩, forall_mem_cons.2 ⟨⟨_, ha⟩, forall_mem_singleton.2 ⟨_, hb⟩⟩⟩
  | record =>
    obtain ⟨-, r, -, -, hfields⟩ := he
    exact forall_mem_map.2 fun d hd => ⟨_, (hfields.of_mem hd).2⟩
  | field | unary => exact forall_mem_singleton.2 ⟨_, he.2⟩
  | callValue => exact forall_mem_cons.2 ⟨⟨_, he.2.1⟩, fun _ h => ⟨_, he.2.2.of_mem h⟩⟩
  | cases => exact forall_mem_cons.2 ⟨⟨_, he.1⟩, he.2.children⟩
  | binary => exact forall_mem_cons.2 ⟨⟨_, he.2.1⟩, forall_mem_singleton.2 ⟨_, he.2.2⟩⟩

/-- **Parts of a well typed expression are well typed.** -/
theorem Expr.WellTyped.parts {e x : Expr} (he : e.WellTyped p locals scope) (h : x ∈ e.parts) :
    ∃ scope', x.WellTyped p locals scope' :=
  Expr.forall_parts (P := fun x => ∃ scope', x.WellTyped p locals scope')
    (fun _ ⟨_, hwt⟩ => hwt.children) e ⟨scope, he⟩ x h

variable {records : RecordTable}

theorem Pattern.WellTypedFields.of_mem :
    ∀ {fields}, Pattern.WellTypedFields records locals r fields →
      d ∈ fields → ∃ x, IsField r d.name d.index x ∧ d.value.WellTyped records locals x.ty
  | ⟨_, _, _, _⟩ :: _, hfields, h => by
    rcases mem_cons.1 h with rfl | h
    · exact hfields.1
    · exact of_mem hfields.2 h

mutual

/-- **Parts of a well typed pattern are well typed.** -/
theorem Pattern.WellTyped.parts : ∀ {q x : Pattern} {ty}, q.WellTyped records locals ty →
    x ∈ q.parts → ∃ ty', x.WellTyped records locals ty'
  | .wildcard _, _, ty, hq, hx | .binding _ _, _, ty, hq, hx | .literal _ _, _, ty, hq, hx => by
    cases mem_singleton.1 hx
    exact ⟨ty, hq⟩
  | .record _ _ fields, x, ty, hq, hx => by
    rcases mem_cons.1 hx with rfl | hx
    · exact ⟨ty, hq⟩
    · obtain ⟨-, -, -, r, -, hfields⟩ := hq
      exact Pattern.WellTypedFields.fieldInner hfields hx

theorem Pattern.WellTypedFields.fieldInner : ∀ {fields r}
    {x}, Pattern.WellTypedFields records locals r fields →
    x ∈ Pattern.fieldInner fields → ∃ ty', x.WellTyped records locals ty'
  | ⟨_, _, _, q⟩ :: rest, r, x, hfields, hx => by
    obtain ⟨⟨d, -, hq⟩, hrest⟩ := hfields
    rw [Pattern.fieldInner, mem_append] at hx
    rcases hx with hx | hx
    · exact Pattern.WellTyped.parts hq hx
    · exact Pattern.WellTypedFields.fieldInner hrest hx

end

end

/-! ## Parts with other types -/

section

variable {f : Ty → Ty}

theorem Expr.children_mapTy (e : Expr) : (e.mapTy f).children = e.children.map (·.mapTy f) := by
  cases e with
  | block | list | callFunction | callMethod => exact mapListTy_eq_map _
  | callValue => exact congrArg (_ :: ·) (mapListTy_eq_map _)
  | record _ _ fields =>
    show (mapFieldsTy f fields).map (·.value) = (fields.map (·.value)).map _
    induction fields with
    | nil => rfl
    | cons d rest ih => rw [mapFieldsTy, map_cons, ih, map_cons, map_cons]
  | cases _ _ scrutinee arms =>
    refine congrArg (scrutinee.mapTy f :: ·) ?_
    induction arms with
    | nil => rfl
    | cons a rest ih =>
      obtain ⟨_, _, guard, _⟩ := a
      cases guard <;> simp [mapArmsTy, ih]
  | _ => rfl

/-- Changing the types changes those of the parts. -/
theorem Expr.parts_mapTy (e : Expr) : (e.mapTy f).parts = e.parts.map (·.mapTy f) := by
  rw [parts_eq, parts_eq, children_mapTy, flatMap_map, map_cons, map_flatMap]
  refine congrArg (_ :: ·) (flatMap_congr fun c hc => ?_)
  have := sizeOf_lt_of_mem_children hc
  exact parts_mapTy c
termination_by sizeOf e

end

end Typed

end Sluice
