import Sluice.Infer.Program
import Sluice.Proofs.Typing.MapTy
import Sluice.Proofs.Unify.Rollback

/-!
# What a check can do to its state

A check changes the table by single changes, declares locals behind those that
are there and numbers matches one after the other. Nothing is assumed of the
state it starts in, so this holds also where errors have been reported before.

Most steps touch the table only (`Quiet`). What the others did is written down
in `Marks`: the locals they declared, the matches they numbered, and the names
they met with what these were taken for. `Yields` says which marks a check
leaves; a check made of parts leaves theirs, one after the other.
-/

namespace Sluice

namespace Source

mutual

/-- An annotation that leaves nothing to inference. -/
def TypeExpr.isFull : TypeExpr → Bool
  | .named _ name => name.name != "list"
  | .list _ elem => elem.isFull
  | .bareList _ => false
  | .fn _ params ret => TypeExpr.areFull params && ret.isFull

/-- Annotations that leave nothing to inference. -/
def TypeExpr.areFull : List TypeExpr → Bool
  | [] => true
  | a :: rest => a.isFull && TypeExpr.areFull rest

end

end Source

namespace Infer

open List
open Source (Ident TypeExpr)
open Typed (Local LocalId MatchId Use)
open Unify (Table)
open Unify.Table (Moves)

variable {g : Globals} {scope : Scope} {s s' s1 : State}

/-! ## Steps that touch the table only -/

/-- Only the table has changed, by single changes. -/
structure Retables (s s' : State) : Prop where
  moves : Moves s.table s'.table
  locals_eq : s'.locals = s.locals
  matchCount_eq : s'.matchCount = s.matchCount

namespace Retables

theorem refl (s : State) : Retables s s :=
  ⟨.refl, rfl, rfl⟩

theorem trans (h : Retables s s1) (h' : Retables s1 s') : Retables s s' :=
  ⟨h.moves.trans h'.moves, h'.locals_eq.trans h.locals_eq, h'.matchCount_eq.trans h.matchCount_eq⟩

theorem of_moves (h : Moves s.table t) : Retables s { s with table := t } :=
  ⟨h, rfl, rfl⟩

end Retables

/-- A check that touches the table only, whether it passes or fails. -/
abbrev Quiet {α : Type} (x : Check α) : Prop :=
  Leads Retables x

namespace Quiet

variable {α β : Type}

theorem pure (a : α) : Quiet (pure a : Check α) :=
  Leads.pure Retables.refl a

theorem fail (span : Span) (fault : Fault) : Quiet (fail span fault : Check α) :=
  Leads.throw Retables.refl _

theorem bind {f : α → Check β} (hx : Quiet x) (hf : ∀ a, Quiet (f a)) : Quiet (x >>= f) :=
  Leads.bind Retables.trans hx hf

end Quiet

theorem fresh_quiet : Quiet fresh := fun _ =>
  .of_moves (.newVariable .refl)

theorem shallow_quiet (ty : Ty) : Quiet (shallow ty) := .refl

theorem resolve_quiet (ty : Ty) : Quiet (resolve ty) := .refl

theorem localType_quiet (id : Typed.LocalId) : Quiet (localType id) := .refl

theorem require_quiet (expected found : Ty) (span : Span) (boundary : Boundary) :
    Quiet (require expected found span boundary) := by
  intro s
  have hunify := Unify.leads_unify expected found s.table
  rw [require]
  split <;> rename_i heq <;> rw [heq] at hunify <;> exact .of_moves hunify

section

variable {R : Table → Table → Prop} (hrefl : ∀ t, R t t)
  (htrans : ∀ {t1 t2 t3}, R t1 t2 → R t2 t3 → R t1 t3)

include hrefl htrans

mutual

/-- **All that an annotation does to the table** is to add variables for what it leaves open, also
if it has an error. -/
theorem annotated_leads (records : RecordTable) : ∀ a : TypeExpr,
    (a.isFull = false → ∀ t, R t t.newVariable.2) → Leads R (annotated records a)
  | .named _ name, hnew => by
    intro t
    rw [annotated]
    split
    · rename_i hlist
      exact hnew (by simp [TypeExpr.isFull, hlist]) t
    · split
      · exact hrefl t
      · split <;> exact hrefl t
  | .list _ elem, hnew => by
    exact Leads.bind htrans (annotated_leads records elem hnew) fun _ => Leads.pure hrefl _
  | .bareList _, hnew => hnew rfl
  | .fn _ params ret, hnew => by
    have hboth := hnew ∘ Bool.and_eq_false_iff.2
    exact Leads.bind htrans (annotatedList_leads records params (hboth ∘ .inl)) fun _ =>
      Leads.bind htrans (annotated_leads records ret (hboth ∘ .inr)) fun _ => Leads.pure hrefl _

theorem annotatedList_leads (records : RecordTable) : ∀ as : List TypeExpr,
    (TypeExpr.areFull as = false → ∀ t, R t t.newVariable.2) →
    Leads R (annotatedList records as)
  | [], _ => Leads.pure hrefl _
  | a :: rest, hnew => by
    have hboth := hnew ∘ Bool.and_eq_false_iff.2
    exact Leads.bind htrans (annotated_leads records a (hboth ∘ .inl)) fun _ =>
      Leads.bind htrans (annotatedList_leads records rest (hboth ∘ .inr)) fun _ =>
        Leads.pure hrefl _

end

end

theorem annotatedType_quiet (records : RecordTable) (a : TypeExpr) :
    Quiet (annotatedType records a) := by
  intro s
  have hmoves := annotated_leads (R := Moves) (fun _ => .refl) .trans records a
    (fun _ _ => .newVariable .refl) s.table
  rw [annotatedType]
  split <;> rename_i heq <;> rw [heq] at hmoves <;> exact .of_moves hmoves

theorem requireEach_quiet (boundary : Boundary) : ∀ tys es,
    Quiet (requireEach boundary tys es)
  | [], _ | _ :: _, [] => Quiet.pure ()
  | _ :: tys, _ :: es =>
    (require_quiet _ _ _ _).bind fun _ => requireEach_quiet boundary tys es

theorem callType_quiet (callee : Ty) (args : List Typed.Expr) (span : Span) :
    Quiet (callType callee args span) := by
  refine (shallow_quiet callee).bind fun ty => ?_
  cases ty with
  | fn params ret =>
    simp only
    split
    · exact (requireEach_quiet _ _ _).bind fun _ => Quiet.pure ret
    · exact Quiet.fail _ _
  | var v => exact fresh_quiet.bind fun _ => (require_quiet _ _ _ _).bind fun _ => Quiet.pure _
  | error => exact Quiet.pure _
  | prim | list | record => exact (resolve_quiet _).bind fun _ => Quiet.fail _ _

theorem binaryType_quiet (op : BinaryOp) (lhs rhs : Typed.Expr) :
    Quiet (binaryType op lhs rhs) := by
  rw [binaryType]
  split
  · exact (require_quiet _ _ _ _).bind fun _ => (require_quiet _ _ _ _).bind fun _ => Quiet.pure _
  · refine (require_quiet _ _ _ _).bind fun _ => (shallow_quiet _).bind fun shared => ?_
    split
    · exact Quiet.pure _
    · exact (resolve_quiet _).bind fun _ => Quiet.fail _ _

theorem receiverRecord_quiet (ty : Ty) (span : Span) : Quiet (receiverRecord ty span) := by
  refine (shallow_quiet ty).bind fun ty => ?_
  cases ty with
  | record | error => exact Quiet.pure _
  | var => exact Quiet.fail _ _
  | prim | list | fn => exact (resolve_quiet _).bind fun _ => Quiet.fail _ _

theorem member_quiet (g : Globals) (record : String) (name : Ident) :
    Quiet (member g record name) := by
  rw [member]
  split
  · exact Quiet.fail _ _
  · split
    · exact Quiet.pure _
    · split
      · exact Quiet.pure _
      · exact Quiet.fail _ _

theorem namedField_quiet (record : RecordDecl) (seen : List String) (name : Ident) :
    Quiet (namedField record seen name) := by
  rw [namedField]
  split
  · exact Quiet.fail _ _
  · split
    · exact Quiet.fail _ _
    · exact Quiet.pure _

/-! ## Marks -/

/-- What a check did beyond the table: the locals it declared, the matches it numbered, and the
names it met with what they were taken for. -/
structure Marks where
  declared : List (Local × LocalId) := []
  numbered : List MatchId := []
  written : List String := []
  uses : List Use := []

/-- Names in scope are the names of their locals. -/
def NamedIn (names : List String) (scope : Scope) : Prop :=
  ∀ d ∈ scope, names[d.2]? = some d.1

namespace Marks

instance : Append Marks where
  append m m' := ⟨m.declared ++ m'.declared, m.numbered ++ m'.numbered, m.written ++ m'.written,
    m.uses ++ m'.uses⟩

theorem append_assoc (m m' m'' : Marks) : m ++ m' ++ m'' = m ++ (m' ++ m'') := by
  change Marks.mk _ _ _ _ = Marks.mk _ _ _ _
  simp only [Marks.mk.injEq]
  exact ⟨List.append_assoc .., List.append_assoc .., List.append_assoc .., List.append_assoc ..⟩

/-- What was declared as a scope, the latest first. -/
def bound (m : Marks) : Scope :=
  (m.declared.map fun d => (d.1.name, d.2)).reverse

@[simp] theorem bound_append (m m' : Marks) : (m ++ m').bound = m'.bound ++ m.bound := by
  change ((m.declared ++ m'.declared).map _).reverse = _
  rw [map_append, reverse_append, bound, bound]

/-- **The marks left on the way from one state to another.** Locals and matches get the next
numbers. Each name stands for what it was taken for, as soon as the names in scope are right. -/
structure Left (m : Marks) (scope : Scope) (s s' : State) : Prop where
  locals_eq : s'.locals = s.locals ++ m.declared.map (·.1)
  ids_eq : m.declared.map (·.2) = List.range' s.locals.length m.declared.length
  matchCount_eq : s'.matchCount = s.matchCount + m.numbered.length
  numbered_eq : m.numbered = List.range' s.matchCount m.numbered.length
  stand : ∀ names, s'.locals.map (·.name) <+: names → NamedIn names scope →
    List.Forall₂ (Use.StandsFor names) m.written m.uses

namespace Left

variable {m m' : Marks}

theorem refl (scope : Scope) (s : State) : Left {} scope s s :=
  ⟨(append_nil _).symm, rfl, rfl, rfl, fun _ _ _ => .nil⟩

/-- What was declared has the names it was declared under. -/
theorem named (h : m.Left scope s s')
    (hnames : s'.locals.map (·.name) <+: names) : NamedIn names m.bound := by
  intro d hd
  obtain ⟨⟨l, id⟩, hmem, rfl⟩ := mem_map.1 (mem_reverse.1 hd)
  obtain ⟨i, hi⟩ := mem_iff_getElem?.1 hmem
  have hid : id = s.locals.length + i := by
    have hids := congrArg (·[i]?) h.ids_eq
    simp only [getElem?_map, hi, Option.map_some] at hids
    rw [getElem?_range' (List.getElem?_eq_some_iff.1 hi).1, Nat.one_mul] at hids
    exact Option.some.inj hids
  have hl : (s'.locals.map (·.name))[id]? = some l.name := by
    rw [h.locals_eq, hid, getElem?_map, getElem?_append_right (Nat.le_add_right _ _),
      Nat.add_sub_cancel_left, getElem?_map, hi]
    rfl
  obtain ⟨rest, rfl⟩ := hnames
  rw [getElem?_append_left (List.getElem?_eq_some_iff.1 hl).1, hl]

/-- Marks add up. The later part may use what the first declared. -/
theorem seq (h : m.Left scope s s1) (hscope : scope' ⊆ m.bound ++ scope)
    (h' : m'.Left scope' s1 s') : (m ++ m').Left scope s s' where
  locals_eq := by
    rw [h'.locals_eq, h.locals_eq, List.append_assoc, ← map_append]
    rfl
  ids_eq := by
    have hids := h'.ids_eq
    rw [h.locals_eq, length_append, length_map] at hids
    change (m.declared ++ m'.declared).map _ = List.range' _ (m.declared ++ m'.declared).length
    rw [map_append, h.ids_eq, hids, length_append, List.range'_append_1]
  matchCount_eq := by
    change _ = _ + (m.numbered ++ m'.numbered).length
    rw [h'.matchCount_eq, h.matchCount_eq, length_append, Nat.add_assoc]
  numbered_eq := by
    have hids := h'.numbered_eq
    rw [h.matchCount_eq] at hids
    change m.numbered ++ m'.numbered = List.range' _ (m.numbered ++ m'.numbered).length
    rw [length_append, ← List.range'_append_1, ← h.numbered_eq, ← hids]
  stand names hnames hnamed := by
    have hnames1 : s1.locals.map (·.name) <+: names := by
      rw [h'.locals_eq, map_append] at hnames
      exact (prefix_append _ _).trans hnames
    refine rel_append (h.stand names hnames1 hnamed) (h'.stand names hnames fun d hd => ?_)
    rcases mem_append.1 (hscope hd) with hd | hd
    · exact h.named hnames1 d hd
    · exact hnamed d hd

/-- A step that touches the table only leaves no mark. -/
theorem retables (h : m.Left scope s s1) (h' : Retables s1 s') : m.Left scope s s' := by
  obtain ⟨hlocals, hids, hcount, hnumbered, hstand⟩ := h
  rw [← h'.locals_eq] at hlocals hstand
  exact ⟨hlocals, hids, h'.matchCount_eq.trans hcount, hnumbered, hstand⟩

end Left

/-- What marks consist of, without the names of the locals. -/
structure Are (m : Marks) (binders : List LocalId) (ids : List MatchId) (written : List String)
    (uses : List Use) : Prop where
  binders_eq : m.declared.map (·.2) = binders
  ids_eq : m.numbered = ids
  written_eq : m.written = written
  uses_eq : m.uses = uses

end Marks

theorem Marks.Are.append {m m' : Marks} (h : m.Are b i w u)
    (h' : m'.Are b' i' w' u') : (m ++ m').Are (b ++ b') (i ++ i') (w ++ w') (u ++ u') := by
  obtain ⟨rfl, rfl, rfl, rfl⟩ := h
  obtain ⟨rfl, rfl, rfl, rfl⟩ := h'
  exact ⟨map_append, rfl, rfl, rfl⟩

theorem Marks.Are.map_bound {m : Marks} (h : m.Are b i w u) : m.bound.map (·.2) = b.reverse := by
  rw [Marks.bound, map_reverse, map_map, ← h.binders_eq]
  rfl

/-! ## Checks and their marks -/

/-- **A check leaves marks** behind those that have been left so far. However it ends, it moved
the table; where it passes, something holds of its result and of all the marks. -/
structure Yields {α : Type} (m : Marks) (scope : Scope) (x : Check α) (Q : α → Marks → Prop) :
    Prop where
  moves : Leads (fun s s' => Moves s.table s'.table) x
  marks : ∀ {s s1 a s'}, m.Left scope s s1 → x s1 = .ok a s' →
    ∃ m', Q a m' ∧ m'.Left scope s s'

namespace Yields

variable {α β : Type} {m : Marks} {x : Check α} {f : α → Check β} {Q : α → Marks → Prop}
  {R : β → Marks → Prop}

theorem pure (h : Q a m) : Yields m scope (Pure.pure a) Q where
  moves := Leads.pure (fun _ => .refl) a
  marks hm hrun := by
    obtain ⟨rfl, rfl⟩ := pure_eq_ok.1 hrun
    exact ⟨m, h, hm⟩

theorem fail {span fault} : Yields m scope (fail span fault) Q where
  moves := Leads.throw (fun _ => .refl) _
  marks _ hrun := absurd hrun throw_ne_ok

/-- What is in scope for a part has been in scope or was declared on the way. -/
theorem inside (hx : Yields {} scope' x Q) (hscope : scope' ⊆ m.bound ++ scope)
    (hf : ∀ a m', Q a m' → Yields (m ++ m') scope (f a) R) : Yields m scope (x >>= f) R where
  moves s := by
    have hs := hx.moves s
    simp only [Bind.bind, EStateM.bind]
    cases hrun : x s with
    | error e s1 =>
      rw [hrun] at hs
      exact hs
    | ok a s1 =>
      rw [hrun] at hs
      obtain ⟨m', hQ, -⟩ := hx.marks (.refl _ _) hrun
      exact hs.trans ((hf a m' hQ).moves s1)
  marks hm hrun := by
    obtain ⟨a, s1, h1, h2⟩ := bind_eq_ok.1 hrun
    obtain ⟨m', hQ, hm'⟩ := hx.marks (.refl _ _) h1
    exact (hf a m' hQ).marks (hm.seq hscope hm') h2

/-- Parts with the same names in scope. -/
theorem bind (hx : Yields {} scope x Q) (hf : ∀ a m', Q a m' → Yields (m ++ m') scope (f a) R) :
    Yields m scope (x >>= f) R :=
  hx.inside (subset_append_right _ _) hf

/-- A name is looked up. -/
theorem use (hu : ∀ names, NamedIn names scope → u.StandsFor names name)
    (hx : Yields (m ++ { written := [name], uses := [u] }) scope x Q) : Yields m scope x Q where
  moves := hx.moves
  marks {s s1 _ _} hm hrun := by
    have hlook : Marks.Left { written := [name], uses := [u] } scope s1 s1 :=
      ⟨(append_nil _).symm, rfl, rfl, rfl, fun names _ hn => .cons (hu names hn) .nil⟩
    exact hx.marks (hm.seq (subset_append_right _ _) hlook) hrun

end Yields

/-- A quiet step in front of others. -/
theorem Quiet.yields {f : α → Check β} (hx : Quiet x)
    (hf : ∀ a, Yields m scope (f a) R) : Yields m scope (x >>= f) R where
  moves := Leads.bind (fun h h' => h.trans h') (fun s => (hx s).moves) fun a => (hf a).moves
  marks {s s1 _ _} hm hrun := by
    obtain ⟨a, s2, h1, h2⟩ := bind_eq_ok.1 hrun
    have hs := hx s1
    rw [h1] at hs
    exact (hf a).marks (hm.retables hs) h2

/-- A local is declared where its name is met. -/
def Marks.ofLocal (name : Ident) (ty : Ty) (id : LocalId) : Marks :=
  ⟨[(⟨name.span, name.name, ty⟩, id)], [], [name.name], [.binder id]⟩

theorem Marks.are_ofLocal (name : Ident) (ty : Ty) (id : LocalId) :
    (Marks.ofLocal name ty id).Are [id] [] [name.name] [.binder id] :=
  ⟨rfl, rfl, rfl, rfl⟩

theorem declareLocal_yields (name : Ident) (ty : Ty) :
    Yields {} scope (declareLocal name ty) fun id m => m = .ofLocal name ty id where
  moves _ := .refl
  marks {_ s1 _ _} hm hrun := by
    cases hrun
    have hstep : (Marks.ofLocal name ty s1.locals.length).Left scope s1
        { s1 with locals := s1.locals ++ [⟨name.span, name.name, ty⟩] } := by
      refine ⟨rfl, rfl, rfl, rfl, ?_⟩
      rintro _ ⟨rest, rfl⟩ -
      exact .cons (by simp [Use.StandsFor]) .nil
    exact ⟨_, rfl, hm.seq (subset_append_right _ _) hstep⟩

theorem nextMatch_yields : Yields {} scope nextMatch fun id m => m = { numbered := [id] } where
  moves _ := .refl
  marks {_ s1 _ _} hm hrun := by
    cases hrun
    have hstep : Marks.Left { numbered := [s1.matchCount] } scope s1
        { s1 with matchCount := s1.matchCount + 1 } :=
      ⟨(append_nil _).symm, rfl, rfl, rfl, fun _ _ _ => .nil⟩
    exact ⟨_, rfl, hm.seq (subset_append_right _ _) hstep⟩

end Infer

end Sluice
