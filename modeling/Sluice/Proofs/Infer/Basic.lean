import Sluice.Infer.Expr
import Sluice.Proofs.Typing.Rules
import Sluice.Proofs.Unify.Solution

/-!
# What a checking step guarantees

Types found while a body is checked may mention variables that are only bound
later, so nothing can be said about them yet. What can be said is what they
become under any reading that solves the table at the end. `Reading` collects
what the end provides, `Grows` says that a later state knows more, and `Checks`
what a step of checking leaves behind: the types, locals and matches it added
and what holds of them under every reading. Steps one after the other add up
(`Checks.seq`).
-/

namespace Sluice.Infer

open List
open Typed (Info Local LocalId MatchId Program)
open Unify (Table)
open Unify.Table (Solves)

variable {g : Globals} {s s' s1 s2 : State} {p : Program} {L : List Local} {θ : TyVar → Ty}
  {id : LocalId} {l : Local} {ty : Ty}

/-! ## Growing states -/

/-- A state of which everything is known to be sound. -/
structure State.Sound (s : State) : Prop where
  table_sound : s.table.Sound
  locals_sound : ∀ l ∈ s.locals, l.ty.Sound s.table.size

/-- A later state: its table knows more, and it has more locals. -/
structure Grows (s s' : State) : Prop where
  refines : s.table.Refines s'.table
  locals_sound : ∀ l ∈ s'.locals, l.ty.Sound s'.table.size
  locals_grow : s.locals <+: s'.locals

namespace Grows

theorem sound (h : Grows s s') : s'.Sound :=
  ⟨h.refines.sound, h.locals_sound⟩

theorem refl (h : s.Sound) : Grows s s :=
  ⟨.refl h.table_sound, h.locals_sound, prefix_refl _⟩

theorem trans (h : Grows s s1) (h' : Grows s1 s2) : Grows s s2 :=
  ⟨h.refines.trans h'.refines, h'.locals_sound, h.locals_grow.trans h'.locals_grow⟩

/-- Sound types stay so. -/
theorem mono (h : Grows s s') (hty : ty.Sound s.table.size) : ty.Sound s'.table.size :=
  hty.mono h.refines.size_le

/-- Only the table has changed, and it knows more. -/
theorem of_refines (hs : s.Sound) (h : s.table.Refines t) : Grows s { s with table := t } :=
  ⟨h, fun l hl => (hs.locals_sound l hl).mono h.size_le, prefix_refl _⟩

end Grows

/-! ## Readings -/

/-- Locals with their types read. -/
def readLocals (θ : TyVar → Ty) (locals : List Local) : List Local :=
  locals.map fun l => { l with ty := l.ty.subst θ }

/-- The functions and records of a program are those that bodies are checked against, with their
types read. -/
structure Realises (p : Program) (g : Globals) (θ : TyVar → Ty) : Prop where
  records_eq : p.records = g.records.mapTy (Ty.subst θ)
  function : ∀ name signature, g.function? name = some signature →
    p.Declares .free name (Ty.substList θ signature.params) (signature.ret.subst θ)
  method : ∀ owner r m, g.records.get? owner = some r → m ∈ r.methods →
    ∃ params ret, m.ty = .fn (.record owner :: params) ret ∧
      m.symbol = methodSymbol owner m.name ∧
      p.Declares (.method owner m.name) m.symbol (Ty.substList θ (.record owner :: params))
        (ret.subst θ)

/-- What the end of checking provides to look back on a state: a program, the locals of the
function at hand, and a reading of the variables. -/
structure Reading (p : Program) (g : Globals) (L : List Local) (θ : TyVar → Ty) (s : State) :
    Prop where
  realises : Realises p g θ
  solves : Solves θ s.table
  locals_read : readLocals θ s.locals <+: L

/-- What is known at the end of a step was known to come at its start. -/
theorem Reading.back (h : Reading p g L θ s') (hg : Grows s s') : Reading p g L θ s :=
  ⟨h.realises, hg.refines.solves θ h.solves,
    List.IsPrefix.trans (List.IsPrefix.map _ hg.locals_grow) h.locals_read⟩

/-- Locals that are read are found where they were. -/
theorem getElem?_of_readLocals (h : readLocals θ locals <+: L)
    (hl : locals[id]? = some l) : L[id]? = some { l with ty := l.ty.subst θ } := by
  obtain ⟨rest, rfl⟩ := h
  have hid : id < locals.length := (List.getElem?_eq_some_iff.1 hl).1
  rw [getElem?_append_left (by simpa [readLocals] using hid), readLocals, getElem?_map, hl]
  rfl

theorem Reading.getElem? (h : Reading p g L θ s) (hl : s.locals[id]? = some l) :
    L[id]? = some { l with ty := l.ty.subst θ } :=
  getElem?_of_readLocals h.locals_read hl

theorem Reading.hasLocal (h : Reading p g L θ s) (hl : s.locals[id]? = some l) :
    Typed.HasLocal L id (l.ty.subst θ) :=
  ⟨_, h.getElem? hl, rfl⟩

theorem Reading.names (h : Reading p g L θ s) (hl : s.locals[id]? = some l) :
    Source.Names L id l.name :=
  ⟨_, h.getElem? hl, rfl⟩

/-! ## Steps -/

/-- **A step of checking** from one state to another that added some types, together with what
holds under every reading of the state it led to. -/
structure Checks (g : Globals) (s s' : State) (sites : List Info)
    (holds : Program → List Local → (TyVar → Ty) → Prop) : Prop where
  grows : Grows s s'
  sites_sound : ∀ site ∈ sites, site.ty.Sound s'.table.size
  holds_of : ∀ p L θ, Reading p g L θ s' → holds p L θ

namespace Checks

variable {sites sites1 sites2 : List Info} {P P' P1 P2 : Program → List Local → (TyVar → Ty) → Prop}

theorem nothing (h : s.Sound) : Checks g s s [] fun _ _ _ => True where
  grows := .refl h
  sites_sound _ hsite := nomatch hsite
  holds_of _ _ _ _ := trivial

/-- Two steps, one after the other. -/
theorem seq (h1 : Checks g s s1 sites1 P1) (h2 : Checks g s1 s2 sites2 P2) :
    Checks g s s2 (sites1 ++ sites2) fun p L θ => P1 p L θ ∧ P2 p L θ where
  grows := h1.grows.trans h2.grows
  sites_sound site hsite := by
    rcases mem_append.1 hsite with h | h
    · exact h2.grows.mono (h1.sites_sound site h)
    · exact h2.sites_sound site h
  holds_of p L θ h := ⟨h1.holds_of p L θ (h.back h2.grows), h2.holds_of p L θ h⟩

/-- The same step with other types and another conclusion. -/
theorem weaken (h : Checks g s s' sites1 P)
    (hsites : ∀ site ∈ sites, site ∈ sites1 ∨ site.ty.Sound s'.table.size)
    (hP : ∀ p L θ, Reading p g L θ s' → P p L θ → P' p L θ) : Checks g s s' sites P' where
  grows := h.grows
  sites_sound site hsite := (hsites site hsite).elim (h.sites_sound site) id
  holds_of p L θ hr := hP p L θ hr (h.holds_of p L θ hr)

theorem imp (h : Checks g s s' sites P)
    (hP : ∀ p L θ, Reading p g L θ s' → P p L θ → P' p L θ) : Checks g s s' sites P' :=
  h.weaken (fun _ hsite => .inl hsite) hP

end Checks

/-- A step that touches the table only. -/
abbrev Settles (g : Globals) (s s' : State) (holds : Program → List Local → (TyVar → Ty) → Prop) :
    Prop :=
  Checks g s s' [] holds

/-- A change to the table alone adds no types. -/
theorem Settles.of_refines (hs : s.Sound) (h : s.table.Refines t)
    (hP : ∀ p L θ, Reading p g L θ { s with table := t } → P p L θ) :
    Settles g s { s with table := t } P where
  grows := .of_refines hs h
  sites_sound _ hsite := nomatch hsite
  holds_of := hP

/-! ## The small steps -/

theorem newVariable_lt (t : Table) : t.newVariable.1 < t.newVariable.2.size :=
  Nat.lt_of_lt_of_eq (Nat.lt_succ_self _) (Unify.Table.size_newVariable t).symm

theorem fresh_settles (hs : s.Sound) (h : fresh s = .ok ty s') :
    Settles g s s' (fun _ _ _ => True) ∧ ty.Sound s'.table.size := by
  cases h
  exact ⟨.of_refines hs (Unify.Table.refines_newVariable hs.table_sound) fun _ _ _ _ => trivial,
    .of_var (newVariable_lt s.table)⟩

theorem shallow_ok (h : shallow ty s = .ok ty' s') : s.table.shallow ty = ty' ∧ s' = s := by
  obtain ⟨s1, s2, h1, h2⟩ := bind_eq_ok.1 h
  obtain ⟨rfl, rfl⟩ := get_eq_ok.1 h1
  obtain ⟨rfl, rfl⟩ := pure_eq_ok.1 h2
  exact ⟨rfl, rfl⟩

/-- A declared local stands at the end, under its name and with its type. -/
theorem declareLocal_checks (hs : s.Sound) (hty : ty.Sound s.table.size)
    (h : declareLocal name ty s = .ok id s') :
    Checks g s s' [] (fun _ L θ => Typed.HasLocal L id (ty.subst θ) ∧
      Source.Names L id name.name) ∧ s'.locals[id]? = some ⟨name.span, name.name, ty⟩ := by
  cases h
  have hget : (s.locals ++ [(⟨name.span, name.name, ty⟩ : Local)])[s.locals.length]? =
      some ⟨name.span, name.name, ty⟩ := by
    rw [getElem?_append_right Nat.le.refl, Nat.sub_self]
    rfl
  refine ⟨⟨⟨.refl hs.table_sound, fun l hl => ?_, prefix_append _ _⟩, nofun,
    fun p L θ hr => ⟨hr.hasLocal hget, hr.names hget⟩⟩, hget⟩
  rcases mem_append.1 hl with h | h
  · exact hs.locals_sound l h
  · cases mem_singleton.1 h
    exact hty

theorem nextMatch_checks (hs : s.Sound) {id} (h : nextMatch s = .ok id s') :
    Settles g s s' fun _ _ _ => True := by
  cases h
  exact ⟨⟨.refl hs.table_sound, hs.locals_sound, prefix_refl _⟩, nofun, fun _ _ _ _ => trivial⟩

end Sluice.Infer
