import Mathlib.Tactic.Common
import Sluice.Flow.Function
import Sluice.Proofs.Monad

/-!
# Other names for registers

An instruction is its form with registers filled in (`Instr.ext_form`), so each way of
changing registers is known by what it does to the form and to the views of the registers,
and the ways agree (`Instr.views_agree`).

Looking every register of a function up succeeds if and only if each of its registers
is found, and the result is then the function with all of them replaced
(`computes_function`). It does not matter in which order they are looked up.
-/

namespace Sluice.Flow

open List

variable {ρ σ τ ε : Type}

/-- The registers that an allocation lists. -/
def Instr.listed : Instr ρ → List ρ
  | alloc _ _ live => live
  | _ => []

/-- All registers of an instruction. -/
def Instr.names (i : Instr ρ) : List ρ := i.def?.toList ++ i.uses ++ i.listed

/-- All of an instruction but its registers. -/
def Instr.form (i : Instr ρ) : Instr Unit := i.map fun _ => ()

/-! ## What changes, and what does not -/

section

variable (f : ρ → σ) (g : σ → τ)

theorem Operand.reg?_map (o : Operand ρ) : (o.map f).reg? = o.reg?.map f := by cases o <;> rfl

theorem Operand.map_map (o : Operand ρ) : (o.map f).map g = o.map (g ∘ f) := by cases o <;> rfl

theorem Callee.reg?_map (c : Callee ρ) : (c.map f).reg? = c.reg?.map f := by cases c <;> rfl

theorem Callee.map_map (c : Callee ρ) : (c.map f).map g = c.map (g ∘ f) := by cases c <;> rfl

theorem toList_map (x : Option ρ) : (x.map f).toList = x.toList.map f := by cases x <;> rfl

theorem filterMap_reg?_map (os : List (Operand ρ)) :
    (os.map (·.map f)).filterMap Operand.reg? = (os.filterMap Operand.reg?).map f := by
  simp only [filterMap_map, map_filterMap, Function.comp_def, Operand.reg?_map]

variable (i : Instr ρ)

theorem Instr.uses_map : (i.map f).uses = i.uses.map f := by
  cases i <;> simp only [map, uses, Operand.reg?_map, Callee.reg?_map, filterMap_reg?_map, toList_map,
    map_append, map_cons, map_nil]

theorem Instr.def?_map : (i.map f).def? = i.def?.map f := by cases i <;> rfl

theorem Instr.listed_map : (i.map f).listed = i.listed.map f := by cases i <;> rfl

theorem Instr.names_map : (i.map f).names = i.names.map f := by
  simp only [names, uses_map, def?_map, listed_map, toList_map, map_append]

theorem Instr.map_map : (i.map f).map g = i.map (g ∘ f) := by
  cases i <;> simp [map, Operand.map_map, Callee.map_map]

theorem Instr.form_map : (i.map f).form = i.form := i.map_map f _

variable (φ : ρ → ρ)

theorem Instr.uses_mapUses : (i.mapUses φ).uses = i.uses.map φ := by
  cases i <;> simp only [mapUses, uses, Operand.reg?_map, Callee.reg?_map, filterMap_reg?_map,
    toList_map, map_append, map_cons, map_nil]

theorem Instr.def?_mapUses : (i.mapUses φ).def? = i.def? := by cases i <;> rfl

theorem Instr.listed_mapUses : (i.mapUses φ).listed = i.listed := by cases i <;> rfl

theorem Instr.form_mapUses : (i.mapUses φ).form = i.form := by
  cases i <;> simp [mapUses, form, map, Operand.map_map, Callee.map_map, Function.comp_def]

theorem Instr.uses_mapDef : (i.mapDef φ).uses = i.uses := by cases i <;> rfl

theorem Instr.def?_mapDef : (i.mapDef φ).def? = i.def?.map φ := by cases i <;> rfl

theorem Instr.listed_mapDef : (i.mapDef φ).listed = i.listed := by cases i <;> rfl

theorem Instr.form_mapDef : (i.mapDef φ).form = i.form := by cases i <;> rfl

end

/-! ## Instructions of one form -/

section

variable {i j : Instr ρ} {rs rs' : List ρ}

theorem Operand.append_inj {o o' : Operand ρ}
    (hform : o.map (fun _ => ()) = o'.map fun _ => ())
    (h : o.reg?.toList ++ rs = o'.reg?.toList ++ rs') : o = o' ∧ rs = rs' := by
  cases o <;> cases o' <;> simp_all [map, reg?]

theorem Callee.append_inj {c c' : Callee ρ}
    (hform : c.map (fun _ => ()) = c'.map fun _ => ())
    (h : c.reg?.toList ++ rs = c'.reg?.toList ++ rs') : c = c' ∧ rs = rs' := by
  cases c <;> cases c' <;> simp_all [map, reg?]

theorem operands_append_inj {os os' : List (Operand ρ)}
    (hform : os.map (·.map fun _ => ()) = os'.map (·.map fun _ => ()))
    (h : os.filterMap Operand.reg? ++ rs = os'.filterMap Operand.reg? ++ rs') :
    os = os' ∧ rs = rs' := by
  induction os generalizing os' with
  | nil =>
    cases map_eq_nil_iff.1 hform.symm
    exact ⟨rfl, h⟩
  | cons o os ih =>
    obtain ⟨o', os', rfl, ho, hos⟩ := map_eq_cons_iff.1 hform.symm
    cases o <;> cases o' <;> grind [Operand.map, Operand.reg?]

/-- **An instruction is its form with registers filled in.** -/
theorem Instr.ext_form (hform : i.form = j.form) (hnames : i.names = j.names) : i = j := by
  -- the lists of names keep their empty tails, so that operands are split off one by one
  cases i <;> cases j <;>
    simp [-append_nil, -append_cancel_right_eq, form, map, names, def?, uses, listed]
      at hform hnames ⊢ <;>
    grind [Operand.append_inj, Callee.append_inj, operands_append_inj]

theorem Instr.map_congr {f g : ρ → σ} (h : ∀ r ∈ i.names, f r = g r) : i.map f = i.map g :=
  ext_form (by rw [form_map, form_map]) (by rw [names_map, names_map, map_congr_left h])

theorem Instr.map_inj {f : ρ → σ} (hf : ∀ r s, f r = f s → r = s) (h : i.map f = j.map f) :
    i = j := by
  refine ext_form ?_ ((map_inj_right hf).1 ?_)
  · rw [← form_map f, h, form_map]
  · rw [← names_map, h, names_map]

variable {φ ψ : ρ → ρ}

theorem Instr.mapUses_eq_self (h : ∀ r ∈ i.uses, φ r = r) : i.mapUses φ = i := by
  have huses : i.uses.map φ = i.uses := (map_congr_left h).trans (List.map_id _)
  refine ext_form (i.form_mapUses φ) ?_
  rw [names, def?_mapUses, uses_mapUses, listed_mapUses, huses, names]

theorem Instr.mapDef_congr (h : ∀ d, i.def? = some d → φ d = ψ d) : i.mapDef φ = i.mapDef ψ := by
  refine ext_form (by rw [form_mapDef, form_mapDef]) ?_
  simp only [names, def?_mapDef, uses_mapDef, listed_mapDef, Option.map_congr h]

end

/-! ## Looking registers up -/

section

variable {g : ρ → Except ε σ} {P : ρ → Prop} {φ : ρ → σ}

theorem computes_operand (h : Computes g P φ) :
    Computes (Operand.tryMap g) (fun o => ∀ r ∈ o.reg?.toList, P r) (Operand.map φ) := by
  intro o o'
  cases o with
  | imm v => simp [Operand.tryMap, Operand.map, Operand.reg?, eq_comm]
  | reg r =>
    simp only [Operand.tryMap, Operand.map, Operand.reg?, except_map_eq_ok, h r, Option.toList_some,
      forall_mem_singleton, and_assoc, exists_and_left, exists_eq_left]
    exact and_congr_right' eq_comm

theorem computes_callee (h : Computes g P φ) :
    Computes (Callee.tryMap g) (fun c => ∀ r ∈ c.reg?.toList, P r) (Callee.map φ) := by
  intro c c'
  cases c with
  | direct v => simp [Callee.tryMap, Callee.map, Callee.reg?, eq_comm]
  | indirect r =>
    simp only [Callee.tryMap, Callee.map, Callee.reg?, except_map_eq_ok, h r, Option.toList_some,
      forall_mem_singleton, and_assoc, exists_and_left, exists_eq_left]
    exact and_congr_right' eq_comm

theorem computes_instr (h : Computes g P φ) :
    Computes (Instr.tryMap g) (fun i => ∀ r ∈ i.names, P r) (Instr.map φ) := by
  have ho := computes_operand h
  have hc := computes_callee h
  have hargs := ho.mapM
  have hlive := h.mapM
  intro i j
  cases i <;>
    simp only [Instr.tryMap, Instr.map, Instr.names, Instr.def?, Instr.uses, Instr.listed,
      except_bind_eq_ok, except_pure_eq_ok, h _ _, ho _ _, hc _ _, hargs _ _, hlive _ _,
      forall_mem_append, append_nil, nil_append, Option.toList_some,
      Option.toList_none, forall_mem_cons, forall_mem_filterMap, Option.mem_toList,
      not_mem_nil, IsEmpty.forall_iff, implies_true, and_assoc, exists_and_left,
      exists_eq_left, true_and]
  -- a call looks its result up last
  tauto

/-- **Every register of a function has a new name** if its parameters and those of its instructions
have one, and then all of them are replaced. -/
theorem computes_function (h : Computes g P φ) :
    Computes (Function.tryMap g)
      (fun f => (∀ r ∈ f.params, P r) ∧ ∀ b ∈ f.blocks, ∀ i ∈ b.instrs, ∀ r ∈ i.names, P r)
      (Function.map φ) := by
  have hblock : Computes
      (fun b : Block ρ => do
        let instrs ← b.instrs.mapM (·.tryMap g)
        return { b with instrs })
      (fun b => ∀ i ∈ b.instrs, ∀ r ∈ i.names, P r)
      fun b => { b with instrs := b.instrs.map (·.map φ) } := by
    intro b c
    simp only [except_bind_eq_ok, except_pure_eq_ok, (computes_instr h).mapM _ _, and_assoc,
      exists_and_left, exists_eq_left]
  intro f f'
  simp only [Function.tryMap, Function.map, except_bind_eq_ok, except_pure_eq_ok, h.mapM _ _,
    hblock.mapM _ _, and_assoc, exists_and_left, exists_eq_left]

end

/-! ## Ways of changing registers -/

section

variable (h : σ → τ) (g : ρ → Except ε σ)

theorem Operand.tryMap_map (o : Operand ρ) :
    o.tryMap (fun r => h <$> g r) = map h <$> o.tryMap g := by
  cases o <;> simp only [tryMap, Functor.map_map] <;> rfl

theorem Callee.tryMap_map (c : Callee ρ) :
    c.tryMap (fun r => h <$> g r) = map h <$> c.tryMap g := by
  cases c <;> simp only [tryMap, Functor.map_map] <;> rfl

theorem except_mapM_map {α β γ : Type} (h : β → γ) (f : α → Except ε β) (xs : List α) :
    (xs.mapM fun x => h <$> f x) = List.map h <$> xs.mapM f := by
  induction xs with
  | nil => rfl
  | cons x xs ih => simp [ih]

/-- Names can be changed once more while they are looked up, or afterwards. -/
theorem Instr.tryMap_map (i : Instr ρ) :
    i.tryMap (fun r => h <$> g r) = map h <$> i.tryMap g := by
  cases i <;> simp [tryMap, map, Operand.tryMap_map, Callee.tryMap_map, except_mapM_map]

variable {g} {i : Instr ρ} {j : Instr σ}

/-- The outcome of looking a register up is a name for it like any other. -/
theorem computes_outcome :
    Computes (fun r => (.ok <$> g r : Except ε (Except ε σ))) (fun r => ∃ s, g r = .ok s) g := by
  intro r x
  cases hr : g r <;> simp [hr, Functor.map, Except.map, eq_comm]

theorem Instr.map_eq_of_tryMap (hj : i.tryMap g = .ok j) : i.map g = j.map .ok := by
  have hrun := i.tryMap_map (.ok : σ → Except ε σ) g
  rw [hj] at hrun
  exact ((computes_instr computes_outcome i _).1 hrun).2.symm

theorem Instr.exists_tryMap : (∃ j, i.tryMap g = .ok j) ↔ ∀ r ∈ i.names, ∃ s, g r = .ok s := by
  have hrun := i.tryMap_map (.ok : σ → Except ε σ) g
  constructor
  · rintro ⟨j, hj⟩
    rw [hj] at hrun
    exact ((computes_instr computes_outcome i _).1 hrun).1
  · intro hnames
    rw [(computes_instr computes_outcome i _).2 ⟨hnames, rfl⟩] at hrun
    obtain ⟨j, hj, -⟩ := except_map_eq_ok.1 hrun.symm
    exact ⟨j, hj⟩

end

/-- **All views of the registers of an instruction agree.** -/
theorem Instr.views_agree (i : Instr ρ) :
    (∀ j, i = j ↔ i.form = j.form ∧ i.def? = j.def? ∧ i.uses = j.uses ∧ i.listed = j.listed) ∧
    (∀ f : ρ → σ, (i.map f).form = i.form ∧ (i.map f).def? = i.def?.map f ∧
      (i.map f).uses = i.uses.map f ∧ (i.map f).listed = i.listed.map f) ∧
    i.map id = i ∧ (∀ (f : ρ → σ) (g : σ → τ), (i.map f).map g = i.map (g ∘ f)) ∧
    (∀ f : ρ → ρ, (i.mapUses f).form = i.form ∧ (i.mapUses f).def? = i.def? ∧
      (i.mapUses f).uses = i.uses.map f ∧ (i.mapUses f).listed = i.listed ∧
      (i.mapUses f).successors = i.successors) ∧
    (∀ f : ρ → ρ, (i.mapDef f).form = i.form ∧ (i.mapDef f).def? = i.def?.map f ∧
      (i.mapDef f).uses = i.uses ∧ (i.mapDef f).listed = i.listed ∧
      (i.mapDef f).successors = i.successors) ∧
    (∀ g : ρ → Except ε σ, ((∃ e, i.tryMap g = .error e) ↔
        ∃ r, (i.def? = some r ∨ r ∈ i.uses ∨ r ∈ i.listed) ∧ ∃ e, g r = .error e) ∧
      (∀ j, i.tryMap g = .ok j → i.map g = j.map .ok) ∧
      ∀ f : ρ → σ, (∀ r, (i.def? = some r ∨ r ∈ i.uses ∨ r ∈ i.listed) → g r = .ok (f r)) →
        i.tryMap g = .ok (i.map f)) := by
  have hnames : ∀ r, r ∈ i.names ↔ i.def? = some r ∨ r ∈ i.uses ∨ r ∈ i.listed := by
    intro r
    simp [names]
  refine ⟨fun j => ⟨?_, ?_⟩, fun f => ⟨i.form_map f, i.def?_map f, i.uses_map f, i.listed_map f⟩,
    ?_, fun f g => i.map_map f g, fun f => ⟨i.form_mapUses f, i.def?_mapUses f, i.uses_mapUses f,
    i.listed_mapUses f, ?_⟩, fun f => ⟨i.form_mapDef f, i.def?_mapDef f, i.uses_mapDef f,
    i.listed_mapDef f, ?_⟩, fun g => ⟨?_, fun j => map_eq_of_tryMap, fun f hf => ?_⟩⟩
  · rintro rfl
    exact ⟨rfl, rfl, rfl, rfl⟩
  · rintro ⟨hform, hdef, huses, hlisted⟩
    exact ext_form hform (by rw [names, names, hdef, huses, hlisted])
  · exact ext_form (i.form_map id) (by rw [names_map, List.map_id])
  · cases i <;> rfl
  · cases i <;> rfl
  · have herror {α : Type} (x : Except ε α) : (∃ e, x = .error e) ↔ ¬∃ a, x = .ok a := by
      cases x <;> simp
    simp only [herror, exists_tryMap, hnames, not_forall, exists_prop]
  · obtain ⟨j, hj⟩ := exists_tryMap.2 fun r hr => ⟨f r, hf r ((hnames r).1 hr)⟩
    have hmap := map_eq_of_tryMap hj
    rw [map_congr fun r hr => hf r ((hnames r).1 hr)] at hmap
    rw [hj, map_inj (fun _ _ => Except.ok.inj) ((i.map_map f _).trans hmap)]

end Sluice.Flow
