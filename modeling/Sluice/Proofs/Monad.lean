/-!
# Runs of stateful computations

How a successful run of a computation built from others splits into their runs.
-/

namespace Sluice

variable {ε σ α β : Type} {x : EStateM ε σ α} {f : α → EStateM ε σ β} {s s' : σ}
  {R : σ → σ → Prop}

/-- A sequence succeeds when both its parts do, one after the other. -/
theorem bind_eq_ok : (x >>= f) s = .ok b s' ↔ ∃ a s1, x s = .ok a s1 ∧ f a s1 = .ok b s' := by
  constructor
  · intro h
    simp only [bind, EStateM.bind] at h
    split at h
    · rename_i a s1 ha
      exact ⟨a, s1, ha, h⟩
    · cases h
  · rintro ⟨a, s1, ha, hf⟩
    simp only [bind, EStateM.bind, ha, hf]

theorem bind_ok (ha : x s = .ok a s1) (hf : f a s1 = .ok b s') : (x >>= f) s = .ok b s' :=
  bind_eq_ok.2 ⟨a, s1, ha, hf⟩

theorem pure_eq_ok : (pure a : EStateM ε σ α) s = .ok b s' ↔ a = b ∧ s = s' := by
  simp [pure, EStateM.pure]

theorem throw_ne_ok : (throw e : EStateM ε σ α) s ≠ .ok a s' := by
  rintro ⟨⟩

theorem get_eq_ok : (get : EStateM ε σ σ) s = .ok a s' ↔ a = s ∧ s' = s := by
  constructor
  · rintro ⟨⟩
    exact ⟨rfl, rfl⟩
  · rintro ⟨rfl, rfl⟩
    rfl

/-! ## Where a run ends -/

/-- The state that a run ends in, whether it succeeds or fails. -/
def finalState : EStateM.Result ε σ α → σ
  | .ok _ s | .error _ s => s

/-- Every run leads from its first state to one that is related to it. -/
def Leads (R : σ → σ → Prop) (x : EStateM ε σ α) : Prop :=
  ∀ s, R s (finalState (x s))

theorem Leads.pure (hrefl : ∀ s, R s s) (a : α) : Leads R (pure a : EStateM ε σ α) :=
  hrefl

theorem Leads.throw (hrefl : ∀ s, R s s) (e : ε) : Leads R (throw e : EStateM ε σ α) :=
  hrefl

/-- A sequence leads where its parts lead, one after the other. -/
theorem Leads.bind (htrans : ∀ {a b c}, R a b → R b c → R a c) (hx : Leads R x)
    (hf : ∀ a, Leads R (f a)) : Leads R (x >>= f) := by
  intro s
  have hs := hx s
  simp only [Bind.bind, EStateM.bind]
  cases hrun : x s with
  | ok a s1 =>
    rw [hrun] at hs
    exact htrans hs (hf a s1)
  | error e s1 =>
    rw [hrun] at hs
    exact hs

/-! ## Computations without state -/

section

variable {x : Except ε α}

theorem except_bind_eq_ok {f} : (x >>= f) = .ok b ↔ ∃ a, x = .ok a ∧ f a = .ok b := by
  cases x <;> simp [bind, Except.bind]

theorem except_map_eq_ok {f : α → β} {b} : (f <$> x) = .ok b ↔ ∃ a, x = .ok a ∧ f a = b := by
  cases x <;> simp [Functor.map, Except.map]

theorem except_pure_eq_ok : (pure a : Except ε α) = .ok b ↔ b = a := by
  simp [pure, Except.pure, eq_comm]

end

/-- **A function that can fail succeeds exactly where something holds**, and then gives what a total
function gives. -/
def Computes (f : α → Except ε β) (P : α → Prop) (φ : α → β) : Prop :=
  ∀ a b, f a = .ok b ↔ P a ∧ b = φ a

theorem Computes.mapM {f : α → Except ε β} {P φ} (h : Computes f P φ) :
    Computes (fun xs : List α => xs.mapM f) (fun xs => ∀ x ∈ xs, P x) (List.map φ) := by
  intro xs
  induction xs with
  | nil => simp [except_pure_eq_ok]
  | cons x xs ih =>
    intro ys
    simp only [List.mapM_cons, except_bind_eq_ok, except_pure_eq_ok, h x, ih, List.forall_mem_cons,
      List.map_cons, and_assoc, exists_and_left, exists_eq_left]

end Sluice
