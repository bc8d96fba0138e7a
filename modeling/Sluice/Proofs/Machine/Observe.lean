import Sluice.Proofs.Machine.Effect

/-!
# Runs as they are seen

What a run lets be seen, in the order in which it happens: calls, allocations and
stores, and also the stores to the stack that spill code makes. The state of a run
keeps events and spilled values in two lists, which says nothing about their order
among each other; here they are one sequence (`Shows`), and it is seen of a run that
never ends as well, piece by piece (`Passes`).

Two runs are in step if they take the same steps, apart from some that the first one
takes alone (`InStep`). Then each follows the other, and the same is seen of both.
A function implements another one if a call of it comes to whatever a call of the
other comes to (`Function.Implements`).
-/

namespace Sluice

open List

namespace Machine

open Flow (Slot)

/-- Something that is seen of a run. -/
inductive Sight where
  | event (e : Event)
  | spill (slot : Slot) (v : Value)
  deriving DecidableEq, Repr

/-- The event, if something that is seen is one. -/
def Sight.event? : Sight → Option Event
  | event e => some e
  | spill _ _ => none

/-- The spilled value, if something that is seen is one. -/
def Sight.spill? : Sight → Option (Slot × Value)
  | event _ => none
  | spill slot v => some (slot, v)

end Machine

namespace Flow

open Machine

variable {ρ σ : Type}

/-- What is seen of an instruction, given the values of registers. -/
def Instr.sights (read : ρ → Value) : Instr ρ → List Sight
  | call _ callee args => [.event (.call (callee.read read) (args.map (·.read read)))]
  | alloc _ shape _ => [.event (.alloc shape)]
  | store object index value => [.event (.store (read object) index (value.read read))]
  | spillStore slot src => [.spill slot (read src)]
  | _ => []

/-- What is seen depends on the registers that are read. -/
theorem Instr.sights_congr {read read'} (i : Instr ρ)
    (h : ∀ r ∈ i.uses, read r = read' r) : i.sights read = i.sights read' := by
  cases i with
  | call _ callee args =>
    obtain ⟨hc, ha⟩ := forall_mem_append.1 h
    simp only [sights, callee.read_congr hc, map_read_congr ha]
  | store object index value =>
    obtain ⟨ho, hv⟩ := forall_mem_cons.1 h
    simp only [sights, ho, value.read_congr hv]
  | spillStore slot src => simp only [sights, h src mem_cons_self]
  | _ => rfl

theorem Instr.sights_map (f : ρ → σ) {read} (i : Instr ρ) :
    (i.map f).sights read = i.sights (read ∘ f) := by
  cases i <;> simp only [map, sights, Operand.read_map, Callee.read_map, map_read_map,
    Function.comp_apply]

variable [Cell ρ] [Cell σ] {calls : Calls} {is is' : List (Instr ρ)} {f : Function ρ}
  {seen : List Sight} {e : Ending} {args : List Value} {t : State} {w : World} {i : Instr ρ}
  {b : Block ρ}

/-! ## Runs step by step -/

/-- **A run gets from one place to another**, and what is seen on the way. -/
inductive Passes (calls : Calls) (f : Function ρ) :
    List (Instr ρ) → State → List Sight → List (Instr ρ) → State → Prop
  | here {is s} : Passes calls f is s [] is s
  /-- An instruction, and then the ones after it. -/
  | next {i rest is s s1 t seen} :
    i.step calls s = .next s1 → Passes calls f rest s1 seen is t →
      Passes calls f (i :: rest) s (i.sights s.get ++ seen) is t
  /-- Control goes on in another block. -/
  | goto {i rest is s s1 t seen l b} :
    i.step calls s = .goto l s1 → f.blocks[l]? = some b → Passes calls f b.instrs s1 seen is t →
      Passes calls f (i :: rest) s (i.sights s.get ++ seen) is t

/-- **A run ends**, and what is seen of it until then. -/
def Shows (calls : Calls) (f : Function ρ) (is : List (Instr ρ)) (s : State) (seen : List Sight)
    (e : Ending) (t : State) : Prop :=
  ∃ before i rest s1, Passes calls f is s before (i :: rest) s1 ∧
    i.step calls s1 = .halt e t ∧ seen = before ++ i.sights s1.get

/-- **What is seen of a call of a function that comes to an end**, given what the memory holds when
it is called. -/
def Function.Shows (calls : Calls) (f : Function ρ) (m : Memory) (args : List Value) (w : World)
    (seen : List Sight) (e : Ending) (w' : World) : Prop :=
  ∃ b t, f.blocks[entry]? = some b ∧
    Flow.Shows calls f b.instrs { memory := f.arrive m args, world := w } seen e t ∧ t.world = w'

/-- Something is seen of a call of a function in some number of steps. -/
def Function.Begins (calls : Calls) (f : Function ρ) (m : Memory) (args : List Value) (w : World)
    (seen : List Sight) : Prop :=
  ∃ b is t, f.blocks[entry]? = some b ∧
    Passes calls f b.instrs { memory := f.arrive m args, world := w } seen is t

theorem Passes.trans (h : Passes calls f is s seen is1 s1)
    (h' : Passes calls f is1 s1 seen' is2 s2) : Passes calls f is s (seen ++ seen') is2 s2 := by
  induction h with
  | here => exact h'
  | next hi _ ih =>
    rw [append_assoc]
    exact .next hi (ih h')
  | goto hi hb _ ih =>
    rw [append_assoc]
    exact .goto hi hb (ih h')

theorem Passes.single (h : i.step calls s = .next s1) :
    Passes calls f (i :: is) s (i.sights s.get) is s1 := by
  have hpasses := next h (.here : Passes calls f is s1 [] is s1)
  rwa [append_nil] at hpasses

theorem Passes.single_goto (h : i.step calls s = .goto l s1)
    (hb : f.blocks[l]? = some b) : Passes calls f (i :: is) s (i.sights s.get) b.instrs s1 := by
  have hpasses : Passes calls f (i :: is) s (i.sights s.get ++ []) b.instrs s1 := .goto h hb .here
  rwa [append_nil] at hpasses

theorem Passes.shows (h : Passes calls f is s seen is1 s1)
    (h' : Shows calls f is1 s1 seen' e t) : Shows calls f is s (seen ++ seen') e t := by
  obtain ⟨before, i, rest, s2, hpasses, hi, rfl⟩ := h'
  exact ⟨seen ++ before, i, rest, s2, h.trans hpasses, hi, (append_assoc ..).symm⟩

theorem Shows.single (h : i.step calls s = .halt e t) :
    Shows calls f (i :: is) s (i.sights s.get) e t :=
  ⟨[], i, is, s, .here, h, rfl⟩

/-! ## What is seen and what is recorded -/

/-- A step records what is seen of it: events in the world, spilled values in the state. -/
theorem Instr.records (calls : Calls) (s t : State) (i : Instr ρ)
    (h : i.step calls s = .next t ∨ (∃ l, i.step calls s = .goto l t) ∨
      ∃ e, i.step calls s = .halt e t) :
    t.world.trace = ((i.sights s.get).filterMap Sight.event?).reverse ++ s.world.trace ∧
      t.spills = ((i.sights s.get).filterMap Sight.spill?).reverse ++ s.spills := by
  cases i with
  | binary op dst lhs rhs =>
    simp only [step] at h
    split at h <;> simp only [reduceCtorEq, Step.next.injEq, Step.halt.injEq, exists_false,
      false_or, or_false, exists_and_right, exists_eq', true_and] at h <;>
      subst h <;> exact ⟨rfl, rfl⟩
  | call dst callee args =>
    simp only [step, World.call, Callee.value_eq, Operand.value_eq] at h
    split at h <;> rename_i hcall <;> split at hcall <;> cases hcall <;>
      simp only [reduceCtorEq, Step.next.injEq, Step.halt.injEq, exists_false, false_or, or_false,
        exists_and_right, exists_eq', true_and] at h <;>
      subst h <;> exact ⟨rfl, rfl⟩
  | store object index value =>
    simp only [step, Operand.value_eq, reduceCtorEq, Step.next.injEq, exists_false, or_false] at h
    subst h
    exact ⟨rfl, rfl⟩
  | _ =>
    simp only [step, reduceCtorEq, Step.next.injEq, Step.goto.injEq, Step.halt.injEq, exists_false,
      false_or, or_false, exists_and_right, exists_eq', true_and] at h
    subst h
    exact ⟨rfl, rfl⟩

/-- **What is seen of a run is what it records**, events and spilled values each in their order. -/
theorem Passes.records (h : Passes calls f is s seen is' t) :
    t.world.trace = (seen.filterMap Sight.event?).reverse ++ s.world.trace ∧
      t.spills = (seen.filterMap Sight.spill?).reverse ++ s.spills := by
  induction h with
  | here => exact ⟨rfl, rfl⟩
  | next hi _ ih =>
    obtain ⟨htrace, hspills⟩ := Instr.records calls _ _ _ (.inl hi)
    simp only [ih, htrace, hspills, filterMap_append, reverse_append, append_assoc, and_self]
  | goto hi _ _ ih =>
    obtain ⟨htrace, hspills⟩ := Instr.records calls _ _ _ (.inr (.inl ⟨_, hi⟩))
    simp only [ih, htrace, hspills, filterMap_append, reverse_append, append_assoc, and_self]

/-! ## Steps that do the same -/

section

omit [Cell ρ] [Cell σ]

/-- Two steps that do the same and lead to related places. -/
inductive Alike (R : List (Instr ρ) → State → List (Instr σ) → State → Prop) (f : Function ρ)
    (g : Function σ) (is : List (Instr ρ)) (js : List (Instr σ)) : Step → Step → Prop
  | next {s t} : R is s js t → Alike R f g is js (.next s) (.next t)
  | goto {l b c s t} :
    f.blocks[l]? = some b →
      g.blocks[l]? = some c → R b.instrs s c.instrs t → Alike R f g is js (.goto l s) (.goto l t)
  | halt {e s t} : t.world = s.world → Alike R f g is js (.halt e s) (.halt e t)

namespace Alike

variable {R : List (Instr ρ) → State → List (Instr σ) → State → Prop} {f : Function ρ}
  {g : Function σ} {is : List (Instr ρ)} {js : List (Instr σ)} {x y : Step} {s : State}

theorem symm (h : Alike R f g is js x y) : Alike (fun js t is s => R is s js t) g f js is y x := by
  cases h with
  | next hrel => exact .next hrel
  | goto hb hc hrel => exact .goto hc hb hrel
  | halt hw => exact .halt hw.symm

theorem of_next (h : Alike R f g is js (.next s) y) : ∃ t, y = .next t ∧ R is s js t := by
  cases h with
  | next hrel => exact ⟨_, rfl, hrel⟩

theorem of_goto (h : Alike R f g is js (.goto l s) y) (hb : f.blocks[l]? = some b) :
    ∃ c t, y = .goto l t ∧ g.blocks[l]? = some c ∧ R b.instrs s c.instrs t := by
  cases h with
  | goto hb' hc hrel =>
    rw [hb] at hb'
    cases hb'
    exact ⟨_, _, rfl, hc, hrel⟩

theorem of_halt (h : Alike R f g is js (.halt e s) y) : ∃ t, y = .halt e t ∧ t.world = s.world := by
  cases h with
  | halt hw => exact ⟨_, rfl, hw⟩

/-- Steps with the same effect do the same, if each kind of effect leads to related places. -/
theorem of_effect {effect : Effect} (hwrite : ∀ v w, effect = .write v w →
      R is { s with memory := d.elim s.memory (Function.update s.memory · v), world := w } js
        { t with memory := d'.elim t.memory (Function.update t.memory · v), world := w })
    (hchange : ∀ w, effect = .change w → R is { s with world := w } js { t with world := w })
    (hspill : ∀ slot v, effect = .spill slot v → R is { s with
          memory := Function.update s.memory (.stack slot) v
          spills := (slot, v) :: s.spills } js
        { t with
          memory := Function.update t.memory (.stack slot) v
          spills := (slot, v) :: t.spills })
    (hgoto : ∀ l, effect = .goto l → ∃ b c, f.blocks[l]? = some b ∧ g.blocks[l]? = some c ∧
      R b.instrs s c.instrs t) : Alike R f g is js (effect.apply s d) (effect.apply t d') := by
  cases effect with
  | write v w => exact .next (hwrite v w rfl)
  | change w => exact .next (hchange w rfl)
  | spill slot v => exact .next (hspill slot v rfl)
  | goto l =>
    obtain ⟨b, c, hb, hc, hrel⟩ := hgoto l rfl
    exact .goto hb hc hrel
  | halt e w => exact .halt rfl

end Alike

end

/-! ## The end of a run -/

theorem Passes.leads (h : Passes calls f is s seen is' t) : Leads calls f is s is' t := by
  induction h with
  | here => exact fun _ _ h => h
  | next hi _ ih => exact fun e t ht => .next hi (ih e t ht)
  | goto hi hb _ ih => exact fun e t ht => .goto hi hb (ih e t ht)

theorem Runs.exists_shows (h : Runs calls f is s e t) : ∃ seen, Shows calls f is s seen e t := by
  induction h with
  | next hi _ ih =>
    obtain ⟨seen, hshows⟩ := ih
    exact ⟨_, (Passes.single hi).shows hshows⟩
  | goto hi hb _ ih =>
    obtain ⟨seen, hshows⟩ := ih
    exact ⟨_, (Passes.single_goto hi hb).shows hshows⟩
  | halt hi => exact ⟨_, .single hi⟩

/-- A call comes to an end if and only if something is seen of it until then. -/
theorem Function.yields_iff :
    f.Yields calls m args w e w' ↔ ∃ seen, f.Shows calls m args w seen e w' := by
  constructor
  · rintro ⟨b, t, hb, hruns, hw⟩
    obtain ⟨seen, hshows⟩ := hruns.exists_shows
    exact ⟨seen, b, t, hb, hshows, hw⟩
  · rintro ⟨_, b, t, hb, ⟨_, _, _, _, hpasses, hi, -⟩, hw⟩
    exact ⟨b, t, hb, hpasses.leads _ _ (.halt hi), hw⟩

/-- **A function implements another one** if a call of it, whatever the memory holds, comes to what
a call of the other comes to. The caller of the new function leaves anything in the memory, and it
is enough that the old one comes to the same end for some memory. -/
def Function.Implements (g : Function σ) (f : Function ρ) : Prop :=
  g.params.length = f.params.length ∧
    ∀ (calls : Calls) (args : List Value) (w : World) (m : Memory),
      args.length = f.params.length →
      ∃ m', ∀ e w', f.Yields calls m' args w e w' → g.Yields calls m args w e w'

namespace Function.Implements

theorem refl : f.Implements f :=
  ⟨rfl, fun _ _ _ m _ => ⟨m, fun _ _ h => h⟩⟩

theorem trans [Cell τ] {g : Function σ} {h : Function τ} (hg : h.Implements g)
    (hf : g.Implements f) : h.Implements f := by
  refine ⟨hg.1.trans hf.1, fun calls args w m hlen => ?_⟩
  obtain ⟨m1, h1⟩ := hg.2 calls args w m (hlen.trans hf.1.symm)
  obtain ⟨m2, h2⟩ := hf.2 calls args w m1 hlen
  exact ⟨m2, fun e w' h => h1 e w' (h2 e w' h)⟩

end Function.Implements

/-- **Of two calls the same is seen**, as far as `view` tells, whether they end or not. -/
def SeenAlike {β : Type} (view : Sight → Option β) (calls : Calls) (args : List Value) (w : World)
    (f : Function ρ) (m : Memory) (g : Function σ) (m' : Memory) : Prop :=
  (∀ seen, (∃ all, f.Begins calls m args w all ∧ all.filterMap view = seen) ↔
    ∃ all, g.Begins calls m' args w all ∧ all.filterMap view = seen) ∧
  ∀ seen e w', (∃ all, f.Shows calls m args w all e w' ∧ all.filterMap view = seen) ↔
    ∃ all, g.Shows calls m' args w all e w' ∧ all.filterMap view = seen

theorem SeenAlike.symm {view : Sight → Option β} {g : Function σ}
    (h : SeenAlike view calls args w f m g m') : SeenAlike view calls args w g m' f m :=
  ⟨fun seen => (h.1 seen).symm, fun seen e w' => (h.2 seen e w').symm⟩

theorem SeenAlike.yields_iff {view : Sight → Option β} {g : Function σ}
    (h : SeenAlike view calls args w f m g m') :
    f.Yields calls m args w e w' ↔ g.Yields calls m' args w e w' := by
  simp only [Function.yields_iff]
  constructor
  · rintro ⟨seen, hshows⟩
    obtain ⟨all, hall, -⟩ := (h.2 _ e w').1 ⟨seen, hshows, rfl⟩
    exact ⟨all, hall⟩
  · rintro ⟨seen, hshows⟩
    obtain ⟨all, hall, -⟩ := (h.2 _ e w').2 ⟨seen, hshows, rfl⟩
    exact ⟨all, hall⟩

/-! ## Runs in step -/

/-- **Two runs are in step**, apart from steps that the first one takes alone: nothing is seen of
these, and the same is seen of the steps that both take, as far as `view` tells. -/
structure InStep {β : Type} (view : Sight → Option β) (calls : Calls) (f : Function ρ)
    (g : Function σ) (R : List (Instr ρ) → State → List (Instr σ) → State → Prop) : Prop where
  nil : ∀ {s js t}, R [] s js t → js = []
  cons : ∀ {i is s js t}, R (i :: is) s js t →
    (∃ s1, i.step calls s = .next s1 ∧ (i.sights s.get).filterMap view = [] ∧ R is s1 js t) ∨
    ∃ j js1, js = j :: js1 ∧
      (j.sights t.get).filterMap view = (i.sights s.get).filterMap view ∧
      Alike R f g is js1 (i.step calls s) (j.step calls t)

namespace InStep

variable {β : Type} {view : Sight → Option β} {g : Function σ} {js js' : List (Instr σ)}
  {R : List (Instr ρ) → State → List (Instr σ) → State → Prop} {s s' : State} {j : Instr σ}

/-- The second run follows the first one. -/
theorem passes (h : InStep view calls f g R) (hpasses : Passes calls f is s seen is' s') :
    ∀ {js t}, R is s js t → ∃ all js' t', Passes calls g js t all js' t' ∧
      all.filterMap view = seen.filterMap view ∧ R is' s' js' t' := by
  induction hpasses with
  | here => exact fun hrel => ⟨_, _, _, .here, rfl, hrel⟩
  | next hi _ ih =>
    intro js t hrel
    obtain ⟨s2, hi', hnone, hrel⟩ | ⟨j, js1, rfl, hsame, halike⟩ := h.cons hrel
    · -- the first run takes the step alone, and the other one waits
      cases hi.symm.trans hi'
      obtain ⟨all, js', t', hpasses', hseen, hrel⟩ := ih hrel
      exact ⟨all, js', t', hpasses', by rw [filterMap_append, hnone, hseen, nil_append], hrel⟩
    · obtain ⟨t1, hj, hrel⟩ := (hi ▸ halike).of_next
      obtain ⟨all, js', t', hpasses', hseen, hrel⟩ := ih hrel
      exact ⟨_, js', t', .next hj hpasses', by simp only [filterMap_append, hsame, hseen], hrel⟩
  | goto hi hb _ ih =>
    intro js t hrel
    obtain ⟨s2, hi', -⟩ | ⟨j, js1, rfl, hsame, halike⟩ := h.cons hrel
    · cases hi.symm.trans hi'
    · obtain ⟨c, t1, hj, hc, hrel⟩ := (hi ▸ halike).of_goto hb
      obtain ⟨all, js', t', hpasses', hseen, hrel⟩ := ih hrel
      exact ⟨_, js', t', .goto hj hc hpasses', by simp only [filterMap_append, hsame, hseen], hrel⟩

/-- The first run gets on by itself until it does the same as the second one. -/
theorem catchUp (h : InStep view calls f g R) : ∀ {is s}, R is s (j :: js) t →
    ∃ own i is1 s1, Passes calls f is s own (i :: is1) s1 ∧ own.filterMap view = [] ∧
      (j.sights t.get).filterMap view = (i.sights s1.get).filterMap view ∧
      Alike R f g is1 js (i.step calls s1) (j.step calls t)
  | [], _, hrel => nomatch h.nil hrel
  | i :: is, s, hrel => by
    obtain ⟨s1, hi, hnone, hrel⟩ | ⟨_, _, heq, hsame, halike⟩ := h.cons hrel
    · obtain ⟨own, i', is1, s2, hpasses, hown, hrest⟩ := h.catchUp hrel
      exact ⟨_, i', is1, s2, .next hi hpasses, by rw [filterMap_append, hnone, hown]; rfl, hrest⟩
    · cases heq
      exact ⟨[], i, is, s, .here, rfl, hsame, halike⟩

/-- The first run follows the second one. -/
theorem passes_back (h : InStep view calls f g R) (hpasses : Passes calls g js t seen js' t') :
    ∀ {is s}, R is s js t → ∃ all is' s', Passes calls f is s all is' s' ∧
      all.filterMap view = seen.filterMap view ∧ R is' s' js' t' := by
  induction hpasses with
  | here => exact fun hrel => ⟨_, _, _, .here, rfl, hrel⟩
  | next hj _ ih =>
    intro is s hrel
    obtain ⟨own, i, is1, s1, hpasses, hown, hsame, halike⟩ := h.catchUp hrel
    obtain ⟨s2, hi, hrel⟩ := (hj ▸ halike.symm).of_next
    obtain ⟨all, is', s', hpasses', hseen, hrel⟩ := ih hrel
    refine ⟨_, is', s', hpasses.trans (.next hi hpasses'), ?_, hrel⟩
    simp only [filterMap_append, hown, hsame, hseen, nil_append]
  | goto hj hc _ ih =>
    intro is s hrel
    obtain ⟨own, i, is1, s1, hpasses, hown, hsame, halike⟩ := h.catchUp hrel
    obtain ⟨b, s2, hi, hb, hrel⟩ := (hj ▸ halike.symm).of_goto hc
    obtain ⟨all, is', s', hpasses', hseen, hrel⟩ := ih hrel
    refine ⟨_, is', s', hpasses.trans (.goto hi hb hpasses'), ?_, hrel⟩
    simp only [filterMap_append, hown, hsame, hseen, nil_append]

/-- A run that follows one that ends comes to the same end. -/
theorem shows (h : InStep view calls f g R) (hrel : R is s js t)
    (hshows : Shows calls f is s seen e s') : ∃ all t', Shows calls g js t all e t' ∧
      all.filterMap view = seen.filterMap view ∧ t'.world = s'.world := by
  obtain ⟨before, i, rest, s1, hpasses, hi, rfl⟩ := hshows
  obtain ⟨all, js1, t1, hpasses', hseen, hrel⟩ := h.passes hpasses hrel
  obtain ⟨s2, hi', -⟩ | ⟨j, js2, rfl, hsame, halike⟩ := h.cons hrel
  · cases hi.symm.trans hi'
  · obtain ⟨t', hj, hw⟩ := (hi ▸ halike).of_halt
    refine ⟨_, t', ⟨all, j, js2, t1, hpasses', hj, rfl⟩, ?_, hw⟩
    simp only [filterMap_append, hsame, hseen]

theorem shows_back (h : InStep view calls f g R) (hrel : R is s js t)
    (hshows : Shows calls g js t seen e t') : ∃ all s', Shows calls f is s all e s' ∧
      all.filterMap view = seen.filterMap view ∧ s'.world = t'.world := by
  obtain ⟨before, j, rest, t1, hpasses, hj, rfl⟩ := hshows
  obtain ⟨all, is1, s1, hpasses', hseen, hrel⟩ := h.passes_back hpasses hrel
  obtain ⟨own, i, is2, s2, hpasses2, hown, hsame, halike⟩ := h.catchUp hrel
  obtain ⟨s', hi, hw⟩ := (hj ▸ halike.symm).of_halt
  refine ⟨_, s', ⟨_, i, is2, s2, hpasses'.trans hpasses2, hi, rfl⟩, ?_, hw⟩
  simp only [filterMap_append, hown, hsame, hseen, append_nil]

section Calls

variable {m m' : Memory} {c : Block σ} (hb : f.blocks[entry]? = some b)
  (hc : g.blocks[entry]? = some c)
  (hrel : R b.instrs { memory := f.arrive m args, world := w } c.instrs
    { memory := g.arrive m' args, world := w })
include hb hc hrel

/-- **Of calls that are in step from the entry on the same is seen.** -/
theorem seenAlike (h : InStep view calls f g R) : SeenAlike view calls args w f m g m' := by
  refine ⟨fun seen => ⟨?_, ?_⟩, fun seen e w' => ⟨?_, ?_⟩⟩
  · rintro ⟨all, ⟨b', is, s, hb', hpasses⟩, rfl⟩
    cases hb.symm.trans hb'
    obtain ⟨all', js, t, hpasses', hseen, -⟩ := h.passes hpasses hrel
    exact ⟨all', ⟨c, js, t, hc, hpasses'⟩, hseen⟩
  · rintro ⟨all, ⟨c', js, t, hc', hpasses⟩, rfl⟩
    cases hc.symm.trans hc'
    obtain ⟨all', is, s, hpasses', hseen, -⟩ := h.passes_back hpasses hrel
    exact ⟨all', ⟨b, is, s, hb, hpasses'⟩, hseen⟩
  · rintro ⟨all, ⟨b', s, hb', hshows, rfl⟩, rfl⟩
    cases hb.symm.trans hb'
    obtain ⟨all', t, hshows', hseen, hw⟩ := h.shows hrel hshows
    exact ⟨all', ⟨c, t, hc, hshows', hw⟩, hseen⟩
  · rintro ⟨all, ⟨c', t, hc', hshows, rfl⟩, rfl⟩
    cases hc.symm.trans hc'
    obtain ⟨all', s, hshows', hseen, hw⟩ := h.shows_back hrel hshows
    exact ⟨all', ⟨b, s, hb, hshows', hw⟩, hseen⟩

theorem function_iff (h : InStep some calls f g R) :
    (∀ seen, f.Begins calls m args w seen ↔ g.Begins calls m' args w seen) ∧
      ∀ seen e w', f.Shows calls m args w seen e w' ↔ g.Shows calls m' args w seen e w' := by
  simpa [SeenAlike] using h.seenAlike hb hc hrel

end Calls

end InStep

end Flow

end Sluice
