import Sluice.Proofs.Place.Colour
import Sluice.Proofs.Place.Reload

/-!
# Rounds of colouring

What every round keeps (`Round.Sound`): the function is accepted, its new registers
are temporaries, and a register that was spilled is a temporary or is not mentioned any
more. So what is spilled next was never spilled before, and a function with `n`
registers takes at most `n + 1` rounds (`exists_colourRounds`).
-/

namespace Sluice

open List
open Flow (Function Reg entry verify)

/-- **How far rounds of colouring have come from a function.** -/
structure Round.Sound (f : Function Reg) (s : Round) : Prop where
  verified : verify s.function = .ok ()
  name : s.function.name = f.name
  params : s.function.params = f.params
  length_le : f.registers.length ≤ s.function.registers.length
  temporary : ∀ r, f.registers.length ≤ r → r < s.function.registers.length → r ∈ s.temporaries
  spilled_lt : ∀ r ∈ s.spilled, r < f.registers.length
  gone : ∀ r ∈ s.spilled, r ∈ s.temporaries ∨ r ∉ f.params ∧ ¬s.function.Mentions r
  slot_lt : ∀ i ∈ s.function.instructions, ∀ k, i.slot? = some k → k < s.slots
  successors : ∀ l, s.function.successors l = f.successors l
  implements : (∀ l, entry ∉ f.successors l) → s.function.Implements f

namespace Round.Sound

variable {f : Function Reg} {s : Round} {count : Nat}

theorem start (hf : verify f = .ok ()) (hslots : ∀ i ∈ f.instructions, i.slot? = none) :
    Round.Sound f { function := f } where
  verified := hf
  name := rfl
  params := rfl
  length_le := Nat.le.refl
  temporary r hle hlt := absurd hlt (Nat.not_lt.2 hle)
  spilled_lt r h := absurd h IdSet.not_mem_empty
  gone r h := absurd h IdSet.not_mem_empty
  slot_lt i hi k hk := absurd (hslots i hi) (by simp [hk])
  successors _ := rfl
  implements _ := .refl

/-- **One register more is spilled.** -/
theorem spill (h : s.Sound f) (hr : r < f.registers.length) : (s.spill r).Sound f := by
  obtain ⟨hspills, htemp⟩ :=
    Flow.spills_spill (Nat.lt_of_lt_of_le hr h.length_le) s.slots s.temporaries
  have hwf := Flow.wellFormed_of_verify h.verified
  have hfresh : ∀ i ∈ s.function.instructions, i.slot? ≠ some s.slots :=
    fun i hi hk => Nat.lt_irrefl _ (h.slot_lt i hi _ hk)
  have hsucc : ∀ l, (s.spill r).function.successors l = s.function.successors l :=
    fun l => (Flow.successors_of_outline_eq (hspills.map_outline hwf) l).symm
  constructor
  · exact hspills.verify h.verified
  · exact hspills.name.trans h.name
  · exact hspills.params.trans h.params
  · exact Nat.le_trans h.length_le hspills.length_le
  · intro q hle hlt
    refine (htemp q).2 ?_
    rcases Nat.lt_or_ge q s.function.registers.length with hold | hnew
    · exact .inl (.inl (h.temporary q hle hold))
    · exact .inr ⟨hnew, hlt⟩
  · intro q hq
    rcases IdSet.mem_insert.1 hq with rfl | hq
    · exact hr
    · exact h.spilled_lt q hq
  · intro q hq
    have hlt : q < s.function.registers.length := by
      refine Nat.lt_of_lt_of_le ?_ h.length_le
      rcases IdSet.mem_insert.1 hq with rfl | hq
      · exact hr
      · exact h.spilled_lt q hq
    by_cases htemporary : q ∈ s.temporaries ∨ q = r ∧ r ∈ s.function.params
    · exact .inl ((htemp q).2 (.inl htemporary))
    · rw [not_or] at htemporary
      refine .inr ?_
      -- the register itself is not mentioned any more, and nothing else is mentioned anew
      have hold : q = r ∧ r ∉ f.params ∨ q ∉ f.params ∧ ¬s.function.Mentions q := by
        rcases IdSet.mem_insert.1 hq with rfl | hq
        · exact .inl ⟨rfl, fun hparam => htemporary.2 ⟨rfl, h.params ▸ hparam⟩⟩
        · exact .inr ((h.gone q hq).resolve_left htemporary.1)
      refine ⟨hold.elim (fun h => h.1 ▸ h.2) And.left, fun hmentions => ?_⟩
      rcases hspills.mentions hmentions with ⟨hle, -⟩ | hparam | ⟨hne, hmentions⟩
      · exact absurd hlt (Nat.not_lt.2 hle)
      · exact htemporary.2 hparam
      · exact hold.elim (fun h => hne h.1) fun h => h.2 hmentions
  · intro j hj k hk
    rcases hspills.slots hj hk with rfl | ⟨i, hi, hk⟩
    · exact Nat.lt_succ_self _
    · exact Nat.lt_succ_of_lt (h.slot_lt i hi k hk)
  · exact fun l => (hsucc l).trans (h.successors l)
  · intro hentry
    refine (Flow.implements_spills hspills hwf (fun l => ?_) hfresh).trans (h.implements hentry)
    rw [h.successors]
    exact hentry l

end Round.Sound

/-! ## From round to round -/

/-- The registers that a round spills. -/
def Round.pending (count : Nat) (s : Round) : List Reg :=
  (s.colour count).2.filter fun r => !s.temporaries.contains r

/-- The round after another one. -/
def Round.next (count : Nat) (s : Round) : Round :=
  (s.pending count).foldl .spill s

/-- What a round finds. -/
def Round.found (count rounds : Nat) (s : Round) : Found where
  function := s.function
  placement := placeColours (s.colour count).1 (s.colour count).2 s.slots
  rounds := rounds
  spilled := s.spilled
  slots := s.slots + (s.colour count).2.length

/-- The rounds of a function. -/
def roundAt (count : Nat) (f : Function Reg) : Nat → Round
  | 0 => { function := f }
  | n + 1 => (roundAt count f n).next count

section

variable {f : Function Reg} {s : Round} {count : Nat}

/-- **A round spills registers of the function as it came**, none of which was spilled before. -/
theorem Round.Sound.of_mem_pending (h : s.Sound f) (hr : r ∈ s.pending count) :
    r < f.registers.length ∧ r ∉ s.spilled := by
  obtain ⟨hleft, htemporary⟩ := mem_filter.1 hr
  obtain ⟨hlt, n, hn⟩ := holds_of_mem_roundColour hleft
  have hnew : r ∉ s.temporaries := fun hmem => by
    rw [IdSet.contains_eq_true.2 hmem] at htemporary
    cases htemporary
  refine ⟨Nat.lt_of_not_le fun hle => hnew (h.temporary r hle hlt), fun hspilled => ?_⟩
  obtain ⟨hparam, hmentions⟩ := (h.gone r hspilled).resolve_left hnew
  exact (Flow.mentions_of_holds hn).elim (fun hr => hparam (h.params ▸ hr)) hmentions

theorem mem_spilled_foldl {rs : List Reg} :
    ∀ {s : Round}, r ∈ (rs.foldl .spill s).spilled ↔ r ∈ s.spilled ∨ r ∈ rs := by
  induction rs with
  | nil => simp
  | cons q rs ih =>
    intro s
    rw [foldl_cons, ih]
    change r ∈ s.spilled.insert q ∨ r ∈ rs ↔ _
    rw [IdSet.mem_insert, mem_cons]
    tauto

theorem Round.Sound.foldl {rs : List Reg} (hrs : ∀ r ∈ rs, r < f.registers.length) :
    ∀ {s : Round}, s.Sound f → (rs.foldl .spill s).Sound f := by
  induction rs with
  | nil => exact fun h => h
  | cons r rs ih =>
    obtain ⟨hr, hrs⟩ := forall_mem_cons.1 hrs
    exact fun h => ih hrs (h.spill hr)

theorem Round.Sound.next (h : s.Sound f) : (s.next count).Sound f :=
  .foldl (fun _ hr => (h.of_mem_pending hr).1) h

/-- A round that spills something spills something new. -/
theorem Round.Sound.exists_spilled (h : s.Sound f) (hpending : s.pending count ≠ []) :
    ∃ r < f.registers.length, r ∉ s.spilled ∧ r ∈ (s.next count).spilled := by
  obtain ⟨r, hr⟩ := exists_mem_of_ne_nil _ hpending
  obtain ⟨hlt, hnew⟩ := h.of_mem_pending hr
  exact ⟨r, hlt, hnew, mem_spilled_foldl.2 (.inr hr)⟩

theorem Round.Sound.size_lt (h : s.Sound f) (hpending : s.pending count ≠ []) :
    s.spilled.size < (s.next count).spilled.size := by
  obtain ⟨r, -, hnew, hmem⟩ := h.exists_spilled hpending
  refine IdSet.size_lt_size (fun q hq => mem_spilled_foldl.2 (.inl hq)) fun heq => hnew ?_
  rwa [heq]

/-- A round finds places if it has nothing to spill, and otherwise another one follows. -/
theorem Round.Sound.colourRounds_succ (h : s.Sound f) (left round : Nat) :
    colourRounds count (left + 1) round s =
      if s.pending count = [] then .ok (s.found count round)
      else colourRounds count left (round + 1) (s.next count) := by
  have hclosed := (Flow.wellFormed_of_verify h.verified).checkClosed_eq_ok
  have hfilter : (s.colour count).2.filter (fun r => !s.temporaries.contains r) =
      s.pending count := rfl
  rw [colourRounds, requireClosed, hclosed]
  simp only [Except.mapError, bind, Except.bind, hfilter]
  cases hpending : s.pending count with
  | nil => rfl
  | cons r rs => rw [if_neg (cons_ne_nil r rs), Round.next, hpending]

theorem sound_roundAt (count : Nat) (hf : verify f = .ok ())
    (hslots : ∀ i ∈ f.instructions, i.slot? = none) : ∀ n, (roundAt count f n).Sound f
  | 0 => .start hf hslots
  | n + 1 => (sound_roundAt count hf hslots n).next

/-- **Rounds come to an end:** every one but the last spills something new. -/
theorem exists_colourRounds (count : Nat) (hf : verify f = .ok ())
    (hslots : ∀ i ∈ f.instructions, i.slot? = none) : ∀ (left n : Nat),
    f.registers.length < (roundAt count f n).spilled.size + left →
    ∃ last, n ≤ last ∧ last < n + left ∧
      (∀ k, n ≤ k → k < last → (roundAt count f k).pending count ≠ []) ∧
      colourRounds count left (n + 1) (roundAt count f n) =
        .ok ((roundAt count f last).found count (last + 1)) := by
  intro left
  induction left with
  | zero =>
    intro n hsize
    have hle := IdSet.size_le_of_lt (sound_roundAt count hf hslots n).spilled_lt
    omega
  | succ left ih =>
    intro n hsize
    have hsound := sound_roundAt count hf hslots n
    rw [hsound.colourRounds_succ]
    by_cases hpending : (roundAt count f n).pending count = []
    · rw [if_pos hpending]
      exact ⟨n, Nat.le_refl n, by omega, fun k hle hlt => by omega, rfl⟩
    · rw [if_neg hpending]
      have hgrows := hsound.size_lt hpending
      have hnext : (roundAt count f n).next count = roundAt count f (n + 1) := rfl
      rw [hnext] at hgrows ⊢
      obtain ⟨last, hle, hlt, hspills, hfound⟩ := ih (n + 1) (by omega)
      refine ⟨last, by omega, by omega, fun k hk hklast => ?_, hfound⟩
      rcases Nat.eq_or_lt_of_le hk with rfl | hk
      · exact hpending
      · exact hspills k hk hklast

end

end Sluice
