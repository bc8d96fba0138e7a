import Sluice.Proofs.Live.Listed
import Sluice.Proofs.Place.Rounds

/-!
# Allocation always succeeds

Both ways to find places end with places that fit (`exists_find`), so they pass the check
and every register of the result has a place (`allocate_inOrder`). Slots of registers
are told apart from slots of spill code, so the function in its places implements the
function as it came (`implements_resolve`).
-/

namespace Sluice

open Flow (Function Reg entry verify placeOf)

/-- **Places that were found for a function**, on a machine with some registers. -/
structure Found.Sound (f : Function Reg) (count : Nat) (found : Found) : Prop where
  verified : verify found.function = .ok ()
  name : found.function.name = f.name
  params : found.function.params = f.params
  length_le : f.registers.length ≤ found.function.registers.length
  fits : found.placement.Fits found.function count
  tidy : found.placement.Tidy count found.slots
  apart : ∀ r n, found.placement.get? r = some (.stack n) →
    ∀ i ∈ found.function.instructions, i.slot? ≠ some n
  slot_lt : ∀ i ∈ found.function.instructions, ∀ n, i.slot? = some n → n < found.slots
  spilled_lt : ∀ r ∈ found.spilled, r < f.registers.length
  implements : (∀ l, entry ∉ f.successors l) → found.function.Implements f

variable {f : Function Reg} {count : Nat} {found : Found} {way : Strategy}

theorem find_linearScan (hf : f.WellFormed) :
    find .linearScan count f = .ok (findByScan count f) := by
  rw [find, requireClosed, hf.checkClosed_eq_ok]
  rfl

theorem sound_findByScan (count : Nat) (hf : verify f = .ok ())
    (hslots : ∀ i ∈ f.instructions, i.slot? = none) : (findByScan count f).Sound f count where
  verified := hf
  name := rfl
  params := rfl
  length_le := Nat.le.refl
  fits := fits_scan count f
  tidy := tidy_scan count f
  apart _ _ _ i hi hk := absurd (hslots i hi) (by simp [hk])
  slot_lt i hi k hk := absurd (hslots i hi) (by simp [hk])
  spilled_lt _ hr := lt_of_mem_spilled_scan hr
  implements _ := .refl

theorem Round.Sound.sound_found {s : Round} (h : s.Sound f) (count rounds : Nat) :
    (s.found count rounds).Sound f count where
  verified := h.verified
  name := h.name
  params := h.params
  length_le := h.length_le
  fits := fits_roundColour
  tidy := tidy_roundColour count s.slots s
  apart r n hr i hi hk := by
    have hle := slots_le_of_get?_placeColours proper_roundColour
      (indexed_intervals _).nodup_nodes hr
    exact absurd (h.slot_lt i hi n hk) (Nat.not_lt.2 hle)
  slot_lt i hi k hk := Nat.lt_of_lt_of_le (h.slot_lt i hi k hk) (Nat.le_add_right _ _)
  spilled_lt := h.spilled_lt
  implements := h.implements

/-- **How colouring ends:** with what one of the rounds found, after rounds that all spilled
something new. -/
theorem exists_findByColouring (count : Nat) (hf : verify f = .ok ())
    (hslots : ∀ i ∈ f.instructions, i.slot? = none) :
    ∃ last ≤ f.registers.length,
      findByColouring count f = .ok ((roundAt count f last).found count (last + 1)) ∧
      ∀ n < last, ∃ r < f.registers.length,
        r ∉ (roundAt count f n).spilled ∧ r ∈ (roundAt count f (n + 1)).spilled := by
  obtain ⟨last, -, hlast, hpending, hfound⟩ :=
    exists_colourRounds count hf hslots (f.registers.length + 1) 0 (by omega)
  refine ⟨last, by omega, hfound, fun n hn => ?_⟩
  exact (sound_roundAt count hf hslots n).exists_spilled (hpending n (Nat.zero_le n) hn)

/-- **Both ways find places.** -/
theorem exists_find (way : Strategy) (count : Nat) (hf : verify f = .ok ())
    (hslots : ∀ i ∈ f.instructions, i.slot? = none) :
    ∃ found, find way count f = .ok found ∧ found.Sound f count := by
  cases way with
  | linearScan =>
    exact ⟨_, find_linearScan (Flow.wellFormed_of_verify hf), sound_findByScan count hf hslots⟩
  | graphColouring =>
    obtain ⟨last, -, hfound, -⟩ := exists_findByColouring count hf hslots
    exact ⟨_, hfound, (sound_roundAt count hf hslots last).sound_found count _⟩

/-! ## What is given out -/

/-- What is given out of what was found. -/
def Found.placed (found : Found) (way : Strategy) : Placed where
  function := found.function.withLive
  placement := found.placement
  strategy := way
  rounds := found.rounds
  spilled := found.spilled
  slots := found.slots

namespace Found.Sound

variable (h : found.Sound f count)
include h

theorem wellFormed : found.function.WellFormed :=
  Flow.wellFormed_of_verify h.verified

/-- The places fit whatever allocations list. -/
theorem fits_withLive : found.placement.Fits found.function.withLive count := by
  have hholds : ∀ {r n}, found.function.withLive.Holds r n ↔ found.function.Holds r n :=
    (Flow.recast_withLive found.function).listed_holds h.wellFormed
  constructor
  · exact fun r hr n hn => h.fits.placed r hr n (hholds.1 hn)
  · intro r hr q hq hne n hrn hqn
    exact h.fits.apart r hr q hq hne n (hholds.1 hrn) (hholds.1 hqn)

/-- **What was found passes the check.** -/
theorem allocate (hcount : 0 < count)
    (hfind : find way count f = .ok found) : Sluice.allocate way count f = .ok (found.placed way) := by
  have hvalid : validate found.function.withLive found.placement count = .ok () :=
    (validate_eq_ok (Flow.wellFormed_withLive h.wellFormed)).2 h.fits_withLive
  rw [Sluice.allocate, if_neg (Nat.pos_iff_ne_zero.1 hcount), hfind]
  change (validate found.function.withLive found.placement count >>= fun _ => _) = _
  rw [hvalid]
  rfl

/-- A register of the result has a place. -/
theorem isSome_of_holds (hparams : ∀ r ∈ f.params, r < f.registers.length)
    (hn : found.function.Holds r n) : (found.placement.get? r).isSome := by
  have hlt : r < found.function.registers.length := by
    rcases Flow.mentions_of_holds hn with hr | hr
    · exact Nat.lt_of_lt_of_le (hparams r (h.params ▸ hr)) h.length_le
    · exact h.wellFormed.lt_of_mentions hr
  obtain ⟨l, hl, -⟩ := h.fits.placed r hlt n hn
  rw [hl]
  rfl

theorem resolve (hparams : ∀ r ∈ f.params, r < f.registers.length) :
    (found.placed way).resolve = .ok (found.function.withLive.map (placeOf found.placement)) := by
  refine Flow.resolve_eq_ok.2 ⟨⟨fun r hr => ?_, fun c hc i hi r hr => ?_⟩, rfl⟩
  · have hr : r ∈ found.function.params := hr
    exact h.isSome_of_holds hparams (Flow.holds_zero_of_mem_params hr)
  · obtain ⟨n, hn⟩ := Flow.holds_of_names h.wellFormed hc hi hr
    exact h.isSome_of_holds hparams hn

end Found.Sound

/-- **The function in its places implements the function**, if control comes to its entry only
once. -/
theorem implements_resolve (way : Strategy) (hcount : 0 < count) (hf : verify f = .ok ())
    (hparams : ∀ r ∈ f.params, r < f.registers.length)
    (hslots : ∀ i ∈ f.instructions, i.slot? = none) (hentry : ∀ l, entry ∉ f.successors l) :
    ∃ p g, allocate way count f = .ok p ∧ p.function.name = f.name ∧ p.resolve = .ok g ∧
      g.Implements f := by
  obtain ⟨found, hfind, h⟩ := exists_find way count hf hslots
  refine ⟨found.placed way, _, h.allocate hcount hfind, h.name, h.resolve hparams, ?_⟩
  have hlive := Flow.implements_withLive h.wellFormed
  have hseparates : found.function.withLive.Separates (placeOf found.placement) := by
    refine Flow.separates_of_fits h.fits_withLive fun r n hr i hi hn => ?_
    obtain ⟨j, hj, hn⟩ := Flow.exists_slot_of_withLive hi hn
    exact h.apart r n hr j hj hn
  -- places after listing, listing after spilling, and spill code after the function itself
  refine (Flow.implements_map (Flow.wellFormed_withLive h.wellFormed) ?_ hseparates).trans
    (hlive.trans (h.implements hentry))
  intro r hr
  have hr : r ∈ found.function.params := hr
  exact Nat.lt_of_lt_of_le (hparams r (h.params ▸ hr)) h.length_le

/-- **An allocation in order** for a function on a machine with some registers. -/
structure Placed.InOrder (way : Strategy) (count : Nat) (f : Function Reg) (p : Placed) : Prop where
  rounds_le : p.rounds ≤ f.registers.length + 1
  /-- Every round but the last spills a register of the function that was never spilled before. -/
  round_spills : ∀ n, n + 1 < p.rounds → ∃ r < f.registers.length,
    r ∉ (roundAt count f n).spilled ∧ r ∈ (roundAt count f (n + 1)).spilled
  /-- What is given out is what the last round came to. -/
  last_round : way = .graphColouring → ∃ last, p.rounds = last + 1 ∧
    p.function = (roundAt count f last).function.withLive ∧
      p.spilled = (roundAt count f last).spilled
  spilled_lt : ∀ r ∈ p.spilled, r < f.registers.length
  verified : verify p.function = .ok ()
  resolves : ∃ g, p.resolve = .ok g
  /-- Places stay within the machine and the slots, and no two registers have one slot. -/
  tidy : p.placement.Tidy count p.slots
  /-- No slot of a register is used by spill code. -/
  slot_apart : ∀ r n, p.placement.get? r = some (.stack n) →
    ∀ i ∈ p.function.instructions, i.slot? ≠ some n
  slot_lt : ∀ i ∈ p.function.instructions, ∀ n, i.slot? = some n → n < p.slots
  /-- Linear scan changes nothing but what allocations list. -/
  scan_dropLive : way = .linearScan → p.function.dropLive = f.dropLive

theorem Found.Sound.inOrder (h : found.Sound f count)
    (hparams : ∀ r ∈ f.params, r < f.registers.length)
    (hrounds : found.rounds ≤ f.registers.length + 1)
    (hspills : ∀ n, n + 1 < found.rounds → ∃ r < f.registers.length,
      r ∉ (roundAt count f n).spilled ∧ r ∈ (roundAt count f (n + 1)).spilled)
    (hlast : way = .graphColouring → ∃ last, found = (roundAt count f last).found count (last + 1))
    (hscan : way = .linearScan → found.function = f) :
    (found.placed way).InOrder way count f where
  rounds_le := hrounds
  round_spills := hspills
  last_round hway := by
    obtain ⟨last, rfl⟩ := hlast hway
    exact ⟨last, rfl, rfl, rfl⟩
  spilled_lt := h.spilled_lt
  verified := Flow.verify_withLive h.verified
  resolves := ⟨_, h.resolve hparams⟩
  tidy := h.tidy
  slot_apart r n hr i hi hn := by
    obtain ⟨j, hj, hn⟩ := Flow.exists_slot_of_withLive hi hn
    exact h.apart r n hr j hj hn
  slot_lt i hi n hn := by
    obtain ⟨j, hj, hn⟩ := Flow.exists_slot_of_withLive hi hn
    exact h.slot_lt j hj n hn
  scan_dropLive hway := by
    rw [← hscan hway]
    exact Flow.Function.dropLive_withLive found.function

/-- **Allocation always succeeds.** For every function that is accepted, whose parameters are
registers of it and which has no spill code yet, and every machine with a register, both ways
give an allocation in order. -/
theorem allocate_inOrder (way : Strategy) (count : Nat) (hcount : 0 < count)
    (hf : verify f = .ok ()) (hparams : ∀ r ∈ f.params, r < f.registers.length)
    (hslots : ∀ i ∈ f.instructions, i.slot? = none) :
    ∃ p, allocate way count f = .ok p ∧ p.InOrder way count f := by
  cases way with
  | linearScan =>
    have h := sound_findByScan count hf hslots
    have hfind : find .linearScan count f = .ok (findByScan count f) :=
      find_linearScan (Flow.wellFormed_of_verify hf)
    refine ⟨_, h.allocate hcount hfind, h.inOrder hparams ?_ ?_ nofun fun _ => rfl⟩
    · exact Nat.le_add_left 1 _
    · exact fun n hn => absurd hn (Nat.not_lt.2 (Nat.le_add_left 1 n))
  | graphColouring =>
    obtain ⟨last, hlast, hfind, hspills⟩ := exists_findByColouring count hf hslots
    have h := (sound_roundAt count hf hslots last).sound_found count (last + 1)
    refine ⟨_, h.allocate hcount hfind, h.inOrder hparams ?_ ?_ (fun _ => ⟨last, rfl⟩) nofun⟩
    · exact Nat.succ_le_succ hlast
    · exact fun n hn => hspills n (Nat.lt_of_succ_lt_succ hn)

/-- A function whose instructions need more registers at once than a small machine has, and whose
second parameter is needed in a loop. -/
def crowded : Function Reg where
  name := "crowded"
  params := [0, 1]
  registers := [.int, .int, .int, .int]
  blocks := [⟨[.binary .add 2 (.reg 0) (.reg 1), .binary .mul 3 (.reg 0) (.reg 2), .jump 1], ∅⟩,
    ⟨[.binary .sub 3 (.reg 3) (.reg 2), .binary .lt 2 (.reg 1) (.reg 3), .branch (.reg 2) 2 1],
      .ofList [0, 1]⟩,
    ⟨[.ret (.reg 3)], .ofList [1]⟩]

theorem allocate_inOrder_crowded :
    verify crowded = .ok () ∧ ∃ p, allocate .graphColouring 1 crowded = .ok p ∧
      p.InOrder .graphColouring 1 crowded ∧ p.rounds = 3 ∧ p.slots = 9 := by
  have hverify : verify crowded = .ok () := by decide +kernel
  have hshape : (allocate .graphColouring 1 crowded).toOption.map (fun p => (p.rounds, p.slots)) =
      some (3, 9) := by decide +kernel
  obtain ⟨p, hp, horder⟩ :=
    allocate_inOrder .graphColouring 1 (by decide) hverify (by decide) (by decide)
  rw [hp] at hshape
  obtain ⟨hrounds, hslots⟩ := Prod.mk.inj (Option.some.inj hshape)
  exact ⟨hverify, p, hp, horder, hrounds, hslots⟩

end Sluice
