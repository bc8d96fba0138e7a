import Sluice.Place.Check
import Sluice.Proofs.Live.Interval

/-!
# What a checked placement is

A placement that passes the check gives every register that ever holds a value a place
that the machine has, and no two registers the same place at one position
(`validate_eq_ok`). This is stated for single positions, so that it can be used where
a run is, without going back to intervals.
-/

namespace Sluice

open List
open Flow (Function Interval Reg HoldsAt intervalOf)

variable {p : Placement} {count : Nat} {f : Function Reg}

/-- **A placement fits a function** on a machine with some registers. -/
structure Placement.Fits (p : Placement) (f : Function Reg) (count : Nat) : Prop where
  placed : ∀ r < f.registers.length, ∀ n, f.Holds r n →
    ∃ l, p.get? r = some l ∧ ∀ k, l = .machine k → k < count
  apart : ∀ r < f.registers.length, ∀ q < f.registers.length, r ≠ q →
    ∀ n, f.Holds r n → f.Holds q n → p.get? r ≠ p.get? q

theorem placeError?_eq_none :
    placeError? p count i = none ↔
      ∃ l, p.get? i.reg = some l ∧ ∀ k, l = .machine k → k < count := by
  unfold placeError?
  split
  · rename_i hnone
    simp [hnone]
  · rename_i number hsome
    simp [hsome]
  · rename_i hsome
    simp [hsome]

theorem clashWith?_eq_none :
    clashWith? p a others = none ↔
      ∀ b ∈ others, ∀ l, p.get? a.reg = some l → p.get? b.reg = some l → ¬a.overlaps b = true := by
  unfold clashWith?
  split
  · rename_i hnone
    simp [hnone]
  · rename_i l hsome
    simp [hsome, find?_eq_none]

theorem clash?_eq_none :
    clash? p intervals = none ↔ intervals.Pairwise fun a b =>
      ∀ l, p.get? a.reg = some l → p.get? b.reg = some l → ¬a.overlaps b = true := by
  induction intervals with
  | nil => simp [clash?]
  | cons a rest ih =>
    rw [clash?, Option.or_eq_none_iff, clashWith?_eq_none, ih, pairwise_cons]

theorem firstPlaceError?_eq_none :
    firstPlaceError? p count f.intervals = none ↔ p.Fits f count := by
  have hplaced : (f.intervals.filter fun i => !i.isEmpty).findSome? (placeError? p count) = none ↔
      ∀ r < f.registers.length, ∀ n, f.Holds r n →
        ∃ l, p.get? r = some l ∧ ∀ k, l = .machine k → k < count := by
    rw [findSome?_eq_none_iff]
    simp only [Function.intervals, mem_filter, mem_map, mem_range,
      placeError?_eq_none, and_imp, forall_exists_index]
    constructor
    · intro h r hr n hn
      exact h _ r hr rfl (Flow.nonempty_intervalOf.2 ⟨n, hn⟩)
    · rintro h _ r hr rfl hne
      obtain ⟨n, hn⟩ := Flow.nonempty_intervalOf.1 hne
      exact h r hr n hn
  have hclash : clash? p (f.intervals.filter fun i => !i.isEmpty) = none ↔
      ∀ r q, r < q → q < f.registers.length → ∀ n, f.Holds r n → f.Holds q n →
        ∀ l, p.get? r = some l → p.get? q ≠ some l := by
    rw [clash?_eq_none, pairwise_filter, Function.intervals, pairwise_map, pairwise_iff_getElem]
    simp only [length_range, getElem_range, Flow.nonempty_intervalOf]
    constructor
    · intro h r q hrq hq n hrn hqn l hrl hql
      refine h r q (by omega) hq hrq ⟨n, hrn⟩ ⟨n, hqn⟩ l hrl hql ?_
      exact Flow.overlaps_intervalOf.2 ⟨n, hrn, hqn⟩
    · intro h r q _ hq hrq _ _ l hrl hql hoverlaps
      obtain ⟨n, hrn, hqn⟩ := Flow.overlaps_intervalOf.1 hoverlaps
      exact h r q hrq hq n hrn hqn l hrl hql
  rw [firstPlaceError?, Option.or_eq_none_iff, hplaced, hclash]
  constructor
  · rintro ⟨hplaced, hclash⟩
    refine ⟨hplaced, fun r hr q hq hne n hrn hqn heq => ?_⟩
    obtain ⟨l, hl, -⟩ := hplaced r hr n hrn
    rcases Nat.lt_or_gt_of_ne hne with hlt | hlt
    · exact hclash r q hlt hq n hrn hqn l hl (heq ▸ hl)
    · exact hclash q r hlt hr n hqn hrn l (heq ▸ hl) hl
  · intro h
    refine ⟨h.placed, fun r q hrq hq n hrn hqn l hrl hql => ?_⟩
    exact h.apart r (by omega) q hq (by omega) n hrn hqn (hrl.trans hql.symm)

/-- **What `validate` accepts.** -/
theorem validate_eq_ok (hf : f.WellFormed) : validate f p count = .ok () ↔ p.Fits f count := by
  rw [← firstPlaceError?_eq_none, validate, requireClosed, hf.checkClosed_eq_ok]
  simp only [Except.mapError, bind, Except.bind]
  cases firstPlaceError? p count f.intervals with
  | none => simp [pure, Except.pure]
  | some e => simp [throw, throwThe, MonadExceptOf.throw]

end Sluice
