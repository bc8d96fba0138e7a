import Mathlib.Algebra.Order.BigOperators.Group.List
import Mathlib.Algebra.Order.Group.Nat
import Sluice.Place.Allocate
import Sluice.Proofs.Place.Check
import Sluice.Proofs.Sorted

/-!
# Places by linear scan fit

What every step of the scan keeps (`Scan.Sound`): hulls that were taken have a place,
hulls in the same machine register do not meet, and those that are not held any more
ended before the position that the scan has come to. Hulls are taken in the order in
which they start, so a machine register that nobody holds is free from there on.

A hull has all positions of its interval, so places that keep hulls apart keep
intervals apart (`fits_scan`). No set of fewer registers could be spilled instead
(`scan_spills_least`).
-/

namespace Sluice

open List
open Flow (Function Interval Range Reg intervalOf Covered Ascending)

/-! ## Placements in order -/

/-- **A placement stays within the machine and the slots that it was given**, and gives no slot to
two registers. -/
structure Placement.Tidy (count slots : Nat) (p : Placement) : Prop where
  machine_lt : ∀ {r k : Nat}, p.get? r = some (.machine k) → k < count
  slot_lt : ∀ {r n : Nat}, p.get? r = some (.stack n) → n < slots
  slot_inj : ∀ {r q n : Nat}, p.get? r = some (.stack n) → p.get? q = some (.stack n) → r = q

theorem Placement.get?_set_eq_some {p : Placement} :
    (p.set r l).get? q = some m ↔ q = r ∧ l = m ∨ q ≠ r ∧ p.get? q = some m := by
  rw [get?_set]
  split <;> simp_all

namespace Placement.Tidy

variable {count slots : Nat} {p : Placement} {r : Reg}

theorem empty : Tidy count 0 [] where
  machine_lt h := nomatch h
  slot_lt h := nomatch h
  slot_inj h := nomatch h

theorem set_machine (h : Tidy count slots p) (hk : k < count) :
    Tidy count slots (p.set r (.machine k)) := by
  have hslot : ∀ {q n : Nat}, (p.set r (.machine k)).get? q = some (.stack n) →
      p.get? q = some (.stack n) := by
    intro q n hq
    obtain ⟨-, ⟨⟩⟩ | ⟨-, hq⟩ := get?_set_eq_some.1 hq
    exact hq
  refine ⟨fun hq => ?_, fun hq => h.slot_lt (hslot hq),
    fun hq hq' => h.slot_inj (hslot hq) (hslot hq')⟩
  obtain ⟨-, ⟨⟩⟩ | ⟨-, hq⟩ := get?_set_eq_some.1 hq
  · exact hk
  · exact h.machine_lt hq

/-- A new slot is nobody else's. -/
theorem set_slot (h : Tidy count slots p) : Tidy count (slots + 1) (p.set r (.stack slots)) := by
  refine ⟨fun hq => ?_, fun hq => ?_, fun hq hq' => ?_⟩
  · obtain ⟨-, ⟨⟩⟩ | ⟨-, hq⟩ := get?_set_eq_some.1 hq
    exact h.machine_lt hq
  · obtain ⟨-, ⟨⟩⟩ | ⟨-, hq⟩ := get?_set_eq_some.1 hq
    · exact Nat.lt_succ_self slots
    · exact Nat.lt_succ_of_lt (h.slot_lt hq)
  · obtain ⟨hqr, ⟨⟩⟩ | ⟨-, hq⟩ := get?_set_eq_some.1 hq
    · obtain ⟨hqr', -⟩ | ⟨-, hq'⟩ := get?_set_eq_some.1 hq'
      · rw [hqr, hqr']
      · exact absurd (h.slot_lt hq') (Nat.lt_irrefl slots)
    · obtain ⟨-, ⟨⟩⟩ | ⟨-, hq'⟩ := get?_set_eq_some.1 hq'
      · exact absurd (h.slot_lt hq) (Nat.lt_irrefl slots)
      · exact h.slot_inj hq hq'

/-- Places fit if no two registers that hold a value at once share a machine register. -/
theorem fits {f : Function Reg} (h : Tidy count slots p)
    (hplaced : ∀ r < f.registers.length, ∀ n, f.Holds r n → ∃ l, p.get? r = some l)
    (hapart : ∀ r < f.registers.length, ∀ q < f.registers.length, r ≠ q → ∀ n, f.Holds r n →
      f.Holds q n → ∀ k, p.get? r = some (.machine k) → p.get? q ≠ some (.machine k)) :
    p.Fits f count := by
  constructor
  · intro r hr n hn
    obtain ⟨l, hl⟩ := hplaced r hr n hn
    exact ⟨l, hl, fun k hk => h.machine_lt (hk ▸ hl)⟩
  · intro r hr q hq hne n hrn hqn heq
    obtain ⟨l, hl⟩ := hplaced r hr n hrn
    cases l with
    | stack slot => exact hne (h.slot_inj hl (heq ▸ hl))
    | machine k => exact hapart r hr q hq hne n hrn hqn k hl (heq ▸ hl)

end Placement.Tidy

/-! ## What the scan keeps -/

/-- **How far a scan has come:** the hulls it has taken, and the position it has reached. -/
structure Scan.Sound (count : Nat) (taken : List Hull) (now : Nat) (s : Scan) : Prop where
  tidy : s.placement.Tidy count s.slots
  nodup : (taken.map (·.reg)).Nodup
  started : ∀ h ∈ taken, h.start ≤ now
  placed : ∀ r, (∃ l, s.placement.get? r = some l) ↔ ∃ h ∈ taken, h.reg = r
  spilled : ∀ r, r ∈ s.spilled ↔ ∃ n, s.placement.get? r = some (.stack n)
  active : ∀ a ∈ s.active, a.hull ∈ taken ∧
    s.placement.get? a.hull.reg = some (.machine a.machine)
  distinct : (s.active.map (·.machine)).Nodup
  expired : ∀ h ∈ taken, ∀ k, s.placement.get? h.reg = some (.machine k) →
    ⟨h, k⟩ ∈ s.active ∨ h.stop < now
  apart : ∀ h ∈ taken, ∀ h' ∈ taken, h ≠ h' → ∀ k, s.placement.get? h.reg = some (.machine k) →
    s.placement.get? h'.reg = some (.machine k) → h.stop < h'.start ∨ h'.stop < h.start

theorem exists_get?_set {p : Placement} :
    (∃ m, (p.set r l).get? q = some m) ↔ q = r ∨ ∃ m, p.get? q = some m := by
  rw [Placement.get?_set]
  split <;> simp_all

theorem firstToYield?_eq_none : ∀ {active}, firstToYield? active = none → active = []
  | [], _ => rfl
  | a :: rest, h => by
    unfold firstToYield? at h
    split at h
    · cases h
    · split at h <;> cases h

/-- The hull that gives way first is the one that ends last. -/
theorem firstToYield?_spec :
    ∀ {active}, firstToYield? active = some v → v ∈ active ∧ ∀ a ∈ active, a.hull.stop ≤ v.hull.stop
  | [], h => nomatch h
  | a :: rest, h => by
    unfold firstToYield? at h
    split at h
    · rename_i hnone
      cases h
      rw [firstToYield?_eq_none hnone]
      simp
    · rename_i other hother
      obtain ⟨hmem, hlast⟩ := firstToYield?_spec hother
      simp only [Hull.yieldsBefore, Bool.or_eq_true, Bool.and_eq_true, decide_eq_true_eq,
        beq_iff_eq] at h
      split at h
      · cases h
        exact ⟨mem_cons_of_mem _ hmem, forall_mem_cons.2 ⟨by omega, hlast⟩⟩
      · cases h
        refine ⟨mem_cons_self, forall_mem_cons.2 ⟨le_rfl, fun b hb => ?_⟩⟩
        have := hlast b hb
        omega

theorem le_length_of_lowestFree {count} (h : lowestFree count taken = none) :
    count ≤ taken.length := by
  rw [← length_range (n := count)]
  exact (subperm_of_subset nodup_range fun n hn =>
    lowestFree_eq_none h (mem_range.1 hn)).length_le

/-- **What a step can do.** The new hull gets a machine register that nobody holds. If there is none,
the hull that ends last goes to the stack, of those that are held and the new one. -/
theorem Scan.place_cases (count : Nat) (s : Scan) {t} (h) (ht : s.expire h.start = t) :
    (∃ k < count, k ∉ t.active.map (·.machine) ∧ s.place count h = t.hold h k) ∨
    count ≤ t.active.length ∧
      ((∃ v ∈ t.active, h.stop ≤ v.hull.stop ∧ (∀ a ∈ t.active, a.hull.stop ≤ v.hull.stop) ∧
        s.place count h = hold { t.spill v.hull with active := t.active.erase v } h v.machine) ∨
      (∀ a ∈ t.active, a.hull.stop ≤ h.stop) ∧ s.place count h = t.spill h) := by
  simp only [place, ht]
  split
  · rename_i k hk
    obtain ⟨hlt, hfree⟩ := lowestFree_eq_some hk
    exact .inl ⟨k, hlt, hfree, rfl⟩
  · rename_i hnone
    refine .inr ⟨(le_length_of_lowestFree hnone).trans_eq (length_map _), ?_⟩
    split
    · rename_i victim hvictim
      obtain ⟨hmem, hlast⟩ := firstToYield?_spec hvictim
      split
      · rename_i hyield
        refine .inl ⟨victim, hmem, ?_, hlast, rfl⟩
        simp only [Hull.yieldsBefore, Bool.or_eq_true, Bool.and_eq_true, decide_eq_true_eq,
          beq_iff_eq] at hyield
        omega
      · rename_i hyield
        refine .inr ⟨fun a ha => (hlast a ha).trans ?_, rfl⟩
        simp only [Hull.yieldsBefore, Bool.or_eq_true, decide_eq_true_eq] at hyield
        omega
    · rename_i hempty
      rw [firstToYield?_eq_none hempty]
      exact .inr ⟨nofun, rfl⟩

namespace Scan.Sound

variable {count now : Nat} {taken : List Hull} {s : Scan}

theorem empty : Scan.Sound count [] 0 {} where
  tidy := .empty
  nodup := .nil
  started _ h := nomatch h
  placed r := by simp [Placement.get?]
  spilled r := by simp [Placement.get?]
  active _ h := nomatch h
  distinct := .nil
  expired _ h := nomatch h
  apart _ h := nomatch h

/-- Hulls that end before a position are let go of there. -/
theorem expire (hs : s.Sound count taken now) (hnow : now ≤ start) :
    (s.expire start).Sound count taken start where
  tidy := hs.tidy
  nodup := hs.nodup
  started h hh := (hs.started h hh).trans hnow
  placed := hs.placed
  spilled := hs.spilled
  active a ha := hs.active a (mem_filter.1 ha).1
  distinct := hs.distinct.sublist (filter_sublist.map _)
  expired h hh k hk := by
    rcases hs.expired h hh k hk with hactive | hstop
    · by_cases hstart : start ≤ h.stop
      · exact .inl (mem_filter.2 ⟨hactive, decide_eq_true hstart⟩)
      · exact .inr (Nat.not_le.1 hstart)
    · exact .inr (by omega)
  apart := hs.apart

theorem exists_of_mem_spilled (hs : s.Sound count taken now) (hr : r ∈ s.spilled) :
    ∃ h ∈ taken, h.reg = r :=
  (hs.placed r).1 (((hs.spilled r).1 hr).imp' _ fun _ => id)

/-- **A new hull gets a place.** If it is a machine register, the hull holds it from now on, and who
was in it before has ended. -/
theorem take {h : Hull} {s' : Scan} (hs : s.Sound count taken now) (hnow : h.start ≤ now)
    (hnew : ∀ h' ∈ taken, h'.reg ≠ h.reg) (hplacement : s'.placement = s.placement.set h.reg l)
    (htidy : s'.placement.Tidy count s'.slots)
    (hspilled : ∀ r, r ∈ s'.spilled ↔ (r = h.reg ∧ ∃ n, l = .stack n) ∨ r ∈ s.spilled)
    (hactive : ∀ a, a ∈ s'.active ↔ a ∈ s.active ∨ a.hull = h ∧ l = .machine a.machine)
    (hdistinct : (s'.active.map (·.machine)).Nodup)
    (hended : ∀ h' ∈ taken, ∀ k, l = .machine k → s.placement.get? h'.reg = some (.machine k) →
      h'.stop < h.start) : s'.Sound count (h :: taken) now := by
  have hother : ∀ h' ∈ taken, s'.placement.get? h'.reg = s.placement.get? h'.reg := by
    intro h' hh'
    rw [hplacement, Placement.get?_set, if_neg (hnew h' hh')]
  have hself : s'.placement.get? h.reg = some l := by
    rw [hplacement, Placement.get?_set, if_pos rfl]
  have hold : h.reg ∉ s.spilled := by
    intro hmem
    obtain ⟨h', hh', heq⟩ := hs.exists_of_mem_spilled hmem
    exact hnew h' hh' heq
  refine ⟨htidy, nodup_cons.2 ⟨by simpa using hnew, hs.nodup⟩,
    forall_mem_cons.2 ⟨hnow, hs.started⟩, fun r => ?_, fun r => ?_, fun a ha => ?_, hdistinct,
    ?_, ?_⟩
  · rw [hplacement, exists_get?_set, hs.placed]
    simp [eq_comm]
  · rw [hspilled, hplacement, Placement.get?_set]
    split
    · simp_all
    · simp_all [hs.spilled]
  · rcases (hactive a).1 ha with ha | ⟨rfl, rfl⟩
    · obtain ⟨hmem, hplace⟩ := hs.active a ha
      exact ⟨mem_cons_of_mem _ hmem, (hother _ hmem).trans hplace⟩
    · exact ⟨mem_cons_self, hself⟩
  · refine forall_mem_cons.2 ⟨fun k hk => ?_, fun h' hh' k hk => ?_⟩
    · exact .inl ((hactive _).2 (.inr ⟨rfl, Option.some.inj (hself.symm.trans hk)⟩))
    · rw [hother h' hh'] at hk
      exact (hs.expired h' hh' k hk).imp_left fun ha => (hactive _).2 (.inl ha)
  · refine forall_mem_cons.2 ⟨forall_mem_cons.2 ⟨fun hne => absurd rfl hne, ?_⟩,
      fun h1 hh1 => forall_mem_cons.2 ⟨?_, fun h2 hh2 hne k hk1 hk2 => ?_⟩⟩
    · intro h2 hh2 _ k hk1 hk2
      cases hself.symm.trans hk1
      exact .inr (hended h2 hh2 k rfl (hother h2 hh2 ▸ hk2))
    · intro _ k hk1 hk2
      cases hself.symm.trans hk2
      exact .inl (hended h1 hh1 k rfl (hother h1 hh1 ▸ hk1))
    · exact hs.apart h1 hh1 h2 hh2 hne k (hother h1 hh1 ▸ hk1) (hother h2 hh2 ▸ hk2)

/-- A new hull gets a machine register that nobody holds. Who was in it before has ended. -/
theorem hold (hs : s.Sound count taken h.start)
    (hnew : ∀ h' ∈ taken, h'.reg ≠ h.reg) (hk : k < count)
    (hfree : k ∉ s.active.map (·.machine)) : (s.hold h k).Sound count (h :: taken) h.start := by
  refine hs.take le_rfl hnew rfl (hs.tidy.set_machine hk) (by simp [Scan.hold]) (fun a => ?_) ?_ ?_
  · cases a
    simp [Scan.hold, eq_comm]
  · rw [Scan.hold, map_append]
    refine nodup_append.2 ⟨hs.distinct, pairwise_singleton _ _, fun x hx y hy heq => ?_⟩
    have hy : y = k := mem_singleton.1 hy
    exact hfree (hy ▸ heq ▸ hx)
  · rintro h' hh' _ ⟨⟩ hk'
    refine (hs.expired h' hh' k hk').resolve_left fun hactive => hfree ?_
    exact mem_map.2 ⟨_, hactive, rfl⟩

/-- A new hull goes to the stack. -/
theorem spill (hs : s.Sound count taken now) (hnow : h.start ≤ now)
    (hnew : ∀ h' ∈ taken, h'.reg ≠ h.reg) : (s.spill h).Sound count (h :: taken) now :=
  hs.take hnow hnew rfl hs.tidy.set_slot (by simp [Scan.spill]) (by simp [Scan.spill])
    hs.distinct nofun

/-- A hull that is held gives way, and nobody holds its register any more. -/
theorem evict {victim : Held} (hs : s.Sound count taken now) (hvictim : victim ∈ s.active) :
    ({ s.spill victim.hull with active := s.active.erase victim } : Scan).Sound count taken now ∧
      victim.machine ∉ (s.active.erase victim).map (·.machine) := by
  obtain ⟨hmem, hplace⟩ := hs.active victim hvictim
  have hmachine : ∀ {r k}, (s.spill victim.hull).placement.get? r = some (.machine k) →
      r ≠ victim.hull.reg ∧ s.placement.get? r = some (.machine k) := by
    intro r k hr
    obtain ⟨-, ⟨⟩⟩ | hr := Placement.get?_set_eq_some.1 hr
    exact hr
  have hperm : (s.active.map (·.machine)).Perm
      (victim.machine :: (s.active.erase victim).map (·.machine)) :=
    (perm_cons_erase hvictim).map _
  obtain ⟨hfree, hdistinct⟩ := nodup_cons.1 (hperm.nodup_iff.1 hs.distinct)
  refine ⟨⟨hs.tidy.set_slot, hs.nodup, hs.started, fun r => ?_, fun r => ?_, fun a ha => ?_,
    hdistinct, ?_, ?_⟩, hfree⟩
  · rw [Scan.spill, exists_get?_set, hs.placed, or_iff_right_of_imp]
    rintro rfl
    exact ⟨victim.hull, hmem, rfl⟩
  · simp only [Scan.spill, IdSet.mem_insert, Placement.get?_set, hs.spilled]
    split <;> simp_all
  · obtain ⟨hmem', hplace'⟩ := hs.active a (mem_of_mem_erase ha)
    refine ⟨hmem', ?_⟩
    have hne : a.hull.reg ≠ victim.hull.reg := by
      intro heq
      -- both would be held in one register
      rw [heq, hplace, Option.some.injEq, Location.machine.injEq] at hplace'
      exact hfree (mem_map.2 ⟨a, ha, hplace'.symm⟩)
    rw [Scan.spill, Placement.get?_set, if_neg hne]
    exact hplace'
  · intro h hh k hk
    obtain ⟨hne, hk⟩ := hmachine hk
    refine (hs.expired h hh k hk).imp_left fun hactive => ?_
    refine (mem_erase_of_ne ?_).2 hactive
    rintro rfl
    exact hne rfl
  · intro h1 hh1 h2 hh2 hne k hk1 hk2
    exact hs.apart h1 hh1 h2 hh2 hne k (hmachine hk1).2 (hmachine hk2).2

/-- **Every step of the scan keeps places apart.** -/
theorem place (hs : s.Sound count taken now) (hnow : now ≤ h.start)
    (hnew : ∀ h' ∈ taken, h'.reg ≠ h.reg) : (s.place count h).Sound count (h :: taken) h.start := by
  have hs := hs.expire hnow
  obtain ⟨k, hk, hfree, heq⟩ | ⟨-, ⟨v, hv, -, -, heq⟩ | ⟨-, heq⟩⟩ := s.place_cases count h rfl
  · rw [heq]
    exact hs.hold hnew hk hfree
  · obtain ⟨hevicted, hfree⟩ := hs.evict hv
    rw [heq]
    exact hevicted.hold hnew (hs.tidy.machine_lt (hs.active v hv).2) hfree
  · rw [heq]
    exact hs.spill le_rfl hnew

end Scan.Sound

/-! ## As few as possible

No set of registers leaves more hulls that end before a position than what was spilled, if it
leaves at most `count` hulls at each position. When a hull is spilled, all that stay end no later:
there are `count` that have not ended, and no set leaves more of those. -/

/-- How many hulls outside a set of registers have a property. -/
def outside (removed : IdSet) (hulls : List Hull) (p : Hull → Prop) [DecidablePred p] : Nat :=
  hulls.countP fun h => h.reg ∉ removed ∧ p h

/-- Without the registers of a set, at most `count` hulls have a position in common. -/
def Relieves (count : Nat) (hulls : List Hull) (removed : IdSet) : Prop :=
  ∀ p, outside removed hulls (fun h => h.start ≤ p ∧ p ≤ h.stop) ≤ count

/-- **What is spilled leaves the most hulls** that end before a position. -/
def Ahead (count : Nat) (hulls : List Hull) (spilled : IdSet) : Prop :=
  ∀ removed, Relieves count hulls removed →
    ∀ t, outside removed hulls (·.stop < t) ≤ outside spilled hulls (·.stop < t)

theorem outside_mono {hulls removed removed' p q} [DecidablePred p] [DecidablePred q]
    (h : ∀ x ∈ hulls, x.reg ∉ removed → p x → x.reg ∉ removed' ∧ q x) :
    outside removed hulls p ≤ outside removed' hulls q :=
  countP_mono_left (by simpa using h)

theorem outside_stop (removed : IdSet) (hulls : List Hull) (t : Nat) :
    outside removed hulls (·.stop < t) + outside removed hulls (t ≤ ·.stop) =
      outside removed hulls fun _ => True := by
  simp only [outside]
  induction hulls with
  | nil => rfl
  | cons h rest ih =>
    simp only [countP_cons, decide_eq_true_eq]
    split <;> split <;> split <;> first | omega | grind

theorem Ahead.cons {count hulls spilled} {h : Hull} (ha : Ahead count hulls spilled)
    (hh : h.reg ∉ spilled) : Ahead count (h :: hulls) spilled := by
  intro removed hr t
  have hrest := ha removed (fun p => (sublist_cons_self h hulls).countP_le.trans (hr p)) t
  simp only [outside, countP_cons, decide_eq_true_eq] at hrest ⊢
  split <;> split <;> first | omega | grind

theorem Ahead.insert {count hulls spilled} {v : Hull} {now} (ha : Ahead count hulls spilled)
    (hv : ∀ x ∈ hulls, x.reg = v.reg → x = v) (hstarted : ∀ x ∈ hulls, x.start ≤ now)
    (hnow : now ≤ v.stop) (hlast : ∀ x ∈ hulls, x.reg ∉ spilled → x.stop ≤ v.stop)
    (hfull : count ≤ outside (spilled.insert v.reg) hulls (now ≤ ·.stop)) :
    Ahead count hulls (spilled.insert v.reg) := by
  have hkeep : ∀ t ≤ v.stop, outside spilled hulls (·.stop < t) ≤
      outside (spilled.insert v.reg) hulls (·.stop < t) := by
    refine fun t ht => outside_mono fun x hx hmem hlt => ⟨?_, hlt⟩
    rintro hmem'
    rcases IdSet.mem_insert.1 hmem' with heq | hmem'
    · have := congrArg Hull.stop (hv x hx heq)
      omega
    · exact hmem hmem'
  intro removed hr t
  rcases Nat.lt_or_ge v.stop t with ht | ht
  · -- all that stay have ended
    calc outside removed hulls (·.stop < t)
        ≤ outside removed hulls fun _ => True := outside_mono fun _ _ hx _ => ⟨hx, trivial⟩
      _ = outside removed hulls (·.stop < now) + outside removed hulls (now ≤ ·.stop) :=
          (outside_stop ..).symm
      _ ≤ outside spilled hulls (·.stop < now) + count := by
          refine Nat.add_le_add (ha removed hr now) (Nat.le_trans ?_ (hr now))
          exact outside_mono fun x hx hmem hle => ⟨hmem, hstarted x hx, hle⟩
      _ ≤ _ := Nat.add_le_add (hkeep now hnow) hfull
      _ = outside (spilled.insert v.reg) hulls fun _ => True := outside_stop ..
      _ ≤ _ := by
          refine outside_mono fun x hx hmem _ => ⟨hmem, ?_⟩
          have := hlast x hx fun h => hmem (IdSet.mem_insert.2 (.inr h))
          omega
  · exact (ha removed hr t).trans (hkeep t ht)

namespace Scan.Sound

variable {count now : Nat} {taken : List Hull} {s : Scan}

theorem exists_machine (hs : s.Sound count taken now) (hx : x ∈ taken)
    (hmem : x.reg ∉ s.spilled) : ∃ k, s.placement.get? x.reg = some (.machine k) := by
  obtain ⟨l, hl⟩ := (hs.placed _).2 ⟨x, hx, rfl⟩
  cases l with
  | machine k => exact ⟨k, hl⟩
  | stack n => exact absurd ((hs.spilled _).2 ⟨n, hl⟩) hmem

/-- Hulls at one position are in different machine registers. -/
theorem relieves (hs : s.Sound count taken now) : Relieves count taken s.spilled := by
  intro p
  rw [outside, countP_eq_length_filter]
  let machine (h : Hull) : Nat := ((s.placement.get? h.reg).bind Location.machine?).getD 0
  have hmachine : ∀ {x}, x ∈ taken → x.reg ∉ s.spilled →
      s.placement.get? x.reg = some (.machine (machine x)) := by
    intro x hx hmem
    obtain ⟨k, hk⟩ := hs.exists_machine hx hmem
    simp [machine, hk, Location.machine?]
  rw [← length_map machine, ← length_range (n := count)]
  refine (subperm_of_subset (Nodup.map_on (fun x hx y hy heq => ?_) ?_) fun k hk => ?_).length_le
  · simp only [mem_filter, decide_eq_true_eq] at hx hy
    by_contra hne
    have hx' := hmachine hx.1 hx.2.1
    have := hs.apart x hx.1 y hy.1 hne _ hx' (heq ▸ hmachine hy.1 hy.2.1)
    omega
  · exact (hs.nodup.of_map _).filter _
  · obtain ⟨x, hx, rfl⟩ := mem_map.1 hk
    simp only [mem_filter, decide_eq_true_eq] at hx
    exact mem_range.2 (hs.tidy.machine_lt (hmachine hx.1 hx.2.1))

/-- Every hull that is held stays. -/
theorem length_active_le (hs : s.Sound count taken now) (hp : ∀ a ∈ s.active, p ≤ a.hull.stop) :
    s.active.length ≤ outside s.spilled taken (p ≤ ·.stop) := by
  rw [outside, countP_eq_length_filter, ← length_map (·.hull)]
  refine (subperm_of_subset (Nodup.map_on (fun a ha b hb heq => ?_) (hs.distinct.of_map _))
    fun x hx => ?_).length_le
  · have hplace := (hs.active a ha).2
    rw [heq, (hs.active b hb).2] at hplace
    cases a
    cases b
    cases hplace
    cases heq
    rfl
  · obtain ⟨a, ha, rfl⟩ := mem_map.1 hx
    obtain ⟨hmem, hplace⟩ := hs.active a ha
    simp only [mem_filter, decide_eq_true_eq, hs.spilled, hplace]
    exact ⟨hmem, by simp, hp a ha⟩

/-- **Every step spills as little as possible.** -/
theorem ahead_place (hs : s.Sound count taken now) (hnow : now ≤ h.start)
    (hnew : ∀ h' ∈ taken, h'.reg ≠ h.reg) (hh : h.start ≤ h.stop)
    (ha : Ahead count taken s.spilled) : Ahead count (h :: taken) (s.place count h).spilled := by
  have hs' := hs.place hnow hnew
  have hcons : Ahead count (h :: taken) s.spilled := by
    refine ha.cons fun hmem => ?_
    obtain ⟨h', hh', heq⟩ := hs.exists_of_mem_spilled hmem
    exact hnew h' hh' heq
  have hlive : ∀ a ∈ (s.expire h.start).active, h.start ≤ a.hull.stop :=
    fun a ha => of_decide_eq_true (mem_filter.1 ha).2
  -- of those that stay and have not ended, none ends after the one that goes
  have hgo : ∀ v ∈ h :: taken, h.start ≤ v.stop → h.stop ≤ v.stop →
      (∀ a ∈ (s.expire h.start).active, a.hull.stop ≤ v.stop) →
      count ≤ outside (s.spilled.insert v.reg) (h :: taken) (h.start ≤ ·.stop) →
      Ahead count (h :: taken) (s.spilled.insert v.reg) := by
    intro v hv hstart hstop hlast
    refine hcons.insert (fun x hx => inj_on_of_nodup_map hs'.nodup hx hv) hs'.started hstart
      (forall_mem_cons.2 ⟨fun _ => hstop, fun x hx hmem => ?_⟩)
    obtain ⟨k, hk⟩ := hs.exists_machine hx hmem
    rcases (hs.expire hnow).expired x hx k hk with hactive | hended
    · exact hlast _ hactive
    · omega
  obtain ⟨k, -, -, heq⟩ | ⟨hlength, ⟨v, hv, hstop, hlast, heq⟩ | ⟨hlast, heq⟩⟩ :=
    s.place_cases count h rfl
  · rwa [heq]
  · rw [heq] at hs' ⊢
    refine hgo v.hull (mem_cons_of_mem _ ((hs.expire hnow).active v hv).1) (hlive v hv) hstop hlast
      (Nat.le_trans ?_ (hs'.length_active_le
        (forall_mem_append.2 ⟨fun a ha => hlive a (mem_of_mem_erase ha), by simpa using hh⟩)))
    have := length_erase_of_mem hv
    have := length_pos_of_mem hv
    simp only [Scan.hold, length_append, length_singleton]
    omega
  · rw [heq] at hs' ⊢
    exact hgo h mem_cons_self hh le_rfl hlast (hlength.trans (hs'.length_active_le hlive))

end Scan.Sound

/-- **What a whole scan keeps.** Hulls come in the order in which they start, one for a register. -/
theorem Scan.Sound.foldl {count} : ∀ {hulls taken} {now} {s : Scan},
    s.Sound count taken now → Ahead count taken s.spilled → (∀ h ∈ hulls, now ≤ h.start) →
    (∀ h ∈ hulls, h.start ≤ h.stop) → hulls.Pairwise (fun h h' => h.start ≤ h'.start) →
    ((hulls ++ taken).map (·.reg)).Nodup →
    (∃ now', (hulls.foldl (Scan.place count) s).Sound count (hulls.reverse ++ taken) now') ∧
      Ahead count (hulls.reverse ++ taken) (hulls.foldl (Scan.place count) s).spilled
  | [], taken, now, s, hs, ha, _, _, _, _ => ⟨⟨now, hs⟩, ha⟩
  | h :: hulls, taken, now, s, hs, ha, hnow, hstop, hsorted, hnodup => by
    obtain ⟨hstart, hnow⟩ := forall_mem_cons.1 hnow
    obtain ⟨hh, hstop⟩ := forall_mem_cons.1 hstop
    obtain ⟨hfirst, hsorted⟩ := pairwise_cons.1 hsorted
    have hperm : ((hulls ++ h :: taken).map (·.reg)).Perm ((h :: (hulls ++ taken)).map (·.reg)) :=
      perm_middle.map _
    have hnew : ∀ h' ∈ taken, h'.reg ≠ h.reg := by
      intro h' hh' heq
      refine (nodup_cons.1 hnodup).1 ?_
      exact mem_map.2 ⟨h', mem_append_right _ hh', heq⟩
    rw [reverse_cons, append_assoc]
    exact foldl (hs.place hstart hnew) (hs.ahead_place hstart hnew hh ha) hfirst hstop
      hsorted (hperm.nodup_iff.2 hnodup)

/-! ## Hulls -/

/-- An interval lies between its first and its last position. -/
theorem hull_of_covered {i : Interval} (h : Ascending gap i.ranges)
    (hp : Covered i.ranges p) : i.start ≤ p ∧ p ≤ i.stop := by
  obtain ⟨a, ha, hstart, hstop⟩ := hp
  constructor
  · cases hranges : i.ranges with
    | nil => simp [hranges] at ha
    | cons first rest =>
      have hfirst := h.nonempty first (by simp [hranges])
      have hbehind := (pairwise_cons.1 (hranges ▸ h.apart)).1
      simp only [Interval.start, hranges, head?_cons, Option.elim_some]
      rcases mem_cons.1 (hranges ▸ ha) with rfl | ha
      · exact hstart
      · have := hbehind a ha
        omega
  · rcases eq_nil_or_concat i.ranges with hranges | ⟨front, last, hranges⟩
    · simp [hranges] at ha
    · rw [concat_eq_append] at hranges
      have hlast := h.nonempty last (by simp [hranges])
      have hbefore := (pairwise_append.1 (hranges ▸ h.apart)).2.2
      simp only [Interval.stop, hranges, getLast?_concat, Option.elim_some]
      rcases mem_append.1 (hranges ▸ ha) with ha | ha
      · have := hbefore a ha last mem_cons_self
        omega
      · rwa [← mem_singleton.1 ha]

variable {f : Function Reg} {count : Nat}

/-- The hulls of a function: one for every register that ever holds a value. -/
theorem mem_hulls :
    h ∈ hulls f.intervals ↔ ∃ r < f.registers.length, (∃ n, f.Holds r n) ∧
      h = .ofInterval (intervalOf f.params f.points r) := by
  rw [hulls, (perm_sortBy _).mem_iff]
  simp only [Function.intervals, mem_map, mem_filter, mem_range]
  constructor
  · rintro ⟨_, ⟨⟨r, hr, rfl⟩, hne⟩, rfl⟩
    exact ⟨r, hr, Flow.nonempty_intervalOf.1 hne, rfl⟩
  · rintro ⟨r, hr, hne, rfl⟩
    exact ⟨_, ⟨⟨r, hr, rfl⟩, Flow.nonempty_intervalOf.2 hne⟩, rfl⟩

theorem nodup_hulls : ((hulls f.intervals).map (·.reg)).Nodup := by
  refine ((perm_sortBy _).map _).nodup_iff.2 ?_
  rw [map_map]
  have hreg : f.intervals.map (·.reg) = List.range f.registers.length := by
    rw [Function.intervals, map_map]
    exact map_id _
  have hsublist : ((f.intervals.filter fun i => !i.isEmpty).map (·.reg)).Sublist
      (f.intervals.map (·.reg)) := filter_sublist.map _
  exact (hreg ▸ hsublist).nodup nodup_range

theorem pairwise_hulls : (hulls f.intervals).Pairwise fun h h' => h.start ≤ h'.start := by
  refine pairwise_sortBy (R := fun h h' : Hull => h.start ≤ h'.start) (fun x y hle => ?_)
    (fun x y hle => ?_) (fun x y z => Nat.le_trans) _
  · simp only [Hull.le, Bool.or_eq_true, Bool.and_eq_true, decide_eq_true_eq, beq_iff_eq] at hle
    omega
  · simp only [Hull.le, Bool.or_eq_false_iff, decide_eq_false_iff_not] at hle
    omega

theorem hull_of_holds (hn : f.Holds r n) : (intervalOf f.params f.points r).start ≤ n ∧
    n ≤ (intervalOf f.params f.points r).stop := by
  obtain ⟨hascending, hcovered⟩ := Flow.intervalOf_spec f.params f.points r
  exact hull_of_covered hascending ((hcovered n).2 hn)

theorem start_le_stop_of_mem_hulls (hh : h ∈ hulls f.intervals) : h.start ≤ h.stop := by
  obtain ⟨r, -, ⟨n, hn⟩, rfl⟩ := mem_hulls.1 hh
  exact (hull_of_holds hn).1.trans (hull_of_holds hn).2

/-- A whole scan keeps what its steps keep. -/
theorem exists_sound_scan (count : Nat) (f : Function Reg) :
    (∃ now, (scan count f.intervals).Sound count (hulls f.intervals).reverse now) ∧
      Ahead count (hulls f.intervals).reverse (scan count f.intervals).spilled := by
  have hnodup : ((hulls f.intervals ++ []).map Hull.reg).Nodup := by
    rw [append_nil]
    exact nodup_hulls
  have hempty : Scan.Sound count [] 0 {} := .empty
  have hs := hempty.foldl (fun _ _ _ => Nat.zero_le _) (fun h _ => Nat.zero_le h.start)
    (fun _ => start_le_stop_of_mem_hulls) pairwise_hulls hnodup
  rwa [append_nil] at hs

/-- **The places that a scan finds fit.** -/
theorem fits_scan (count : Nat) (f : Function Reg) :
    (scan count f.intervals).placement.Fits f count := by
  obtain ⟨⟨now, hs⟩, -⟩ := exists_sound_scan count f
  have hhull : ∀ r < f.registers.length, ∀ n, f.Holds r n →
      .ofInterval (intervalOf f.params f.points r) ∈ (hulls f.intervals).reverse :=
    fun r hr n hn => mem_reverse.2 (mem_hulls.2 ⟨r, hr, ⟨n, hn⟩, rfl⟩)
  refine hs.tidy.fits (fun r hr n hn => (hs.placed r).2 ⟨_, hhull r hr n hn, rfl⟩) ?_
  intro r hr q hq hne n hrn hqn k hrk hqk
  have hdisjoint := hs.apart _ (hhull r hr n hrn) _ (hhull q hq n hqn)
    (fun h => hne (congrArg Hull.reg h)) k hrk hqk
  have hrange := hull_of_holds hrn
  have hrange' := hull_of_holds hqn
  simp only [Hull.ofInterval] at hdisjoint
  omega

theorem tidy_scan (count : Nat) (f : Function Reg) :
    (scan count f.intervals).placement.Tidy count (scan count f.intervals).slots :=
  (exists_sound_scan count f).1.elim fun _ hs => hs.tidy

/-- Only registers of the function are spilled. -/
theorem lt_of_mem_spilled_scan (hr : r ∈ (scan count f.intervals).spilled) :
    r < f.registers.length := by
  obtain ⟨⟨now, hs⟩, -⟩ := exists_sound_scan count f
  obtain ⟨h, hh, rfl⟩ := hs.exists_of_mem_spilled hr
  obtain ⟨q, hq, -, rfl⟩ := mem_hulls.1 (mem_reverse.1 hh)
  exact hq

/-- How many registers outside a set have a position in their hull. -/
def crowd (f : Function Reg) (removed : IdSet) (p : Nat) : Nat :=
  f.intervals.countP fun i => !i.isEmpty ∧ i.reg ∉ removed ∧ i.start ≤ p ∧ p ≤ i.stop

theorem relieves_hulls :
    Relieves count (hulls f.intervals).reverse removed ↔ ∀ p, crowd f removed p ≤ count := by
  refine forall_congr' fun p => ?_
  rw [outside, hulls, ((reverse_perm _).trans (perm_sortBy _)).countP_eq, countP_map, countP_filter]
  refine iff_of_eq (congrArg (· ≤ count) (countP_congr fun i _ => ?_))
  simp only [Bool.and_eq_true, Function.comp_apply, decide_eq_true_eq]
  exact and_comm

/-- Where all hulls have ended, leaving more of them is removing fewer registers. -/
theorem Ahead.size_le {hulls spilled removed} (ha : Ahead count hulls spilled)
    (hnodup : (hulls.map (·.reg)).Nodup) (hspilled : ∀ r ∈ spilled, ∃ h ∈ hulls, h.reg = r)
    (hr : Relieves count hulls removed) : spilled.size ≤ removed.size := by
  have hsplit : ∀ s : IdSet, outside s hulls (·.stop < (hulls.map (·.stop)).sum + 1) +
      ((hulls.filter (·.reg ∈ s)).map (·.reg)).length = hulls.length := by
    intro s
    rw [length_map, ← countP_eq_length_filter, outside, Nat.add_comm,
      length_eq_countP_add_countP fun h : Hull => h.reg ∈ s]
    congr 1
    refine countP_congr fun x hx => ?_
    have := le_sum_of_mem (mem_map_of_mem (f := (·.stop)) hx)
    simp
    omega
  have hless := ha removed hr ((hulls.map (·.stop)).sum + 1)
  have hall : spilled.size ≤ ((hulls.filter (·.reg ∈ spilled)).map (·.reg)).length := by
    refine IdSet.size_le_length fun r hr => ?_
    obtain ⟨h, hh, rfl⟩ := hspilled r hr
    exact mem_map_of_mem (mem_filter.2 ⟨hh, decide_eq_true hr⟩)
  have hsome : ((hulls.filter (·.reg ∈ removed)).map (·.reg)).length ≤ removed.size := by
    refine (subperm_of_subset (hnodup.sublist (filter_sublist.map _)) fun r hr => ?_).length_le
    obtain ⟨h, hh, rfl⟩ := mem_map.1 hr
    exact of_decide_eq_true (mem_filter.1 hh).2
  have := hsplit spilled
  have := hsplit removed
  omega

theorem mem_hulls_of_nonempty {i : Interval} (hi : i ∈ f.intervals) (hne : ¬i.isEmpty) :
    .ofInterval i ∈ (hulls f.intervals).reverse := by
  rw [mem_reverse, hulls, (perm_sortBy _).mem_iff]
  exact mem_map_of_mem (mem_filter.2 ⟨hi, by simpa using hne⟩)

/-- **Linear scan spills as little as possible.** Registers in the same machine register have hulls
that do not meet, and a register that has a hull is spilled or has a machine register. No more than
`count` hulls are left at any position, and no set of fewer registers leaves as few; so nothing is
spilled exactly if no position lies in more than `count` hulls. -/
theorem scan_spills_least (count : Nat) (f : Function Reg) :
    (∀ i ∈ f.intervals, ¬i.isEmpty → ∀ j ∈ f.intervals, ¬j.isEmpty → i.reg ≠ j.reg → ∀ k,
      (scan count f.intervals).placement.get? i.reg = some (.machine k) →
      (scan count f.intervals).placement.get? j.reg = some (.machine k) →
      i.stop < j.start ∨ j.stop < i.start) ∧
    (∀ i ∈ f.intervals, ¬i.isEmpty → i.reg ∈ (scan count f.intervals).spilled ∨
      ∃ k < count, (scan count f.intervals).placement.get? i.reg = some (.machine k)) ∧
    (∀ p, crowd f (scan count f.intervals).spilled p ≤ count) ∧
    (∀ removed, (∀ p, crowd f removed p ≤ count) →
      (scan count f.intervals).spilled.size ≤ removed.size) ∧
    ((scan count f.intervals).spilled = ∅ ↔ ∀ p, crowd f ∅ p ≤ count) := by
  obtain ⟨⟨now, hs⟩, ha⟩ := exists_sound_scan count f
  have hfew : ∀ p, crowd f (scan count f.intervals).spilled p ≤ count :=
    relieves_hulls.1 hs.relieves
  have hleast : ∀ removed, (∀ p, crowd f removed p ≤ count) →
      (scan count f.intervals).spilled.size ≤ removed.size := fun removed hr =>
    ha.size_le hs.nodup (fun _ => hs.exists_of_mem_spilled) (relieves_hulls.2 hr)
  refine ⟨fun i hi hi' j hj hj' hne k => ?_, fun i hi hi' => ?_, hfew, hleast,
    fun hnone => hnone ▸ hfew, fun hr => ?_⟩
  · exact hs.apart _ (mem_hulls_of_nonempty hi hi') _ (mem_hulls_of_nonempty hj hj')
      (fun heq => hne (congrArg Hull.reg heq)) k
  · refine or_iff_not_imp_left.2 fun hmem => ?_
    obtain ⟨k, hk⟩ := hs.exists_machine (mem_hulls_of_nonempty hi hi') hmem
    exact ⟨k, hs.tidy.machine_lt hk, hk⟩
  · exact (IdSet.eq_of_subset_of_size_le (fun _ h => absurd h IdSet.not_mem_empty)
      (hleast ∅ hr)).symm

end Sluice
