import Sluice.Live.Interval
import Sluice.Proofs.Live.Layout
import Sluice.Proofs.Live.Paths

/-!
# Intervals are sets of positions

An interval has exactly the positions at which its register holds a value
(`intervalOf_spec`), and two intervals overlap exactly if they have a position in
common (`overlaps_iff`). So the test that walks along two lists of ranges is a
statement about single positions, and nothing else is needed of ranges.

Every instruction has its two positions, whatever block it is in: what is live before
it shares the even one, and what is live after it shares the odd one with its result
(`Function.At.exists_position`). At the first position of all are the parameters
(`holds_zero_of_mem_params`). There are no other positions (`intervals_exact`).
-/

namespace Sluice.Flow

open List

/-! ## Ranges -/

/-- A position is in a range. -/
def Range.Has (a : Range) (p : Nat) : Prop := a.start ≤ p ∧ p ≤ a.stop

/-- A position is in one of some ranges. -/
def Covered (ranges : List Range) (p : Nat) : Prop := ∃ a ∈ ranges, a.Has p

/-- Ranges that are not empty and follow each other with gaps of some width. -/
structure Ascending (gap : Nat) (ranges : List Range) : Prop where
  apart : ranges.Pairwise fun a b => a.stop + gap < b.start
  nonempty : ∀ a ∈ ranges, a.start ≤ a.stop

variable {gap gap' : Nat} {ranges : List Range}

theorem covered_nil : ¬Covered [] p := by
  rintro ⟨a, ha, -⟩
  exact nomatch ha

theorem covered_cons : Covered (a :: as) p ↔ a.Has p ∨ Covered as p := by
  simp [Covered]

theorem covered_reverse : Covered as.reverse p ↔ Covered as p := by
  simp [Covered]

theorem Ascending.tail (h : Ascending gap (a :: as)) : Ascending gap as where
  apart := (pairwise_cons.1 h.apart).2
  nonempty b hb := h.nonempty b (mem_cons_of_mem _ hb)

/-- What is behind a position has none of the positions up to it. -/
theorem Ascending.lt_of_covered (h : Ascending gap (a :: as)) (hp : Covered as p) : a.stop < p := by
  obtain ⟨b, hb, hstart, -⟩ := hp
  have hgap := (pairwise_cons.1 h.apart).1 b hb
  omega

theorem meets_eq_true {a b : Range} : a.meets b = true ↔ a.start ≤ b.stop ∧ b.start ≤ a.stop := by
  simp [Range.meets]

/-- **Ascending ranges meet if and only if they have a position in common.** Of two ranges that do
not meet, the one that ends first lies before everything in the other list. -/
theorem rangesMeet_eq_true : ∀ (steps : Nat) {as bs : List Range}, Ascending gap as →
    Ascending gap' bs → as.length + bs.length ≤ steps →
    (rangesMeet steps as bs = true ↔ ∃ p, Covered as p ∧ Covered bs p) := by
  intro steps
  induction steps with
  | zero =>
    intro as bs _ _ hlen
    obtain rfl : as = [] := length_eq_zero_iff.1 (by omega)
    simp [rangesMeet, covered_nil]
  | succ steps ih =>
    intro as bs has hbs hlen
    cases as with
    | nil => simp [rangesMeet, covered_nil]
    | cons a as =>
      cases bs with
      | nil => simp [rangesMeet, covered_nil]
      | cons b bs =>
        rw [length_cons, length_cons] at hlen
        have ha := has.nonempty a mem_cons_self
        have hb := hbs.nonempty b mem_cons_self
        rw [rangesMeet]
        by_cases hmeets : a.meets b = true
        · rw [if_pos hmeets]
          have hab := meets_eq_true.1 hmeets
          simp only [true_iff]
          refine ⟨max a.start b.start, ⟨a, mem_cons_self, ?_⟩, ⟨b, mem_cons_self, ?_⟩⟩
          · exact ⟨Nat.le_max_left .., Nat.max_le.2 ⟨ha, hab.2⟩⟩
          · exact ⟨Nat.le_max_right .., Nat.max_le.2 ⟨hab.1, hb⟩⟩
        · rw [if_neg hmeets]
          rw [meets_eq_true] at hmeets
          by_cases hstop : a.stop < b.stop
          -- the range that stops first lies before all that is left on the other side
          · rw [if_pos hstop, ih has.tail hbs (by rw [length_cons]; omega)]
            refine exists_congr fun p => and_congr_left fun hp => ?_
            rw [covered_cons, or_iff_right]
            rintro ⟨-, hpa⟩
            rcases covered_cons.1 hp with ⟨hpb, -⟩ | hp
            · omega
            · have := hbs.lt_of_covered hp
              omega
          · rw [if_neg hstop, ih has hbs.tail (by rw [length_cons]; omega)]
            refine exists_congr fun p => and_congr_right fun hp => ?_
            rw [covered_cons, or_iff_right]
            rintro ⟨-, hpb⟩
            rcases covered_cons.1 hp with ⟨hpa, -⟩ | hp
            · omega
            · have := has.lt_of_covered hp
              omega

/-! ## Ranges of positions -/

/-- Ranges with the last one first. -/
theorem ascending_reverse_cons :
    Ascending gap (a :: as).reverse ↔
      a.start ≤ a.stop ∧ (∀ b ∈ as, b.stop + gap < a.start) ∧ Ascending gap as.reverse := by
  rw [reverse_cons]
  constructor
  · intro h
    obtain ⟨hapart, -, hgap⟩ := pairwise_append.1 h.apart
    refine ⟨h.nonempty a (by simp), fun b hb => ?_, hapart, fun b hb => h.nonempty b ?_⟩
    · exact hgap b (mem_reverse.2 hb) a mem_cons_self
    · exact mem_append_left _ hb
  · rintro ⟨hne, hgap, h⟩
    refine ⟨pairwise_append.2 ⟨h.apart, pairwise_singleton _ _, fun b hb c hc => ?_⟩,
      fun b hb => ?_⟩
    · rw [mem_singleton.1 hc]
      exact hgap b (mem_reverse.1 hb)
    · rcases mem_append.1 hb with hb | hb
      · exact h.nonempty b hb
      · rw [mem_singleton.1 hb]
        exact hne

/-- Adding a position that is not before the last range: the ranges stay apart, none goes beyond
it, and it is the only position that is new. The last range comes first. -/
theorem addPosition_spec (h : Ascending 1 ranges.reverse) (hlast : ∀ a ∈ ranges, a.stop ≤ p) :
    Ascending 1 (addPosition p ranges).reverse ∧ (∀ a ∈ addPosition p ranges, a.stop ≤ p) ∧
      ∀ q, Covered (addPosition p ranges) q ↔ q = p ∨ Covered ranges q := by
  have hsingle : ∀ q, Range.Has ⟨p, p⟩ q ↔ q = p := fun q =>
    ⟨fun hq => Nat.le_antisymm hq.2 hq.1, fun hq => hq ▸ ⟨Nat.le_refl q, Nat.le_refl q⟩⟩
  cases ranges with
  | nil =>
    refine ⟨ascending_reverse_cons.2 ⟨Nat.le_refl p, by simp, h⟩, by simp [addPosition],
      fun q => ?_⟩
    rw [addPosition, covered_cons, hsingle]
  | cons last earlier =>
    obtain ⟨hle, hearlier⟩ := forall_mem_cons.1 hlast
    obtain ⟨hne, hgap, hrest⟩ := ascending_reverse_cons.1 h
    simp only [addPosition]
    split
    · -- the position is there already
      refine ⟨h, hlast, fun q => (or_iff_right_of_imp ?_).symm⟩
      rintro rfl
      exact covered_cons.2 (.inl ⟨by omega, by omega⟩)
    · split
      · -- the last range grows by one
        refine ⟨ascending_reverse_cons.2 ⟨?_, hgap, hrest⟩,
          forall_mem_cons.2 ⟨Nat.le_refl p, hearlier⟩, fun q => ?_⟩
        · change last.start ≤ p
          omega
        · rw [covered_cons, covered_cons, ← or_assoc]
          refine or_congr_left ?_
          simp only [Range.Has]
          omega
      · -- a new range starts behind a gap
        refine ⟨ascending_reverse_cons.2 ⟨Nat.le_refl p, fun a ha => ?_, h⟩,
          forall_mem_cons.2 ⟨Nat.le_refl p, hlast⟩, fun q => ?_⟩
        · change a.stop + 1 < p
          rcases mem_cons.1 ha with rfl | ha
          · omega
          · have := hgap a ha
            omega
        · rw [covered_cons, hsingle]

theorem foldl_addPosition {positions : List Nat} (hsorted : positions.Pairwise (· ≤ ·)) :
    ∀ ranges : List Range, Ascending 1 ranges.reverse →
      (∀ a ∈ ranges, ∀ p ∈ positions, a.stop ≤ p) →
      Ascending 1 (positions.foldl (fun ranges p => addPosition p ranges) ranges).reverse ∧
        ∀ q, Covered (positions.foldl (fun ranges p => addPosition p ranges) ranges) q ↔
          q ∈ positions ∨ Covered ranges q := by
  induction positions with
  | nil =>
    intro ranges h _
    exact ⟨h, fun q => by simp⟩
  | cons p rest ih =>
    intro ranges h hstop
    obtain ⟨hp, hrest⟩ := pairwise_cons.1 hsorted
    obtain ⟨hascending, hlast, hcovered⟩ :=
      addPosition_spec (p := p) h fun a ha => hstop a ha p mem_cons_self
    obtain ⟨hascending', hcovered'⟩ := ih hrest _ hascending fun a ha q hq =>
      Nat.le_trans (hlast a ha) (hp q hq)
    refine ⟨hascending', fun q => ?_⟩
    rw [foldl_cons, hcovered', hcovered, mem_cons]
    tauto

/-- **The ranges of ascending positions have these positions and no other.** -/
theorem rangesOf_spec {positions : List Nat} (h : positions.Pairwise (· ≤ ·)) :
    Ascending 1 (rangesOf positions) ∧ ∀ q, Covered (rangesOf positions) q ↔ q ∈ positions := by
  obtain ⟨hascending, hcovered⟩ := foldl_addPosition h [] ⟨.nil, by simp⟩ (by simp)
  refine ⟨hascending, fun q => ?_⟩
  rw [rangesOf, covered_reverse, hcovered]
  simp [covered_nil]

/-! ## Intervals -/

/-- **A register holds a value somebody needs at a position.** -/
def HoldsAt (params : List Reg) (points : List Point) (r : Reg) (p : Nat) : Prop :=
  r ∈ params ∧ p = 0 ∨ ∃ n point, points[n]? = some point ∧
    (r ∈ point.before ∧ p = 2 * n ∨ r ∈ point.after ∧ p = 2 * n + 1)

variable {params : List Reg} {points : List Point} {r q : Reg} {p : Nat}

theorem mem_positions {point : Point} :
    p ∈ point.positions r n ↔ r ∈ point.before ∧ p = 2 * n ∨ r ∈ point.after ∧ p = 2 * n + 1 := by
  unfold Point.positions
  split <;> split <;> simp_all

/-- The positions of a register from one point on ascend, and none is before the point. -/
theorem pairwise_positions : ∀ (points : List Point) (n : Nat),
    ((points.zipIdx n).flatMap fun (point, index) => point.positions r index).Pairwise (· ≤ ·) ∧
      ∀ p ∈ (points.zipIdx n).flatMap fun (point, index) => point.positions r index, 2 * n ≤ p
  | [], _ => ⟨.nil, nofun⟩
  | point :: points, n => by
    obtain ⟨hsorted, hbound⟩ := pairwise_positions points (n + 1)
    rw [zipIdx_cons, flatMap_cons]
    constructor
    · refine pairwise_append.2 ⟨?_, hsorted, fun p hp q hq => ?_⟩
      · change (point.positions r n).Pairwise (· ≤ ·)
        unfold Point.positions
        split <;> split <;> simp
      · have := hbound q hq
        rcases mem_positions.1 hp with ⟨-, rfl⟩ | ⟨-, rfl⟩ <;> omega
    · intro p hp
      rcases mem_append.1 hp with hp | hp
      · rcases mem_positions.1 hp with ⟨-, rfl⟩ | ⟨-, rfl⟩ <;> omega
      · have := hbound p hp
        omega

/-- **An interval has the positions at which its register holds a value.** -/
theorem intervalOf_spec (params : List Reg) (points : List Point) (r : Reg) :
    Ascending 1 (intervalOf params points r).ranges ∧
      ∀ p, Covered (intervalOf params points r).ranges p ↔ HoldsAt params points r p := by
  obtain ⟨hsorted, -⟩ := pairwise_positions (r := r) points 0
  have hpositions : ((if params.contains r then [0] else []) ++
      points.zipIdx.flatMap fun (point, index) => Point.positions r point index).Pairwise
        (· ≤ ·) := by
    refine pairwise_append.2 ⟨?_, hsorted, fun p hp q _ => ?_⟩
    · split <;> simp
    · split at hp
      · rw [mem_singleton.1 hp]
        exact Nat.zero_le q
      · exact nomatch hp
  obtain ⟨hascending, hcovered⟩ := rangesOf_spec hpositions
  refine ⟨hascending, fun p => (hcovered p).trans ?_⟩
  rw [mem_append, HoldsAt]
  refine or_congr ?_ ?_
  · split <;> simp_all
  · simp only [mem_flatMap, Prod.exists, mem_zipIdx_iff_getElem?, mem_positions]
    exact exists_comm

theorem Ascending.mono (h : Ascending gap ranges) (hgap : gap' ≤ gap) : Ascending gap' ranges where
  apart := h.apart.imp (by omega)
  nonempty := h.nonempty

theorem isEmpty_iff {i : Interval} (h : Ascending gap i.ranges) :
    i.isEmpty = true ↔ ∀ p, ¬Covered i.ranges p := by
  rw [Interval.isEmpty, List.isEmpty_iff]
  constructor
  · intro hnil p
    rw [hnil]
    exact covered_nil
  · intro hnone
    refine eq_nil_iff_forall_not_mem.2 fun a ha => ?_
    exact hnone a.start ⟨a, ha, Nat.le.refl, h.nonempty a ha⟩

/-- **Intervals overlap if and only if they have a position in common.** -/
theorem overlaps_iff {x y : Interval} (hx : Ascending gap x.ranges) (hy : Ascending gap' y.ranges) :
    x.overlaps y = true ↔ ∃ p, Covered x.ranges p ∧ Covered y.ranges p := by
  rw [Interval.overlaps, rangesMeet_eq_true _ hx hy Nat.le.refl]

/-- Intervals overlap if and only if both registers hold a value at some position. -/
theorem overlaps_intervalOf :
    (intervalOf params points r).overlaps (intervalOf params points q) = true ↔
      ∃ p, HoldsAt params points r p ∧ HoldsAt params points q p := by
  obtain ⟨har, hcr⟩ := intervalOf_spec params points r
  obtain ⟨haq, hcq⟩ := intervalOf_spec params points q
  rw [overlaps_iff har haq]
  simp only [hcr, hcq]

/-! ## Positions of a function -/

variable {f : Function Reg} {is : List (Instr Reg)} {l : Label}

/-- A register of a function holds a value somebody needs at a position. -/
def Function.Holds (f : Function Reg) (r : Reg) (p : Nat) : Prop :=
  HoldsAt f.params f.points r p

theorem nonempty_intervalOf :
    (!(intervalOf f.params f.points r).isEmpty) = true ↔ ∃ p, f.Holds r p := by
  obtain ⟨hascending, hcovered⟩ := intervalOf_spec f.params f.points r
  rw [Bool.not_eq_true', ← Bool.not_eq_true, isEmpty_iff hascending, not_forall_not]
  exact exists_congr hcovered

theorem holds_zero_of_mem_params (h : r ∈ f.params) : f.Holds r 0 :=
  .inl ⟨h, rfl⟩

/-- The points of a block, as they stand among those of the function. -/
theorem zipWith_point (hb : f.blocks[l]? = some b) :
    (f.blocks.zip f.liveAfter)[l]? = some (b, (liveThrough (f.liveOutAt l) b.instrs).1) := by
  simp [List.zip, getElem?_zipWith, hb, getElem?_liveAfter hb]

/-- Instructions, each with those that follow it. -/
def places : List (Instr Reg) → List (Instr Reg × List (Instr Reg))
  | [] => []
  | i :: rest => (i, rest) :: places rest

theorem mem_places : (i, rest) ∈ places is ↔ ∃ before, is = before ++ i :: rest := by
  induction is with
  | nil => simp [places]
  | cons j is ih =>
    rw [places, mem_cons, ih, Prod.mk.injEq]
    constructor
    · rintro (⟨rfl, rfl⟩ | ⟨before, rfl⟩)
      · exact ⟨[], rfl⟩
      · exact ⟨j :: before, rfl⟩
    · rintro ⟨_ | ⟨_, before⟩, heq⟩ <;> cases heq
      · exact .inl ⟨rfl, rfl⟩
      · exact .inr ⟨before, rfl⟩

/-- **The instructions of a function along its layout**, each with its block and what is left of the
block after it. -/
def Function.sequence (f : Function Reg) : List (Label × Instr Reg × List (Instr Reg)) :=
  f.layout.flatMap fun l => (places (f.blocks[l]?.elim [] (·.instrs))).map fun x => (l, x)

theorem mem_sequence : (l, i, is) ∈ f.sequence ↔ l ∈ f.layout ∧ f.At l (i :: is) := by
  simp only [Function.sequence, mem_flatMap, mem_map, Prod.mk.injEq]
  constructor
  · rintro ⟨k, hk, _, hplace, rfl, rfl⟩
    cases hb : f.blocks[k]? with
    | none => simp [hb, places] at hplace
    | some b =>
      obtain ⟨before, heq⟩ := mem_places.1 hplace
      exact ⟨hk, b, before, hb, by simpa [hb] using heq⟩
  · rintro ⟨hl, b, before, hb, heq⟩
    exact ⟨l, hl, (i, is), mem_places.2 ⟨before, by simpa [hb] using heq⟩, rfl, rfl⟩

/-- **Every instruction of a well-formed function has a place along its layout.** -/
theorem Function.At.mem_sequence (hf : f.WellFormed) (h : f.At l (i :: is)) :
    (l, i, is) ∈ f.sequence := by
  obtain ⟨b, before, hb, heq⟩ := h
  have hl := hf.mem_layout.2 (List.getElem?_eq_some_iff.1 hb).1
  exact Flow.mem_sequence.2 ⟨hl, b, before, hb, heq⟩

/-- **The points of a function are those of its instructions along the layout.** -/
theorem points_eq (f : Function Reg) :
    f.points = f.sequence.map fun x => x.2.1.point (f.liveAt x.1 x.2.2) := by
  have hblock : ∀ (out : IdSet) (is : List (Instr Reg)),
      List.zipWith Instr.point is (liveThrough out is).1 =
        (places is).map fun x => x.1.point (liveFrom out x.2) := by
    intro out is
    induction is with
    | nil => rfl
    | cons i is ih => exact congrArg (i.point (liveFrom out is) :: ·) ih
  rw [Function.points, Function.sequence, map_flatMap]
  refine flatMap_congr fun l _ => ?_
  rw [map_map]
  cases hb : f.blocks[l]? with
  | none => simp [List.zip, getElem?_zipWith, hb, places]
  | some b =>
    simp only [zipWith_point hb]
    exact hblock _ _

/-- **Every instruction has its two positions.** -/
theorem Function.At.exists_position (h : f.At l (i :: is)) (hf : f.WellFormed) :
    ∃ n, (∀ r ∈ f.liveAt l (i :: is), f.Holds r (2 * n)) ∧
      ∀ r, r ∈ f.liveAt l is ∨ i.def? = some r → f.Holds r (2 * n + 1) := by
  have hmem : i.point (f.liveAt l is) ∈ f.points :=
    points_eq f ▸ mem_map_of_mem (h.mem_sequence hf)
  obtain ⟨n, hn⟩ := getElem?_of_mem hmem
  refine ⟨n, fun r hr => ?_, fun r hr => ?_⟩
  · exact .inr ⟨n, _, hn, .inl ⟨hr, rfl⟩⟩
  · refine .inr ⟨n, _, hn, .inr ⟨?_, rfl⟩⟩
    simpa [Instr.point, eq_comm] using hr

/-- What is live on entry holds a value at the first position. -/
theorem holds_zero_of_live (hf : f.WellFormed) (hr : r ∈ f.liveInAt entry) : f.Holds r 0 := by
  obtain ⟨b, hb⟩ := hf.exists_entry
  obtain ⟨rest, hlayout⟩ := hf.layout_eq_cons
  rw [liveInAt_eq hb] at hr
  cases hinstrs : b.instrs with
  | nil => exact absurd hinstrs (hf.ended b (mem_of_getElem? hb)).ne_nil
  | cons i is =>
    rw [hinstrs] at hr
    refine .inr ⟨0, i.point (f.liveAt entry is), ?_, .inl ⟨hr, rfl⟩⟩
    rw [points_eq, Function.sequence, hlayout, flatMap_cons, hb, Option.elim_some, hinstrs]
    rfl

/-! ## Registers that are live are mentioned -/

/-- Some instruction of a function mentions a register. -/
def Function.Mentions (f : Function Reg) (r : Reg) : Prop :=
  ∃ i ∈ f.instructions, i.Mentions r

theorem Function.WellFormed.lt_of_mentions (hf : f.WellFormed) (h : f.Mentions r) :
    r < f.registers.length := by
  obtain ⟨i, hi, hr⟩ := h
  obtain ⟨b, hb, hi⟩ := mem_flatMap.1 hi
  exact hf.known b hb i hi r hr

theorem mentions_of_mem_liveInAt : ∀ l, ∀ r ∈ f.liveInAt l, f.Mentions r := by
  refine liveInAt_least fun l b hb out hout r hr => ?_
  rcases mem_uses_of_mem_liveFrom hr with hr | ⟨i, hi, hr⟩
  · obtain ⟨-, -, hr⟩ := hout r hr
    exact hr
  · exact ⟨i, mem_flatMap.2 ⟨b, mem_of_getElem? hb, hi⟩, .inr hr⟩

theorem Function.At.mentions_of_live (h : f.At l is) (hr : r ∈ f.liveAt l is) : f.Mentions r := by
  rcases mem_uses_of_mem_liveFrom hr with hr | ⟨i, hi, hr⟩
  · obtain ⟨k, -, hr⟩ := mem_liveOutAt.1 hr
    exact mentions_of_mem_liveInAt k r hr
  · exact ⟨i, h.mem_instructions hi, .inr hr⟩

namespace Function.WellFormed

theorem lt_of_mem_liveInAt (hf : f.WellFormed) (l : Label) :
    ∀ r ∈ f.liveInAt l, r < f.registers.length :=
  fun r hr => hf.lt_of_mentions (mentions_of_mem_liveInAt l r hr)

theorem lt_of_mem_liveAt (hf : f.WellFormed) (h : f.At l is) (hr : r ∈ f.liveAt l is) :
    r < f.registers.length :=
  hf.lt_of_mentions (h.mentions_of_live hr)

end Function.WellFormed

/-- **A register that holds a value** is a parameter or is mentioned. -/
theorem mentions_of_holds (h : f.Holds r p) : r ∈ f.params ∨ f.Mentions r := by
  obtain ⟨hr, -⟩ | ⟨n, point, hn, hr⟩ := h
  · exact .inl hr
  · rw [points_eq, getElem?_map] at hn
    obtain ⟨⟨l, i, is⟩, hplace, rfl⟩ := Option.map_eq_some_iff.1 hn
    obtain ⟨-, hat⟩ := mem_sequence.1 (mem_of_getElem? hplace)
    refine .inr ?_
    rcases hr with ⟨hr, -⟩ | ⟨hr, -⟩
    · exact hat.mentions_of_live hr
    · simp only [Instr.point, IdSet.mem_insertAll, Option.mem_toList] at hr
      rcases hr with hr | hr
      · exact hat.next.mentions_of_live hr
      · exact ⟨i, hat.mem_instructions mem_cons_self, .inl hr⟩

/-! ## Exactness -/

/-- **Live intervals represent liveness exactly.** There is one for each register. Its ranges are
not empty, ascend and are not adjacent. Counted along the layout, the register has the even position
of an instruction if and only if the instruction uses it, or it is read later and the instruction
does not write it, or it is a parameter and the instruction is the first; it has the odd position if
and only if it is read later or the instruction writes it. There are no positions behind the last
instruction. And for all ascending ranges, whether they are those of a function or not, the test for
overlap tells whether they have a position in common. -/
theorem intervals_exact (hverify : verify f = .ok ()) :
    f.intervals.map Interval.reg = List.range f.registers.length ∧
    (∀ x ∈ f.intervals, Ascending 1 x.ranges ∧
      (∀ p, Covered x.ranges p → p < 2 * f.sequence.length) ∧
      ∀ (n : Nat) l i rest, f.sequence[n]? = some (l, i, rest) →
        (Covered x.ranges (2 * n) ↔ x.reg ∈ i.uses ∨
          f.ReadLater x.reg l rest ∧ i.def? ≠ some x.reg ∨ n = 0 ∧ x.reg ∈ f.params) ∧
        (Covered x.ranges (2 * n + 1) ↔ f.ReadLater x.reg l rest ∨ i.def? = some x.reg)) ∧
    ∀ x y : Interval, Ascending 0 x.ranges → Ascending 0 y.ranges →
      (x.overlaps y = true ↔ ∃ p, Covered x.ranges p ∧ Covered y.ranges p) := by
  have hf := wellFormed_of_verify hverify
  refine ⟨by simp [Function.intervals, Function.comp_def, intervalOf], fun x hx => ?_,
    fun x y hx hy => overlaps_iff hx hy⟩
  obtain ⟨r, -, rfl⟩ := mem_map.1 hx
  obtain ⟨hascending, hcovered⟩ := intervalOf_spec f.params f.points r
  simp only [hcovered]
  refine ⟨hascending, fun p hp => ?_, fun n l i rest hn => ?_⟩
  · obtain ⟨-, rfl⟩ | ⟨n, point, hn, hp⟩ := hp
    · obtain ⟨b, hb⟩ := hf.exists_entry
      cases hinstrs : b.instrs with
      | nil => exact absurd hinstrs (hf.ended b (mem_of_getElem? hb)).ne_nil
      | cons i is =>
        have hat : f.At entry (i :: is) := hinstrs ▸ .start hb
        have := length_pos_of_mem (hat.mem_sequence hf)
        omega
    · have hlt := (List.getElem?_eq_some_iff.1 hn).1
      rw [points_eq, length_map] at hlt
      omega
  · have hpoint : f.points[n]? = some (i.point (f.liveAt l rest)) := by
      rw [points_eq, getElem?_map, hn, Option.map_some]
    simp only [← mem_liveAt_iff]
    constructor
    · constructor
      · rintro (⟨hr, hp⟩ | ⟨m, point, hm, ⟨hr, hp⟩ | ⟨hr, hp⟩⟩)
        · exact .inr (.inr ⟨by omega, hr⟩)
        · obtain rfl : m = n := by omega
          cases hpoint.symm.trans hm
          exact (mem_liveBefore.1 hr).imp_right .inl
        · omega
      · rintro (hr | hr | ⟨rfl, hr⟩)
        · exact .inr ⟨n, _, hpoint, .inl ⟨mem_liveBefore.2 (.inl hr), rfl⟩⟩
        · exact .inr ⟨n, _, hpoint, .inl ⟨mem_liveBefore.2 (.inr hr), rfl⟩⟩
        · exact .inl ⟨hr, rfl⟩
    · constructor
      · rintro (⟨hr, hp⟩ | ⟨m, point, hm, ⟨hr, hp⟩ | ⟨hr, hp⟩⟩)
        · omega
        · omega
        · obtain rfl : m = n := by omega
          cases hpoint.symm.trans hm
          simpa [Instr.point, intervalOf] using hr
      · intro hr
        exact .inr ⟨n, _, hpoint, .inr ⟨by simpa [Instr.point, intervalOf] using hr, rfl⟩⟩

/-- A function that reads its parameter, and writes it again before it reads it next. -/
def rewrittenParam : Function Reg where
  name := "rewritten_param"
  params := [0]
  registers := [.int, .int]
  blocks := [⟨[.move 1 (.reg 0), .move 0 (.imm (.int 1)), .binary .add 1 (.reg 0) (.reg 1),
    .ret (.reg 1)], ∅⟩]

/-- There is a hole in the parameter's interval, as it is not read later than the first instruction
until it is written. -/
theorem intervals_exact_rewrittenParam :
    verify rewrittenParam = .ok () ∧
    rewrittenParam.intervals.map Interval.ranges = [[⟨0, 0⟩, ⟨3, 4⟩], [⟨1, 6⟩]] ∧
    ∃ rest, rewrittenParam.sequence[0]? = some (0, .move 1 (.reg 0), rest) ∧
      ¬rewrittenParam.ReadLater 0 0 rest := by
  have hverify : verify rewrittenParam = .ok () := by decide +kernel
  refine ⟨hverify, by decide +kernel, _, rfl, fun hread => ?_⟩
  obtain ⟨-, hexact, -⟩ := intervals_exact hverify
  obtain ⟨-, -, hpositions⟩ := hexact ⟨0, [⟨0, 0⟩, ⟨3, 4⟩], 3⟩ (by decide +kernel)
  obtain ⟨-, hodd⟩ := hpositions 0 _ _ _ rfl
  have hcovered := hodd.2 (.inl hread)
  simp [Covered, Range.Has] at hcovered

end Sluice.Flow
