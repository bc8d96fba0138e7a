import Sluice.Proofs.Place.Graph
import Sluice.Proofs.Place.Scan

/-!
# Places by colouring fit

Whatever the order in which registers are coloured, two with the same colour do not
interfere (`proper_colour`). Registers left without a colour get slots of their own, so
the placement of a colouring fits the function (`fits_roundColour`), whether or not something
has to be spilled.
-/

namespace Sluice

open List
open Flow (Function Interval Reg intervalOf)

/-- Of places for different registers, each one counts. -/
theorem Placement.get?_ofList (h : (places.map (·.1)).Nodup) :
    (ofList places).get? r = some l ↔ (r, l) ∈ places := by
  have hfold : ∀ (places : List (Reg × Location)) (p : Placement), (places.map (·.1)).Nodup →
      ((places.foldl (fun p place => set place.1 place.2 p) p).get? r = some l ↔
        (r, l) ∈ places ∨ r ∉ places.map (·.1) ∧ p.get? r = some l) := by
    intro places
    induction places with
    | nil => simp
    | cons place places ih =>
      obtain ⟨q, m⟩ := place
      intro p hnodup
      obtain ⟨hnew, hrest⟩ := nodup_cons.1 hnodup
      rw [foldl_cons, ih _ hrest, get?_set]
      by_cases hr : r = q
      · subst hr
        have hnot : (r, l) ∉ places := fun hmem => hnew (mem_map.2 ⟨_, hmem, rfl⟩)
        simp only [hnot, hnew, not_false_eq_true, mem_cons, map_cons]
        simp [eq_comm]
      · simp [hr]
  refine (hfold places [] h).trans ?_
  simp [get?]

variable {f : Function Reg} {count : Nat} {g : Graph}

/-! ## Colours -/

/-- **A colouring keeps neighbours apart.** -/
structure Colouring.Proper (count : Nat) (g : Graph) (colours : Colouring) : Prop where
  nodup : (colours.map (·.1)).Nodup
  lt : ∀ {r c : Nat}, (r, c) ∈ colours → c < count
  apart : ∀ {r q c : Nat}, (r, c) ∈ colours → (q, c) ∈ colours → r ≠ q → ¬g.adjacent r q = true

/-- The order does not matter for two registers of one colour: the one that is coloured later looks
at its neighbours. -/
theorem proper_colour (count : Nat) (hsymm : ∀ {r q}, g.adjacent r q = true → g.adjacent q r = true)
    (horder : order.Nodup) :
    Colouring.Proper count g (colour count g order) ∧
      ∀ r ∈ (colour count g order).map (·.1), r ∈ order := by
  induction order with
  | nil => exact ⟨⟨.nil, nofun, nofun⟩, nofun⟩
  | cons r rest ih =>
    obtain ⟨hnew, hrest⟩ := nodup_cons.1 horder
    obtain ⟨hproper, hsub⟩ := ih hrest
    simp only [colour]
    split
    · rename_i c hfree
      obtain ⟨hlt, hfree⟩ := lowestFree_eq_some hfree
      have hapart : ∀ q, (q, c) ∈ colour count g rest → ¬g.adjacent r q = true := by
        intro q hq hmem
        refine hfree (mem_filterMap.2 ⟨q, IdSet.contains_eq_true.1 hmem, ?_⟩)
        exact (lookup_eq_some_iff_mem hproper.nodup).2 hq
      refine ⟨⟨nodup_cons.2 ⟨fun h => hnew (hsub r h), hproper.nodup⟩, ?_, ?_⟩, ?_⟩
      · intro q d hq
        rcases mem_cons.1 hq with heq | hq
        · cases heq
          exact hlt
        · exact hproper.lt hq
      · intro q p d hq hp hne
        -- of two registers with one colour at most one is the new one
        rcases mem_cons.1 hq with heq | hq <;> rcases mem_cons.1 hp with heq' | hp
        · exact absurd ((congrArg Prod.fst heq).trans (congrArg Prod.fst heq').symm) hne
        · cases heq
          exact hapart p hp
        · cases heq'
          exact fun h => hapart q hq (hsymm h)
        · exact hproper.apart hq hp hne
      · intro q hq
        exact mem_cons.2 ((mem_cons.1 hq).imp_right (hsub q))
    · exact ⟨hproper, fun q hq => mem_cons_of_mem r (hsub q hq)⟩

/-- A register is coloured or left over. -/
theorem mem_uncoloured : r ∈ uncoloured g colours ↔ r ∈ g.nodes ∧ r ∉ colours.map (·.1) := by
  rw [uncoloured, mem_filter, Option.isNone_iff_eq_none, lookup_eq_none_iff_not_mem]

/-- **A register with few neighbours that are coloured before it gets a colour.** -/
theorem exists_colour (hsymm : ∀ {r q}, g.adjacent r q = true → g.adjacent q r = true)
    (horder : (before ++ r :: rest).Nodup) (hdegree : g.degree rest r < count) :
    r ∈ (colour count g (before ++ r :: rest)).map (·.1) := by
  induction before with
  | nil =>
    obtain ⟨hproper, hsub⟩ := proper_colour count hsymm (nodup_cons.1 horder).2
    rw [nil_append, colour]
    cases hfree : lowestFree count (takenColours g (colour count g rest) r) with
    | some c => exact mem_cons_self
    | none =>
      -- every colour is that of a neighbour, so there are at least as many of them
      have htaken := le_length_of_lowestFree hfree
      have hcoloured : (takenColours g (colour count g rest) r).length ≤ g.degree rest r := by
        rw [takenColours, length_filterMap_eq_countP, Graph.degree, countP_eq_length_filter,
          countP_eq_length_filter]
        refine (subperm_of_subset ((g.neighbours r).nodup_toList.filter _) fun q hq => ?_).length_le
        obtain ⟨hq, hlookup⟩ := mem_filter.1 hq
        obtain ⟨c, hc⟩ := Option.isSome_iff_exists.1 hlookup
        refine mem_filter.2 ⟨hsub q ?_, IdSet.contains_eq_true.2 hq⟩
        exact mem_map.2 ⟨_, (lookup_eq_some_iff_mem hproper.nodup).1 hc, rfl⟩
      omega
  | cons p before ih =>
    have hrest := ih (nodup_cons.1 horder).2
    rw [cons_append, colour]
    split
    · exact mem_cons_of_mem _ hrest
    · exact hrest

/-! ## Colours of intervals -/

section Intervals

variable {intervals : List Interval} {uses : Reg → Nat} {temporaries : IdSet}

theorem nodup_removalOrder (h : Indexed intervals) :
    (removalOrder count uses temporaries (.ofIntervals intervals)).Nodup :=
  (removalOrder_perm h).nodup_iff.2 h.nodup_nodes

theorem Indexed.proper (h : Indexed intervals) :
    (colour count (.ofIntervals intervals)
      (removalOrder count uses temporaries (.ofIntervals intervals))).Proper count
        (.ofIntervals intervals) :=
  (proper_colour count h.adjacent_symm (nodup_removalOrder h)).1

/-- **Colouring is proper and hopeful.** Let there be an interval for every register, with ascending
ranges. Registers are joined if and only if they differ and have a position in common. Every register
that has a position is taken out once. Registers with the same colour are not joined, and colours are
below `count`. A register that has less than `count` neighbours left when it is taken out gets a
colour; so if one is left without, all registers had at least `count` neighbours left when it was taken
out. If that is so, a temporary is taken out only if all are temporaries, and another register only if
it has the lowest number of uses for each neighbour left among those that are not temporaries, and the
lowest number among equals. -/
theorem colouring_hopeful (h : Indexed intervals) (temporaries : IdSet) (hcount : 1 ≤ count)
    {g order colours} (hg : g = Graph.ofIntervals intervals)
    (horder : order = removalOrder count (usesIn intervals) temporaries g)
    (hcolours : colours = colour count g order) :
    (∀ r q, g.adjacent r q = true ↔ r ≠ q ∧ ∃ p, Occupies intervals r p ∧ Occupies intervals q p) ∧
    (∀ r q, g.adjacent r q = g.adjacent q r) ∧
    order.Nodup ∧ (∀ r, r ∈ order ↔ ∃ p, Occupies intervals r p) ∧
    (∀ r c, colours.lookup r = some c → r ∈ order ∧ c < count ∧
      ∀ q, g.adjacent r q = true → colours.lookup q ≠ some c) ∧
    (∀ r, r ∈ uncoloured g colours ↔ r ∈ order ∧ colours.lookup r = none) ∧
    ∀ before r rest degree, order = before ++ r :: rest → degree = g.degree (r :: rest) →
      (degree r < count → ∃ c, colours.lookup r = some c) ∧
      (r ∈ uncoloured g colours → ∀ q ∈ r :: rest, count ≤ degree q) ∧
      ((∀ q ∈ r :: rest, count ≤ degree q) → (r ∈ temporaries → ∀ q ∈ rest, q ∈ temporaries) ∧
        (r ∉ temporaries → ∀ q ∈ rest, q ∉ temporaries →
          (usesIn intervals r : ℚ) / degree r < usesIn intervals q / degree q ∨
            (usesIn intervals r : ℚ) / degree r = usesIn intervals q / degree q ∧ r < q)) := by
  have hperm : order.Perm g.nodes := by
    rw [horder, hg]
    exact removalOrder_perm h
  have hnodup : order.Nodup := hperm.nodup_iff.2 (hg ▸ h.nodup_nodes)
  have hadjacent : ∀ r q, g.adjacent r q = true ↔ _ := fun r q => hg ▸ h.adjacent_iff
  have hsymm : ∀ {r q}, g.adjacent r q = true → g.adjacent q r = true := hg ▸ h.adjacent_symm
  obtain ⟨hproper, hsub⟩ := proper_colour count hsymm hnodup
  rw [← hcolours] at hproper hsub
  have huncoloured : ∀ r, r ∈ uncoloured g colours ↔ r ∈ order ∧ colours.lookup r = none :=
    fun r => by rw [mem_uncoloured, ← hperm.mem_iff, ← lookup_eq_none_iff_not_mem]
  refine ⟨hadjacent, fun r q => Bool.eq_iff_iff.2 ⟨hsymm, hsymm⟩, hnodup, fun r => ?_,
    fun r c hc => ?_, huncoloured, fun before r rest degree heq hdegree => ?_⟩
  · rw [hperm.mem_iff, hg, h.mem_nodes]
  · have hmem := (lookup_eq_some_iff_mem hproper.nodup).1 hc
    refine ⟨hsub r (mem_map.2 ⟨_, hmem, rfl⟩), hproper.lt hmem, fun q hq hc' => ?_⟩
    exact hproper.apart hmem ((lookup_eq_some_iff_mem hproper.nodup).1 hc')
      ((hadjacent r q).1 hq).1 hq
  · have hself : degree r = g.degree rest r := by
      rw [hdegree, Graph.degree, countP_cons_of_neg fun hr => ((hadjacent r r).1 hr).1 rfl]
      rfl
    have hcoloured : degree r < count → r ∉ uncoloured g colours := by
      intro hlt hr
      refine (mem_uncoloured.1 hr).2 ?_
      rw [hcolours, heq]
      exact exists_colour hsymm (heq ▸ hnodup) (hself ▸ hlt)
    have hspec := removalOrder_spec h (hg ▸ horder ▸ heq) (hg ▸ hdegree)
    refine ⟨fun hlt => ?_, fun hr => ?_, fun hall => ?_⟩
    · refine Option.ne_none_iff_exists'.1 fun hnone => hcoloured hlt ((huncoloured r).2 ?_)
      exact ⟨heq ▸ mem_append_right _ mem_cons_self, hnone⟩
    · exact (hspec.resolve_left fun hlt => hcoloured hlt hr).1
    · obtain ⟨-, hspec⟩ := hspec.resolve_left (Nat.not_lt.2 (hall r mem_cons_self))
      refine ⟨fun hr q hq => ?_, fun hr q hq hq' => ?_⟩
      · exact hspec.resolve_left (fun hspec => hspec.1 hr) q (mem_cons_of_mem r hq)
      · have hspec := hspec.resolve_right fun hall => hr (hall r mem_cons_self)
        refine (hspec.2 hcount q (mem_cons_of_mem r hq) hq').imp_right fun hnext => ?_
        refine ⟨hnext.1, Nat.lt_of_le_of_ne hnext.2 ?_⟩
        rintro rfl
        exact (nodup_cons.1 (nodup_append.1 (heq ▸ hnodup)).2.1).1 hq

/-- Three registers that are live together, of which the second is used least. -/
def triangle : List Interval := [⟨0, [⟨0, 6⟩], 4⟩, ⟨1, [⟨1, 6⟩], 1⟩, ⟨2, [⟨2, 6⟩], 3⟩]

/-- With two colours the third register is left without one, as the second is a temporary. -/
theorem colouring_hopeful_triangle :
    let g := Graph.ofIntervals triangle
    let order := removalOrder 2 (usesIn triangle) (.ofList [1]) g
    Indexed triangle ∧ order = [2, 0, 1] ∧ uncoloured g (colour 2 g order) = [2] ∧
      (∀ q ∈ [2, 0, 1], 2 ≤ g.degree [2, 0, 1] q) ∧
      (usesIn triangle 2 : ℚ) / g.degree [2, 0, 1] 2 < usesIn triangle 0 / g.degree [2, 0, 1] 0 := by
  intro g order
  have h : Indexed triangle := by
    refine ⟨rfl, fun i hi => ?_⟩
    simp only [triangle, mem_cons, not_mem_nil, or_false] at hi
    rcases hi with rfl | rfl | rfl <;> exact ⟨pairwise_singleton _ _, by simp⟩
  have horder : order = [2, 0, 1] := by decide +kernel
  have hrest : uncoloured g (colour 2 g order) = [2] := by decide +kernel
  obtain ⟨-, -, -, -, -, -, hspec⟩ := colouring_hopeful h (.ofList [1]) (Nat.le_succ 1) rfl rfl rfl
  obtain ⟨-, hstuck, hcheap⟩ := hspec [] 2 [0, 1] _ horder rfl
  have hall := hstuck (hrest ▸ mem_singleton_self 2)
  refine ⟨h, horder, hrest, hall, ?_⟩
  exact ((hcheap hall).2 (by decide) 0 (by decide) (by decide)).resolve_right fun hle =>
    Nat.not_lt_zero 2 hle.2

end Intervals

/-! ## The placement of a colouring -/

section Placing

variable {g : Graph} {colours : Colouring} {slots : Nat}

/-- Where a register is placed: by its colour, or in a slot of its own. -/
theorem get?_placeColours (hproper : colours.Proper count g) (hnodes : g.nodes.Nodup) :
    (placeColours colours (uncoloured g colours) slots).get? r = some l ↔
      (∃ c, (r, c) ∈ colours ∧ l = .machine c) ∨
        ∃ i, (uncoloured g colours)[i]? = some r ∧ l = .stack (slots + i) := by
  let places : List (Reg × Location) := (colours.map fun e => (e.1, .machine e.2)) ++
    ((uncoloured g colours).zipIdx slots).map fun e => (e.1, .stack e.2)
  have hkeys : places.map (·.1) = colours.map (·.1) ++ uncoloured g colours := by
    rw [map_append, map_map, map_map]
    exact congrArg _ (zipIdx_map_fst slots _)
  have hnodup : (places.map (·.1)).Nodup := by
    rw [hkeys]
    refine nodup_append'.2 ⟨hproper.nodup, hnodes.filter _, fun q hq hq' => ?_⟩
    exact (mem_uncoloured.1 hq').2 hq
  change (Placement.ofList places).get? r = some l ↔ _
  rw [Placement.get?_ofList hnodup, mem_append]
  simp only [mem_map, Prod.exists, Prod.mk.injEq, mk_mem_zipIdx_iff_le_and_getElem?_sub]
  constructor
  · rintro (⟨r, c, hmem, rfl, rfl⟩ | ⟨r, slot, ⟨hle, hget⟩, rfl, rfl⟩)
    · exact .inl ⟨c, hmem, rfl⟩
    · exact .inr ⟨slot - slots, hget, by rw [Nat.add_sub_cancel' hle]⟩
  · rintro (⟨c, hmem, rfl⟩ | ⟨i, hget, rfl⟩)
    · exact .inl ⟨r, c, hmem, rfl, rfl⟩
    · refine .inr ⟨r, slots + i, ⟨Nat.le_add_right slots i, ?_⟩, rfl, rfl⟩
      rwa [Nat.add_sub_cancel_left]

/-- The placement of a colouring stays within the machine and the slots from `slots` on. -/
theorem tidy_placeColours (hproper : colours.Proper count g) (hnodes : g.nodes.Nodup) :
    (placeColours colours (uncoloured g colours) slots).Tidy count
      (slots + (uncoloured g colours).length) := by
  constructor
  · intro r k h
    obtain ⟨c, hmem, ⟨⟩⟩ | ⟨i, -, ⟨⟩⟩ := (get?_placeColours hproper hnodes).1 h
    exact hproper.lt hmem
  · intro r n h
    obtain ⟨c, -, ⟨⟩⟩ | ⟨i, hget, ⟨⟩⟩ := (get?_placeColours hproper hnodes).1 h
    exact Nat.add_lt_add_left (List.getElem?_eq_some_iff.1 hget).1 slots
  · intro r q n h h'
    obtain ⟨c, -, ⟨⟩⟩ | ⟨i, hget, ⟨⟩⟩ := (get?_placeColours hproper hnodes).1 h
    obtain ⟨c, -, ⟨⟩⟩ | ⟨j, hget', hl⟩ := (get?_placeColours hproper hnodes).1 h'
    have hij : i = j := Nat.add_left_cancel (Location.stack.inj hl)
    exact Option.some.inj (hget.symm.trans (hij ▸ hget'))

theorem slots_le_of_get?_placeColours (hproper : colours.Proper count g) (hnodes : g.nodes.Nodup)
    (h : (placeColours colours (uncoloured g colours) slots).get? r = some (.stack n)) :
    slots ≤ n := by
  obtain ⟨c, -, ⟨⟩⟩ | ⟨i, -, ⟨⟩⟩ := (get?_placeColours hproper hnodes).1 h
  exact Nat.le_add_right slots i

end Placing

/-! ## Rounds -/

variable {s : Round} {slots : Nat}

theorem proper_roundColour :
    (s.colour count).1.Proper count (Graph.ofIntervals s.function.intervals) :=
  (indexed_intervals s.function).proper

theorem mem_nodes_intervals :
    r ∈ (Graph.ofIntervals f.intervals).nodes ↔ r < f.registers.length ∧ ∃ n, f.Holds r n := by
  simp only [(indexed_intervals f).mem_nodes, occupies_intervals, exists_and_left]

/-- What a round leaves without a colour holds a value somewhere. -/
theorem holds_of_mem_roundColour (h : r ∈ (s.colour count).2) :
    r < s.function.registers.length ∧ ∃ n, s.function.Holds r n :=
  mem_nodes_intervals.1 (mem_uncoloured.1 h).1

theorem tidy_roundColour (count slots : Nat) (s : Round) :
    (placeColours (s.colour count).1 (s.colour count).2 slots).Tidy count
      (slots + (s.colour count).2.length) :=
  tidy_placeColours proper_roundColour (indexed_intervals _).nodup_nodes

/-- **The places that a round of colouring finds fit.** -/
theorem fits_roundColour :
    (placeColours (s.colour count).1 (s.colour count).2 slots).Fits s.function count := by
  have hget : ∀ {r l}, (placeColours (s.colour count).1 (s.colour count).2 slots).get? r = some l ↔
      _ := get?_placeColours proper_roundColour (indexed_intervals _).nodup_nodes
  refine (tidy_roundColour count slots s).fits (fun r hr n hn => ?_) ?_
  · by_cases hcoloured : r ∈ (s.colour count).1.map (·.1)
    · obtain ⟨⟨_, c⟩, hmem, rfl⟩ := mem_map.1 hcoloured
      exact ⟨_, hget.2 (.inl ⟨c, hmem, rfl⟩)⟩
    · have hnode := mem_nodes_intervals.2 ⟨hr, n, hn⟩
      obtain ⟨i, hi⟩ := mem_iff_getElem?.1 (mem_uncoloured.2 ⟨hnode, hcoloured⟩)
      exact ⟨_, hget.2 (.inr ⟨i, hi, rfl⟩)⟩
  · intro r hr q hq hne n hrn hqn k hrk hqk
    obtain ⟨c, hmem, ⟨⟩⟩ | ⟨_, _, ⟨⟩⟩ := hget.1 hrk
    obtain ⟨c, hmem', ⟨⟩⟩ | ⟨_, _, ⟨⟩⟩ := hget.1 hqk
    refine proper_roundColour.apart hmem hmem' hne ((indexed_intervals _).adjacent_iff.2 ?_)
    exact ⟨hne, n, occupies_intervals.2 ⟨hr, hrn⟩, occupies_intervals.2 ⟨hq, hqn⟩⟩

end Sluice
