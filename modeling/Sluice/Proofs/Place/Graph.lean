import Mathlib.Algebra.Order.Field.Basic
import Mathlib.Data.Prod.Lex
import Mathlib.Data.Rat.Cast.Order
import Sluice.Place.Allocate
import Sluice.Proofs.Live.Interval
import Sluice.Proofs.Sorted

/-!
# The interference graph and the order of removal

Two registers are joined in the graph if and only if their intervals have a position in
common (`adjacent_ofIntervals`). While registers are taken out, the graph stays the one
that the registers left make up (`Graph.Induced`), so what is known of a register when
it is taken out is known of the registers that come after it in the order
(`removals_spec`).
-/

namespace Sluice

open List
open Flow (Function Interval Reg intervalOf Covered Ascending)

/-! ## Interference -/

/-- **Intervals by register:** each is that of the register with its number, and its ranges follow
each other. -/
structure Indexed (intervals : List Interval) : Prop where
  reg : intervals.map Interval.reg = List.range intervals.length
  ascending : ∀ i ∈ intervals, Ascending 0 i.ranges

/-- The interval of a register has a position. -/
def Occupies (intervals : List Interval) (r : Reg) (p : Nat) : Prop :=
  ∃ i ∈ intervals, i.reg = r ∧ Covered i.ranges p

namespace Indexed

variable {intervals : List Interval} {r q : Reg}

theorem nonempty_iff (h : Indexed intervals) (hi : i ∈ intervals) :
    (!i.isEmpty) = true ↔ ∃ p, Covered i.ranges p := by
  rw [Bool.not_eq_true', ← Bool.not_eq_true, Flow.isEmpty_iff (h.ascending i hi), not_forall_not]

theorem mem_nodes (h : Indexed intervals) :
    r ∈ (Graph.ofIntervals intervals).nodes ↔ ∃ p, Occupies intervals r p := by
  simp only [Graph.nodes, Graph.ofIntervals, map_map, mem_map, mem_filter, Function.comp_apply]
  constructor
  · rintro ⟨i, ⟨hi, hne⟩, hr⟩
    obtain ⟨p, hp⟩ := (h.nonempty_iff hi).1 hne
    exact ⟨p, i, hi, hr, hp⟩
  · rintro ⟨p, i, hi, hr, hp⟩
    exact ⟨i, ⟨hi, (h.nonempty_iff hi).2 ⟨p, hp⟩⟩, hr⟩

/-- Nodes are listed by ascending number. -/
theorem pairwise_nodes (h : Indexed intervals) :
    (Graph.ofIntervals intervals).nodes.Pairwise (· < ·) := by
  have hnodes : (Graph.ofIntervals intervals).nodes =
      (intervals.filter fun i => !i.isEmpty).map Interval.reg := by
    rw [Graph.nodes, Graph.ofIntervals, map_map]
    rfl
  have hsublist : ((intervals.filter fun i => !i.isEmpty).map Interval.reg).Sublist
      (intervals.map Interval.reg) := filter_sublist.map _
  exact hnodes ▸ (h.reg ▸ pairwise_lt_range).sublist hsublist

theorem nodup_nodes (h : Indexed intervals) : (Graph.ofIntervals intervals).nodes.Nodup :=
  h.pairwise_nodes.imp Nat.ne_of_lt

theorem interferes_iff (h : Indexed intervals) (hi : i ∈ intervals) (hj : j ∈ intervals) :
    i.interferes j = true ↔ i.reg ≠ j.reg ∧ ∃ p, Covered i.ranges p ∧ Covered j.ranges p := by
  have hswap : (∃ p, Covered j.ranges p ∧ Covered i.ranges p) ↔
      ∃ p, Covered i.ranges p ∧ Covered j.ranges p := by simp only [and_comm]
  simp only [Interval.interferes, Bool.or_eq_true, Bool.and_eq_true, decide_eq_true_eq,
    Flow.overlaps_iff (h.ascending i hi) (h.ascending j hj),
    Flow.overlaps_iff (h.ascending j hj) (h.ascending i hi), hswap, ← or_and_right, Nat.lt_or_gt]

end Indexed

theorem Graph.mem_neighbours {g : Graph} (hnodes : g.nodes.Nodup) :
    q ∈ g.neighbours r ↔ ∃ others, (r, others) ∈ g ∧ q ∈ others := by
  simp only [← lookup_eq_some_iff_mem hnodes, neighbours]
  cases g.lookup r <;> simp

/-- **Registers are joined if and only if their intervals have a position in common.** -/
theorem Indexed.adjacent_iff (h : Indexed intervals) :
    (Graph.ofIntervals intervals).adjacent r q = true ↔
      r ≠ q ∧ ∃ p, Occupies intervals r p ∧ Occupies intervals q p := by
  rw [Graph.adjacent, IdSet.contains_eq_true, Graph.mem_neighbours h.nodup_nodes]
  simp only [Graph.ofIntervals, mem_map, mem_filter, Prod.mk.injEq]
  constructor
  · rintro ⟨_, ⟨i, ⟨hi, -⟩, rfl, rfl⟩, hq⟩
    simp only [IdSet.mem_ofList, mem_map, mem_filter] at hq
    obtain ⟨j, ⟨⟨hj, -⟩, hmeets⟩, rfl⟩ := hq
    obtain ⟨hne, p, hip, hjp⟩ := (h.interferes_iff hi hj).1 hmeets
    exact ⟨hne, p, ⟨i, hi, rfl, hip⟩, ⟨j, hj, rfl, hjp⟩⟩
  · rintro ⟨hne, p, ⟨i, hi, rfl, hip⟩, ⟨j, hj, rfl, hjp⟩⟩
    refine ⟨_, ⟨i, ⟨hi, (h.nonempty_iff hi).2 ⟨p, hip⟩⟩, rfl, rfl⟩, ?_⟩
    simp only [IdSet.mem_ofList, mem_map, mem_filter]
    exact ⟨j, ⟨⟨hj, (h.nonempty_iff hj).2 ⟨p, hjp⟩⟩,
      (h.interferes_iff hi hj).2 ⟨hne, p, hip, hjp⟩⟩, rfl⟩

theorem Indexed.adjacent_symm (h : Indexed intervals)
    (hrq : (Graph.ofIntervals intervals).adjacent r q = true) :
    (Graph.ofIntervals intervals).adjacent q r = true := by
  obtain ⟨hne, p, hr, hq⟩ := h.adjacent_iff.1 hrq
  exact h.adjacent_iff.2 ⟨hne.symm, p, hq, hr⟩

theorem indexed_intervals (f : Function Reg) : Indexed f.intervals where
  reg := by simp [Function.intervals, Function.comp_def, intervalOf]
  ascending := by
    intro i hi
    obtain ⟨r, -, rfl⟩ := mem_map.1 hi
    exact (Flow.intervalOf_spec f.params f.points r).1.mono (Nat.zero_le 1)

theorem occupies_intervals {f : Function Reg} :
    Occupies f.intervals r p ↔ r < f.registers.length ∧ f.Holds r p := by
  simp only [Occupies, Function.intervals, mem_map, mem_range]
  constructor
  · rintro ⟨_, ⟨q, hq, rfl⟩, rfl, hp⟩
    exact ⟨hq, ((Flow.intervalOf_spec f.params f.points q).2 p).1 hp⟩
  · rintro ⟨hr, hp⟩
    exact ⟨_, ⟨r, hr, rfl⟩, rfl, ((Flow.intervalOf_spec f.params f.points r).2 p).2 hp⟩

/-! ## The cheapest node -/

section Cheapest

variable (uses : Reg → Nat)

/-- Uses for each neighbour, and among equals the number of the register. -/
def cost (node : Reg × IdSet) : ℚ ×ₗ ℕ :=
  toLex ((uses node.1 : ℚ) / node.2.size, node.1)

/-- Comparing without dividing compares costs, as long as there are neighbours. -/
theorem cost_cheaper_le (ha : 0 < a.2.size) (hb : 0 < b.2.size) (hab : a.1 < b.1) :
    cost uses (cheaper uses a b) ≤ cost uses a ∧ cost uses (cheaper uses a b) ≤ cost uses b := by
  have ha' : (0 : ℚ) < a.2.size := Nat.cast_pos.2 ha
  have hb' : (0 : ℚ) < b.2.size := Nat.cast_pos.2 hb
  have hlt : uses b.1 * a.2.size < uses a.1 * b.2.size ↔
      (uses b.1 : ℚ) / b.2.size < uses a.1 / a.2.size := by
    rw [div_lt_div_iff₀ hb' ha']
    exact_mod_cast Iff.rfl
  unfold cheaper
  split
  · rename_i h
    exact ⟨(Prod.Lex.toLex_lt_toLex.2 (.inl (hlt.1 h))).le, le_rfl⟩
  · rename_i h
    refine ⟨le_rfl, Prod.Lex.toLex_le_toLex.2 ?_⟩
    rcases (not_lt.1 (hlt.not.1 h)).lt_or_eq with h | h
    · exact .inl h
    · exact .inr ⟨h, hab.le⟩

theorem cheaper_eq (a b : Reg × IdSet) : cheaper uses a b = a ∨ cheaper uses a b = b := by
  unfold cheaper
  split <;> simp

variable {uses}

/-- The cheapest node is one of the nodes, and no other one costs less. -/
theorem cheapest?_spec {g : Graph} (h : cheapest? uses g = some node) :
    node ∈ g ∧ (g.nodes.Pairwise (· < ·) → (∀ x ∈ g, 0 < x.2.size) →
      ∀ x ∈ g, cost uses node ≤ cost uses x) := by
  cases g with
  | nil => cases h
  | cons a rest =>
    cases h
    induction rest generalizing a with
    | nil => simp
    | cons b rest ih =>
      obtain ⟨hmem, hle⟩ := ih (cheaper uses a b)
      have hpick := cheaper_eq uses a b
      refine ⟨?_, fun hsorted hpos => ?_⟩
      · rcases mem_cons.1 hmem with heq | hmem
        · rw [foldl_cons, heq]
          rcases hpick with hpick | hpick <;> simp [hpick]
        · exact mem_cons_of_mem a (mem_cons_of_mem b hmem)
      · obtain ⟨hab, hsorted⟩ := pairwise_cons.1 hsorted
        obtain ⟨ha, hrest⟩ := forall_mem_cons.1 hpos
        obtain ⟨hb, hpos⟩ := forall_mem_cons.1 hrest
        obtain ⟨hlea, hleb⟩ := cost_cheaper_le uses ha hb (hab b.1 mem_cons_self)
        have hfirst : (Graph.nodes (cheaper uses a b :: rest)).Pairwise (· < ·) ∧
            ∀ x ∈ cheaper uses a b :: rest, 0 < x.2.size := by
          rcases hpick with hpick | hpick <;> rw [hpick]
          · exact ⟨pairwise_cons.2 ⟨fun x hx => hab x (mem_cons_of_mem _ hx),
              (pairwise_cons.1 hsorted).2⟩, forall_mem_cons.2 ⟨ha, hpos⟩⟩
          · exact ⟨hsorted, hrest⟩
        obtain ⟨hself, hle⟩ := forall_mem_cons.1 (hle hfirst.1 hfirst.2)
        exact forall_mem_cons.2 ⟨hself.trans hlea, forall_mem_cons.2 ⟨hself.trans hleb, hle⟩⟩

end Cheapest

/-! ## Order of removal -/

/-- How many of some registers are joined to one. -/
def Graph.degree (g : Graph) (rs : List Reg) (r : Reg) : Nat :=
  rs.countP (g.adjacent r)

/-- **A graph that registers of another one make up:** each has the neighbours that are left. -/
structure Graph.Induced (g h : Graph) : Prop where
  sorted : h.nodes.Pairwise (· < ·)
  mem : ∀ x ∈ h, ∀ q, q ∈ x.2 ↔ q ∈ h.nodes ∧ g.adjacent x.1 q = true

namespace Graph.Induced

variable {g h : Graph}

theorem nodup (hind : Induced g h) : h.nodes.Nodup :=
  hind.sorted.imp Nat.ne_of_lt

theorem size_eq (hind : Induced g h) (hx : x ∈ h) (hperm : h.nodes.Perm rs) :
    x.2.size = g.degree rs x.1 := by
  have hsame : x.2.toList.Perm (h.nodes.filter (g.adjacent x.1)) := by
    rw [perm_ext_iff_of_nodup x.2.nodup_toList (hind.nodup.filter _)]
    exact fun q => (hind.mem x hx q).trans mem_filter.symm
  rw [degree, ← hperm.countP_eq, countP_eq_length_filter]
  exact hsame.length_eq

theorem nodes_remove (r : Reg) (h : Graph) : (h.remove r).nodes = h.nodes.filter (· ≠ r) := by
  rw [nodes, remove, map_map, nodes, filter_map]
  rfl

theorem remove (hind : Induced g h) (r : Reg) : Induced g (h.remove r) where
  sorted := nodes_remove r h ▸ hind.sorted.filter _
  mem := by
    intro x hx q
    obtain ⟨y, hy, rfl⟩ := mem_map.1 hx
    rw [IdSet.mem_erase, hind.mem y (mem_filter.1 hy).1, nodes_remove]
    simp [and_right_comm]

theorem perm_remove (hind : Induced g h) (hr : r ∈ h.nodes) :
    h.nodes.Perm (r :: (h.remove r).nodes) := by
  have herase : h.nodes.filter (· ≠ r) = h.nodes.erase r := by
    rw [hind.nodup.erase_eq_filter]
    exact filter_congr fun q _ => by grind
  rw [nodes_remove, herase]
  exact perm_cons_erase hr

end Graph.Induced

theorem Indexed.induced (h : Indexed intervals) :
    (Graph.ofIntervals intervals).Induced (Graph.ofIntervals intervals) where
  sorted := h.pairwise_nodes
  mem := by
    intro x hx q
    have hadjacent : q ∈ x.2 ↔ (Graph.ofIntervals intervals).adjacent x.1 q = true := by
      rw [Graph.adjacent, IdSet.contains_eq_true, Graph.neighbours,
        (lookup_eq_some_iff_mem h.nodup_nodes).2 hx, Option.getD_some]
    rw [hadjacent, iff_and_self]
    intro hq
    obtain ⟨-, p, -, hp⟩ := h.adjacent_iff.1 hq
    exact h.mem_nodes.2 ⟨p, hp⟩

section Removal

variable {count : Nat} {uses : Reg → Nat} {temporaries : IdSet} {g : Graph}

theorem exists_nextOut? (count : Nat) (uses : Reg → Nat) (temporaries : IdSet) {h : Graph}
    (hne : h ≠ []) :
    ∃ r, nextOut? count uses temporaries h = some r := by
  unfold nextOut?
  split
  · exact ⟨_, rfl⟩
  · split
    · exact ⟨_, rfl⟩
    · exact ⟨_, head?_eq_some_head (by simpa [Graph.nodes] using hne)⟩

/-- **What is taken out next:** a register with few neighbours, or else the cheapest one that is not
a temporary, or else a temporary. -/
theorem nextOut?_spec {h : Graph} (hsorted : h.nodes.Pairwise (· < ·))
    (hr : nextOut? count uses temporaries h = some r) :
    ∃ others, (r, others) ∈ h ∧ (others.size < count ∨ (∀ x ∈ h, count ≤ x.2.size) ∧
      (r ∉ temporaries ∧ (0 < count → ∀ x ∈ h, x.1 ∉ temporaries →
        cost uses (r, others) ≤ cost uses x) ∨ ∀ x ∈ h, x.1 ∈ temporaries)) := by
  unfold nextOut? at hr
  split at hr
  · rename_i q others hfind
    cases hr
    exact ⟨others, mem_of_find?_eq_some hfind, .inl (by simpa using find?_some hfind)⟩
  · rename_i hfind
    have hall : ∀ x ∈ h, count ≤ x.2.size := by simpa using hfind
    generalize hrest : (h.filter fun x => !temporaries.contains x.1) = rest at hr
    have hmem : ∀ x, x ∈ rest ↔ x ∈ h ∧ x.1 ∉ temporaries := by simp [← hrest, IdSet.contains]
    cases hcheap : cheapest? uses rest with
    | some node =>
      rw [hcheap] at hr
      cases hr
      obtain ⟨hnode, hle⟩ := cheapest?_spec hcheap
      obtain ⟨hnode, htemp⟩ := (hmem _).1 hnode
      refine ⟨node.2, hnode, .inr ⟨hall, .inl ⟨htemp, fun hcount x hx ht => ?_⟩⟩⟩
      refine hle ?_ (fun y hy => ?_) x ((hmem x).2 ⟨hx, ht⟩)
      · exact hrest ▸ hsorted.sublist (filter_sublist.map _)
      · exact Nat.lt_of_lt_of_le hcount (hall y ((hmem y).1 hy).1)
    | none =>
      rw [hcheap] at hr
      obtain ⟨node, hnode, rfl⟩ := mem_map.1 (mem_of_head? hr)
      refine ⟨node.2, hnode, .inr ⟨hall, .inr fun x hx => ?_⟩⟩
      cases rest with
      | nil => exact not_not.1 fun ht => absurd ((hmem x).2 ⟨hx, ht⟩) not_mem_nil
      | cons _ _ => cases hcheap

/-- **Every register is taken out once**, each from the graph that it makes up with those taken out
later. -/
theorem removals_spec : ∀ {size} {h : Graph}, g.Induced h → h.length = size →
    (removals count uses temporaries size h).Perm h.nodes ∧
      ∀ {before r rest}, removals count uses temporaries size h = before ++ r :: rest →
        ∃ h', g.Induced h' ∧ h'.nodes.Perm (r :: rest) ∧
          nextOut? count uses temporaries h' = some r := by
  intro size
  induction size with
  | zero =>
    intro h _ hlen
    rw [length_eq_zero_iff.1 hlen]
    exact ⟨.nil, fun heq => absurd heq (by simp [removals])⟩
  | succ size ih =>
    intro h hind hlen
    obtain ⟨r, hr⟩ :=
      exists_nextOut? count uses temporaries (ne_nil_of_length_eq_add_one hlen)
    obtain ⟨others, hmem, -⟩ := nextOut?_spec hind.sorted hr
    have hperm := hind.perm_remove (mem_map.2 ⟨_, hmem, rfl⟩)
    have hlen' : (h.remove r).length = size := by
      have := hperm.length_eq
      simp only [Graph.nodes, length_map, length_cons] at this
      omega
    obtain ⟨hrest, hstages⟩ := ih (hind.remove r) hlen'
    have hall : (r :: removals count uses temporaries size (h.remove r)).Perm h.nodes :=
      (hrest.cons r).trans hperm.symm
    rw [removals, hr]
    refine ⟨hall, fun {before q rest} heq => ?_⟩
    cases before with
    | nil =>
      obtain ⟨rfl, rfl⟩ := cons.inj heq
      exact ⟨h, hind, hall.symm, hr⟩
    | cons p before => exact hstages (cons.inj heq).2

theorem removalOrder_perm (h : Indexed intervals) :
    (removalOrder count uses temporaries (Graph.ofIntervals intervals)).Perm
      (Graph.ofIntervals intervals).nodes :=
  (removals_spec h.induced rfl).1

/-- **When a register is taken out**, it has few neighbours left, or all that are left have many. Then
it is the cheapest that is not a temporary, unless all are temporaries. -/
theorem removalOrder_spec (h : Indexed intervals)
    (horder : removalOrder count uses temporaries (Graph.ofIntervals intervals) =
      before ++ r :: rest) (hdegree : degree = (Graph.ofIntervals intervals).degree (r :: rest)) :
    degree r < count ∨ (∀ q ∈ r :: rest, count ≤ degree q) ∧
      (r ∉ temporaries ∧ (0 < count → ∀ q ∈ r :: rest, q ∉ temporaries →
        (uses r : ℚ) / degree r < uses q / degree q ∨
          (uses r : ℚ) / degree r = uses q / degree q ∧ r ≤ q) ∨
        ∀ q ∈ r :: rest, q ∈ temporaries) := by
  obtain ⟨h', hind, hperm, hr⟩ := (removals_spec h.induced rfl).2 horder
  obtain ⟨others, hmem, hr⟩ := nextOut?_spec hind.sorted hr
  have hsize : ∀ x ∈ h', x.2.size = degree x.1 := fun x hx => hdegree ▸ hind.size_eq hx hperm
  have hnode : ∀ q ∈ r :: rest, ∃ x ∈ h', x.1 = q := fun q hq =>
    mem_map.1 (hperm.mem_iff.2 hq)
  refine hr.imp (fun hlt => hsize _ hmem ▸ hlt) fun ⟨hall, hr⟩ => ⟨fun q hq => ?_, ?_⟩
  · obtain ⟨x, hx, rfl⟩ := hnode q hq
    exact hsize x hx ▸ hall x hx
  · rcases hr with ⟨htemp, hcheap⟩ | hall
    · refine .inl ⟨htemp, fun hcount q hq hq' => ?_⟩
      obtain ⟨x, hx, rfl⟩ := hnode q hq
      have hle := Prod.Lex.toLex_le_toLex.1 (hcheap hcount x hx hq')
      rwa [hsize x hx, hsize _ hmem] at hle
    · refine .inr fun q hq => ?_
      obtain ⟨x, hx, rfl⟩ := hnode q hq
      exact hall x hx

end Removal

end Sluice
