import Sluice.Live.Sets
import Sluice.Proofs.Flow.WellFormed

/-!
# The order of blocks

A depth-first walk adds to the blocks that it is done with those that it finds, in
front (`Function.Explores`). What it finds is closed under edges up to what was seen
before, and of two blocks with an edge between them the source comes first unless the
target leads back to it. This composes along the successors of a block, and it goes on
when the walk leaves the block. So the blocks that control reaches are laid out in
reverse postorder, and the others behind them (`layout_reversePostorder`).
-/

namespace Sluice.Flow

open List
open Relation (ReflTransGen)

variable {f : Function Reg} {w w1 w2 : Walk} {labels more found found' : List Label} {l k : Label}

/-- **A walk on from some blocks finds others:** none of them was seen before, and they are all
that it has seen since. -/
structure Function.Explores (f : Function Reg) (w : Walk) (labels : List Label) (w1 : Walk)
    (found : List Label) : Prop where
  done : w1.done = found ++ w.done
  seen : ∀ k, k ∈ w1.seen ↔ k ∈ found ∨ k ∈ w.seen
  nodup : found.Nodup
  fresh : ∀ k ∈ found, k ∉ w.seen
  starts : ∀ l ∈ labels, l ∈ w1.seen
  led : ∀ k ∈ found, ∃ l ∈ labels, ReflTransGen f.Leads l k
  edges : ∀ k ∈ found, ∀ l ∈ f.successors k,
    l ∈ w.seen ∨ l ∈ found ∧ ([k, l].Sublist found ∨ ReflTransGen f.Leads l k)

namespace Function.Explores

theorem nothing (h : ∀ l ∈ labels, l ∈ w.seen) : f.Explores w labels w [] :=
  ⟨rfl, by simp, .nil, by simp, h, by simp, by simp⟩

theorem append (h : f.Explores w labels w1 found) (h' : f.Explores w1 more w2 found') :
    f.Explores w (labels ++ more) w2 (found' ++ found) where
  done := by rw [h'.done, h.done, append_assoc]
  seen k := by rw [h'.seen, h.seen, mem_append, or_assoc]
  nodup := by
    refine nodup_append.2 ⟨h'.nodup, h.nodup, fun k hk l hl heq => ?_⟩
    exact h'.fresh k hk ((h.seen k).2 (.inl (heq ▸ hl)))
  fresh := forall_mem_append.2
    ⟨fun k hk hseen => h'.fresh k hk ((h.seen k).2 (.inr hseen)), h.fresh⟩
  starts := forall_mem_append.2
    ⟨fun l hl => (h'.seen l).2 (.inr (h.starts l hl)), h'.starts⟩
  led := by
    refine forall_mem_append.2 ⟨fun k hk => ?_, fun k hk => ?_⟩
    · obtain ⟨l, hl, hleads⟩ := h'.led k hk
      exact ⟨l, mem_append_right _ hl, hleads⟩
    · obtain ⟨l, hl, hleads⟩ := h.led k hk
      exact ⟨l, mem_append_left _ hl, hleads⟩
  edges := by
    refine forall_mem_append.2 ⟨fun k hk l hl => ?_, fun k hk l hl => ?_⟩
    · rcases h'.edges k hk l hl with hseen | ⟨hfound, horder⟩
      · -- what was found first comes behind all that was found later
        rcases (h.seen l).1 hseen with hfound | hseen
        · refine .inr ⟨mem_append_right _ hfound, .inl ?_⟩
          exact .append (singleton_sublist.2 hk) (singleton_sublist.2 hfound)
        · exact .inl hseen
      · exact .inr ⟨mem_append_left _ hfound,
          horder.imp_left fun h => h.trans (sublist_append_left ..)⟩
    · refine (h.edges k hk l hl).imp_right fun ⟨hfound, horder⟩ => ?_
      exact ⟨mem_append_right _ hfound, horder.imp_left fun h => h.trans (sublist_append_right ..)⟩

/-- A walk leaves a block when it has been to its successors. -/
theorem leave (hl : l ∉ w.seen)
    (h : f.Explores { w with seen := w.seen.insert l } (f.successors l) w1 found) :
    f.Explores w [l] { w1 with done := l :: w1.done } (l :: found) where
  done := congrArg (l :: ·) h.done
  seen k := by rw [h.seen, IdSet.mem_insert, mem_cons, or_left_comm, or_assoc]
  nodup := nodup_cons.2
    ⟨fun hfound => h.fresh l hfound (IdSet.mem_insert.2 (.inl rfl)), h.nodup⟩
  fresh := forall_mem_cons.2
    ⟨hl, fun k hk hseen => h.fresh k hk (IdSet.mem_insert.2 (.inr hseen))⟩
  starts := forall_mem_singleton.2 ((h.seen l).2 (.inr (IdSet.mem_insert.2 (.inl rfl))))
  led := by
    refine forall_mem_cons.2 ⟨⟨l, mem_cons_self, .refl⟩, fun k hk => ?_⟩
    obtain ⟨m, hm, hleads⟩ := h.led k hk
    exact ⟨l, mem_cons_self, .head hm hleads⟩
  edges := by
    refine forall_mem_cons.2 ⟨fun k hk => ?_, fun k hk m hm => ?_⟩
    · rcases (h.seen k).1 (h.starts k hk) with hfound | hseen
      · refine .inr ⟨mem_cons_of_mem _ hfound, .inl ?_⟩
        exact .cons_cons l (singleton_sublist.2 hfound)
      · rcases IdSet.mem_insert.1 hseen with rfl | hseen
        · exact .inr ⟨mem_cons_self, .inr .refl⟩
        · exact .inl hseen
    · rcases h.edges k hk m hm with hseen | ⟨hfound, horder⟩
      · rcases IdSet.mem_insert.1 hseen with rfl | hseen
        · -- an edge back to the block that everything was found from
          obtain ⟨n, hn, hleads⟩ := h.led k hk
          exact .inr ⟨mem_cons_self, .inr (.head hn hleads)⟩
        · exact .inl hseen
      · exact .inr ⟨mem_cons_of_mem _ hfound, horder.imp_left fun h => h.cons _⟩

end Function.Explores

namespace Function.WellFormed

variable (hf : f.WellFormed)

include hf

/-- Control stays within the function. -/
theorem lt_of_leads (hl : l < f.blocks.length) (h : ReflTransGen f.Leads l k) :
    k < f.blocks.length := by
  cases h with
  | refl => exact hl
  | tail _ hk => exact hf.successor_lt hk

/-- Going on with a walk leaves enough depth: blocks that are seen need none. -/
theorem walks_on (hlabels : ∀ l ∈ labels, l < f.blocks.length)
    (hseen : ∀ k ∈ w.seen, k < f.blocks.length) (hdepth : f.blocks.length < w.seen.size + depth)
    (h : f.Explores w labels w1 found) :
    (∀ k ∈ w1.seen, k < f.blocks.length) ∧ f.blocks.length < w1.seen.size + depth := by
  refine ⟨fun k hk => ?_, ?_⟩
  · rcases (h.seen k).1 hk with hk | hk
    · obtain ⟨l, hl, hleads⟩ := h.led k hk
      exact hf.lt_of_leads (hlabels l hl) hleads
    · exact hseen k hk
  · have := IdSet.size_le_size fun k hk => (h.seen k).2 (.inr hk)
    omega

/-- **A walk explores what it is sent to**, if it may go as deep as there are blocks to see. -/
theorem walk_explores : ∀ (depth : Nat) {w l}, l < f.blocks.length →
    (∀ k ∈ w.seen, k < f.blocks.length) → f.blocks.length < w.seen.size + depth →
    ∃ found, f.Explores w [l] (f.walk depth w l) found := by
  intro depth
  induction depth with
  | zero =>
    intro w l _ hseen hdepth
    have := IdSet.size_le_of_lt hseen
    omega
  | succ depth ih =>
    have hfold : ∀ (labels : List Label) {w : Walk}, (∀ l ∈ labels, l < f.blocks.length) →
        (∀ k ∈ w.seen, k < f.blocks.length) → f.blocks.length < w.seen.size + depth →
        ∃ found, f.Explores w labels (labels.foldl (f.walk depth) w) found := by
      intro labels
      induction labels with
      | nil => exact fun _ _ _ => ⟨[], .nothing (forall_mem_nil _)⟩
      | cons l labels ihl =>
        intro w hlabels hseen hdepth
        obtain ⟨hl, hlabels⟩ := forall_mem_cons.1 hlabels
        obtain ⟨found, hfound⟩ := ih hl hseen hdepth
        obtain ⟨hseen, hdepth⟩ :=
          hf.walks_on (forall_mem_singleton.2 hl) hseen hdepth hfound
        obtain ⟨found', hfound'⟩ := ihl hlabels hseen hdepth
        exact ⟨_, hfound.append hfound'⟩
    intro w l hl hseen hdepth
    simp only [Function.walk]
    split
    · exact ⟨[], .nothing (forall_mem_singleton.2 (IdSet.contains_eq_true.1 ‹_›))⟩
    · rename_i hnew
      rw [IdSet.contains_eq_true] at hnew
      have hgrows : w.seen.size < (w.seen.insert l).size :=
        IdSet.size_lt_size (fun k hk => IdSet.mem_insert.2 (.inr hk))
          fun heq => hnew (heq ▸ IdSet.mem_insert.2 (.inl rfl))
      obtain ⟨found, hfound⟩ := hfold (f.successors l) (w := { w with seen := w.seen.insert l })
        (fun k hk => hf.successor_lt hk)
        (fun k hk => (IdSet.mem_insert.1 hk).elim (· ▸ hl) (hseen k)) (by simp only; omega)
      exact ⟨_, hfound.leave hnew⟩

/-- **The layout is what a walk from the entry finds**, then the blocks that control does not
reach. -/
theorem layout_eq : ∃ found, f.layout =
      found ++ (List.range f.blocks.length).filter (fun l => l ∉ f.reachable) ∧
    f.Explores {} [entry] (f.walk (f.blocks.length + 1) {} entry) found ∧
    (∀ l, l ∈ found ↔ l ∈ f.reachable) ∧ found.head? = some entry := by
  obtain ⟨found, h⟩ := hf.walk_explores (f.blocks.length + 1) (w := {}) (l := entry) hf.nonempty
    (fun k hk => absurd hk IdSet.not_mem_empty) (by omega)
  have hseen : ∀ l, l ∈ (f.walk (f.blocks.length + 1) {} entry).seen ↔ l ∈ found := fun l => by
    rw [h.seen, or_iff_left IdSet.not_mem_empty]
  have hreach : ∀ l, l ∈ found ↔ l ∈ f.reachable := by
    intro l
    rw [hf.mem_reachable]
    constructor
    · intro hl
      obtain ⟨k, hk, hleads⟩ := h.led l hl
      exact mem_singleton.1 hk ▸ hleads
    · intro hleads
      induction hleads with
      | refl => exact (hseen entry).1 (h.starts entry mem_cons_self)
      | tail _ hl ih => exact ((h.edges _ ih _ hl).resolve_left IdSet.not_mem_empty).1
  refine ⟨found, ?_, h, hreach, ?_⟩
  · have hne : ¬f.blocks.isEmpty = true := by
      rw [List.isEmpty_iff]
      exact ne_nil_of_length_pos hf.nonempty
    have hdone : (f.walk (f.blocks.length + 1) {} entry).done = found := by
      rw [h.done, append_nil]
    simp only [Function.layout, if_neg hne, hdone]
    refine congrArg (found ++ ·) (filter_congr fun l _ => ?_)
    rw [IdSet.contains, ← decide_not]
    exact decide_eq_decide.2 (not_congr ((hseen l).trans (hreach l)))
  · have hdone := h.done
    rw [append_nil, Function.walk, if_neg (by simp)] at hdone
    rw [← hdone]
    rfl

/-- **The blocks of a function are laid out.** -/
theorem mem_layout : l ∈ f.layout ↔ l < f.blocks.length := by
  obtain ⟨found, heq, h, hreach, -⟩ := hf.layout_eq
  rw [heq, mem_append, hreach, mem_filter, mem_range, decide_eq_true_eq]
  refine ⟨fun hl => hl.elim (fun hl => ?_) And.left, fun hl => ?_⟩
  · exact hf.lt_of_leads hf.nonempty (hf.mem_reachable.1 hl)
  · exact (em (l ∈ f.reachable)).imp_right fun hnot => ⟨hl, hnot⟩

/-- The entry comes first. -/
theorem layout_eq_cons : ∃ rest, f.layout = entry :: rest := by
  obtain ⟨found, heq, -, -, hhead⟩ := hf.layout_eq
  obtain ⟨rest, rfl⟩ := head?_eq_some_iff.1 hhead
  exact ⟨_, heq⟩

theorem checkClosed_eq_ok : f.checkClosed = .ok () := by
  have hnone : f.layout.find? (fun l => f.blocks.length ≤ l) = none := by
    rw [find?_eq_none]
    intro l hl
    rw [decide_eq_true_eq]
    exact Nat.not_le.2 (hf.mem_layout.1 hl)
  rw [Function.checkClosed, hnone]

end Function.WellFormed

/-- **The layout is a reverse postorder.** Every block is laid out once. The entry comes first, with
it all the other blocks that control reaches, and behind them the rest in their own order. Along an
edge from a block that control reaches, the target comes later, or it leads back; so if no way comes
back to a block, every such block comes before its successors. -/
theorem layout_reversePostorder (hverify : verify f = .ok ()) :
    f.layout.Nodup ∧ (∀ l, l ∈ f.layout ↔ l < f.blocks.length) ∧
    (∃ first, f.layout =
        entry :: first ++ (List.range f.blocks.length).filter (fun l => l ∉ f.reachable) ∧
      ∀ l, l ∈ entry :: first ↔ l ∈ f.reachable) ∧
    (∀ k ∈ f.reachable, ∀ l ∈ f.successors k, [k, l].Sublist f.layout ∨ ReflTransGen f.Leads l k) ∧
    ((∀ l, ¬ Relation.TransGen f.Leads l l) →
      ∀ k ∈ f.reachable, ∀ l ∈ f.successors k, [k, l].Sublist f.layout) := by
  have hf := wellFormed_of_verify hverify
  obtain ⟨found, heq, h, hreach, hhead⟩ := hf.layout_eq
  have hedges : ∀ k ∈ f.reachable, ∀ l ∈ f.successors k,
      [k, l].Sublist f.layout ∨ ReflTransGen f.Leads l k := by
    intro k hk l hl
    obtain ⟨-, horder⟩ := (h.edges k ((hreach k).2 hk) l hl).resolve_left IdSet.not_mem_empty
    exact horder.imp_left fun h => heq ▸ h.trans (sublist_append_left ..)
  refine ⟨?_, fun l => hf.mem_layout, ?_, hedges, fun hacyclic k hk l hl => ?_⟩
  · rw [heq]
    refine nodup_append.2 ⟨h.nodup, nodup_range.filter _, fun k hk l hl hkl => ?_⟩
    have hnot := (mem_filter.1 hl).2
    rw [decide_eq_true_eq, ← hkl, ← hreach] at hnot
    exact hnot hk
  · obtain ⟨first, rfl⟩ := head?_eq_some_iff.1 hhead
    exact ⟨first, heq, hreach⟩
  · refine (hedges k hk l hl).resolve_right fun hback => hacyclic k ?_
    exact .head' hl hback

/-- A function with a loop of two blocks, one of which also goes to itself, and a block that control
does not reach. -/
def twoWayLoop : Function Reg where
  name := "two_way_loop"
  params := [0]
  registers := [.bool]
  blocks := [⟨[.branch (.reg 0) 2 1], ∅⟩, ⟨[.branch (.reg 0) 1 2], .ofList [0, 1, 2]⟩,
    ⟨[.branch (.reg 0) 1 4], .ofList [0, 1]⟩,
    ⟨[.jump 4], ∅⟩,
    ⟨[.ret (.reg 0)], .ofList [2, 3]⟩]

/-- The loop is entered at its second block, and the first one leads back to it. -/
theorem layout_reversePostorder_twoWayLoop :
    verify twoWayLoop = .ok () ∧ twoWayLoop.layout = [0, 2, 4, 1, 3] ∧
      ReflTransGen twoWayLoop.Leads 2 1 := by
  have hverify : verify twoWayLoop = .ok () := by decide +kernel
  have hlayout : twoWayLoop.layout = [0, 2, 4, 1, 3] := by decide +kernel
  obtain ⟨-, -, -, hedges, -⟩ := layout_reversePostorder hverify
  refine ⟨hverify, hlayout, (hedges 1 (by decide +kernel) 2 (by decide +kernel)).resolve_left ?_⟩
  rw [hlayout]
  decide

end Sluice.Flow
