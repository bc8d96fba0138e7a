import Mathlib.Algebra.Order.Ring.Nat
import Mathlib.Logic.Relation
import Sluice.Proofs.Unify.Find
import Sluice.Proofs.Unify.Rollback

/-!
# The sets of a unification table

Looking for a root changes no set (`Shortens`), and merging puts the root of one
set below that of the other (`Merges`); nothing else touches the links. So the
sets are the classes of the equivalence that the merges generate, and since the
root of lower rank goes below, a root of rank `n` stands for `2 ^ n` variables
(`Op.run?_partition`).
-/

namespace Sluice.Unify

open List

namespace Table

variable {t t' t1 : Table} {v a b c d : TyVar}

/-! ## Merging sets, bound or not -/

theorem kept_raiseRank (t : Table) (d v : TyVar) : (t.raiseRank d).kept v = t.kept v := by
  simp [raiseRank, kept]

/-- A link sets a parent and, if only the lower root has a binding, moves that up. -/
theorem link_cases (hroot : (t.setParent c d).parent d = d) {P : Table → Prop}
    (hsame : t.kept d ≠ none ∨ t.kept c = none → P (t.setParent c d))
    (hmoved : ∀ ty, t.kept d = none → t.kept c = some ty → P ((t.setParent c d).setBinding d ty)) :
    P (t.link c d) := by
  have hkept := kept_setParent t c d
  simp only [kept] at hkept hsame hmoved
  simp only [link, bind, find_of_parent_eq hroot, hkept]
  split
  · rename_i ty hd hc
    exact hmoved ty hd hc
  · rename_i hnot
    refine hsame ?_
    cases hc : t.bindings.getD c none with
    | none => exact .inr rfl
    | some ty => exact .inl fun hd => hnot ty hd hc

/-- **A table in which one root was put below another.** The merged set keeps the binding of the
upper root, or takes that of the lower one. -/
structure Merges (t : Table) (c d : TyVar) (t' : Table) : Prop where
  isForest : t'.IsForest
  size_eq : t'.size = t.size
  root_eq : ∀ v, t'.root v = if t.root v = c then d else t.root v
  rank_eq : ∀ v, v ≠ d → t'.rank v = t.rank v
  rank_le : t.rank c ≤ t.rank d ∧ t'.rank d ≤ max (t.rank d) (t.rank c + 1)
  kept_eq : ∀ v, t'.kept v = if v = d then (t.kept d).or (t.kept c) else t.kept v

theorem merges_link (ht : t.IsForest) (hc : t.root c = c) (hd : t.root d = d) (hclt : c < t.size)
    (hdlt : d < t.size) (hrank : t.rank c < t.rank d) : Merges t c d (t.link c d) := by
  have hne : d ≠ c := by
    rintro rfl
    exact Nat.lt_irrefl _ hrank
  have hforest := ht.setParent hclt hdlt hrank
  have hroot := root_setParent ht hc hd hclt hdlt hrank
  have hparent : (t.setParent c d).parent d = d := by
    rw [parent_setParent hclt, if_neg hne, ht.parent_eq_of_root_eq hd]
  refine link_cases hparent (fun hor => ?_) fun ty hkd hkc => ?_
  · refine ⟨hforest, size_setParent t c d, hroot, fun v _ => rank_setParent t c d v,
      ⟨hrank.le, by simp⟩, fun v => ?_⟩
    rw [kept_setParent]
    split
    · rename_i hv
      subst hv
      cases hk : t.kept v with
      | none => simpa [hk, eq_comm] using hor
      | some ty => rfl
    · rfl
  · refine ⟨hforest.setBinding d ty, by simp, fun v => ?_, fun v _ => ?_, ⟨hrank.le, ?_⟩,
      fun v => ?_⟩
    · rw [root_setBinding, hroot]
    · rw [rank_setBinding, rank_setParent]
    · rw [rank_setBinding, rank_setParent]
      exact Nat.le_max_left _ _
    · rw [kept_setBinding (by rwa [hforest.bindings_size, size_setParent]), kept_setParent, hkd,
        hkc]
      rfl

/-- Ways that got shorter before make no difference. -/
theorem Shortens.merges (h : Shortens t t1) (h' : Merges t1 c d t') : Merges t c d t' where
  isForest := h'.isForest
  size_eq := h'.size_eq.trans h.size_eq
  root_eq v := by rw [h'.root_eq, h.root_eq]
  rank_eq v hv := (h'.rank_eq v hv).trans (h.rank_eq v)
  rank_le := by simpa only [h.rank_eq] using h'.rank_le
  kept_eq v := by simpa only [h.kept_eq] using h'.kept_eq v

/-- Among roots of one rank the upper one goes up in rank first. -/
theorem merges_raised (ht : t.IsForest) (hc : t.root c = c) (hd : t.root d = d)
    (hclt : c < t.size) (hdlt : d < t.size) (hne : c ≠ d) (hrank : t.rank c = t.rank d) :
    Merges t c d ((t.raiseRank d).link c d) := by
  have hranks := rank_raiseRank (t := t) (a := d) (by rwa [ht.ranks_size])
  have hraised := merges_link (c := c) (ht.raiseRank (ht.parent_eq_of_root_eq hd) hdlt)
    (by rwa [root_raiseRank]) (by rwa [root_raiseRank]) (by rwa [size_raiseRank])
    (by rwa [size_raiseRank]) (by rw [hranks, hranks, if_neg hne, if_pos rfl]; omega)
  have hle := hraised.rank_le.2
  rw [hranks, hranks, if_neg hne, if_pos rfl] at hle
  refine ⟨hraised.isForest, by rw [hraised.size_eq, size_raiseRank], fun v => ?_, fun v hv => ?_,
    ⟨hrank.le, by omega⟩, fun v => ?_⟩
  · rw [hraised.root_eq, root_raiseRank]
  · rw [hraised.rank_eq v hv, hranks, if_neg hv]
  · simpa only [kept_raiseRank] using hraised.kept_eq v

/-- **What merging two sets comes down to:** if they are one set already, ways are shortened; if
not, the root of one goes below that of the other. -/
theorem IsForest.union_spec (ht : t.IsForest) (ha : a < t.size) (hb : b < t.size) :
    (t.root a = t.root b ∧ (t.union a b).1 = t.root a ∧ Shortens t (t.union a b).2) ∨
      ∃ c d, (c = t.root a ∧ d = t.root b ∨ c = t.root b ∧ d = t.root a) ∧ c ≠ d ∧
        (t.union a b).1 = d ∧ Merges t c d (t.union a b).2 := by
  have hshort1 := ht.shortens_find a
  have hshort := hshort1.trans (hshort1.isForest.shortens_find b)
  have hforest := hshort.isForest
  have hroot : ∀ v, ((t.find a).2.find b).2.root (t.root v) = t.root v := fun v => by
    rw [hshort.root_eq, ht.root_root]
  have hlt : ∀ {v}, v < t.size → t.root v < ((t.find a).2.find b).2.size := fun hv => by
    rw [hshort.size_eq]
    exact ht.root_lt hv
  simp only [union, ht.find_fst, hshort1.isForest.find_fst, hshort1.root_eq]
  split
  · rename_i heq
    exact .inl ⟨heq, rfl, hshort⟩
  · rename_i hne
    refine .inr ?_
    split
    · rename_i hcmp
      exact ⟨_, _, .inl ⟨rfl, rfl⟩, hne, rfl, hshort.merges (merges_link hforest (hroot a) (hroot b)
        (hlt ha) (hlt hb) (Nat.compare_eq_lt.1 hcmp))⟩
    · rename_i hcmp
      exact ⟨_, _, .inr ⟨rfl, rfl⟩, Ne.symm hne, rfl, hshort.merges (merges_link hforest (hroot b)
        (hroot a) (hlt hb) (hlt ha) (Nat.compare_eq_gt.1 hcmp))⟩
    · rename_i hcmp
      exact ⟨_, _, .inr ⟨rfl, rfl⟩, Ne.symm hne, rfl, hshort.merges (merges_raised hforest (hroot b)
        (hroot a) (hlt hb) (hlt ha) (Ne.symm hne) (Nat.compare_eq_eq.1 hcmp).symm)⟩

theorem IsForest.probe_fst (ht : t.IsForest) (v : TyVar) : (t.probe v).1 = t.binding? v := by
  have hkept : (t.probe v).1 = (t.find v).2.kept (t.find v).1 := rfl
  rw [hkept, (ht.shortens_find v).kept_eq, ht.find_fst, binding?_eq]

/-! ## The size of a set -/

/-- The variables of a set, given its root. -/
def members (t : Table) (r : TyVar) : Finset TyVar :=
  (Finset.range t.size).filter fun v => t.root v = r

theorem mem_members : v ∈ t.members r ↔ v < t.size ∧ t.root v = r := by
  rw [members, Finset.mem_filter, Finset.mem_range]

/-- A forest in which a root of rank `n` stands for at least `2 ^ n` variables. -/
structure Ranked (t : Table) : Prop extends t.IsForest where
  pow_rank_le : ∀ r < t.size, t.root r = r → 2 ^ t.rank r ≤ (t.members r).card

namespace Ranked

/-- Sets and ranks that are the same, and a root of rank zero for each new variable. -/
theorem of_root_eq (ht : t.Ranked) (hforest : t'.IsForest) (hsize : t.size ≤ t'.size)
    (hroot : ∀ v, t'.root v = t.root v) (hrank : ∀ v, t'.rank v = t.rank v) : t'.Ranked := by
  refine ⟨hforest, fun r hr hself => ?_⟩
  have hsub : ∀ r', t.members r' ⊆ t'.members r' := fun r' v hv => by
    rw [mem_members] at hv ⊢
    exact ⟨Nat.lt_of_lt_of_le hv.1 hsize, by rw [hroot, hv.2]⟩
  by_cases hold : r < t.size
  · rw [hrank]
    exact (ht.pow_rank_le r hold (by rwa [← hroot])).trans (Finset.card_le_card (hsub r))
  · rw [hrank, rank_of_size_le (by rw [ht.ranks_size]; omega)]
    exact Finset.card_pos.2 ⟨r, mem_members.2 ⟨hr, hself⟩⟩

/-- The merged set has the variables of both, and its rank is at most one above that of the lower
root. -/
theorem merges (ht : t.Ranked) (h : Merges t c d t') (hne : c ≠ d) (hc : t.root c = c)
    (hd : t.root d = d) (hclt : c < t.size) (hdlt : d < t.size) : t'.Ranked := by
  refine ⟨h.isForest, fun r hr hself => ?_⟩
  by_cases hrd : r = d
  · subst hrd
    have hmembers : t'.members r = t.members c ∪ t.members r := by
      ext v
      rw [Finset.mem_union, mem_members, mem_members, mem_members, h.size_eq, h.root_eq]
      split <;> rename_i hv <;> simp [hv, hne]
    have hdisjoint : Disjoint (t.members c) (t.members r) :=
      Finset.disjoint_filter.2 fun v _ hv hv' => hne (hv.symm.trans hv')
    have hcard := ht.pow_rank_le c hclt hc
    have hcard' := ht.pow_rank_le r hdlt hd
    obtain ⟨hle, hmax⟩ := h.rank_le
    have hpow := Nat.pow_le_pow_right Nat.zero_lt_two hmax
    have hpow' := Nat.pow_le_pow_right Nat.zero_lt_two hle
    rw [hmembers, Finset.card_union_of_disjoint hdisjoint]
    rcases Nat.le_total (t.rank r) (t.rank c + 1) with hcase | hcase
    · rw [Nat.max_eq_right hcase, Nat.pow_succ] at hpow
      omega
    · rw [Nat.max_eq_left hcase] at hpow
      omega
  · have hself' := h.root_eq r
    rw [hself] at hself'
    split at hself'
    · exact absurd hself' hrd
    · rename_i hrc
      have hmembers : t.members r ⊆ t'.members r := fun v hv => by
        rw [mem_members] at hv ⊢
        rw [h.size_eq, h.root_eq, if_neg (by rw [hv.2, hself']; exact hrc)]
        exact hv
      rw [h.rank_eq r hrd]
      exact (ht.pow_rank_le r (h.size_eq ▸ hr) hself'.symm).trans (Finset.card_le_card hmembers)

end Ranked

end Table

/-! ## Calls -/

namespace Op

open Table

variable {t t' : Table} {a b : TyVar} {op : Op} {ops : List Op}

/-- Two variables are merged by one of the calls. -/
def United (ops : List Op) (a b : TyVar) : Prop :=
  union a b ∈ ops

/-- The sets are the classes of the equivalence that the merges generate. -/
def Splits (ops : List Op) (t : Table) : Prop :=
  ∀ a b, t.root a = t.root b ↔ Relation.EqvGen (United ops) a b

/-- A call that keeps all roots and is no merge. -/
theorem Splits.concat (h : Splits ops t) (hroot : ∀ v, t'.root v = t.root v)
    (hop : ∀ a b, op ≠ union a b) : Splits (ops ++ [op]) t' := by
  have hunited : United (ops ++ [op]) = United ops := by
    funext a b
    simp [United, (hop a b).symm]
  intro a b
  rw [hroot, hroot, hunited]
  exact h a b

/-- A call that makes one set of two. -/
theorem Splits.concat_union (h : Splits ops t)
    (hroot : ∀ v w, t'.root v = t'.root w ↔ t.root v = t.root w ∨
      (t.root v = t.root a ∨ t.root v = t.root b) ∧ (t.root w = t.root a ∨ t.root w = t.root b)) :
    Splits (ops ++ [union a b]) t' := by
  intro v w
  have hmono : ∀ {v w}, t.root v = t.root w → Relation.EqvGen (United (ops ++ [union a b])) v w :=
    fun hvw => ((h _ _).1 hvw).mono fun _ _ hmem => mem_append_left _ hmem
  have hnew : Relation.EqvGen (United (ops ++ [union a b])) a b :=
    .rel _ _ (mem_append_right _ (mem_singleton.2 rfl))
  have hside : ∀ {v}, t.root v = t.root a ∨ t.root v = t.root b →
      Relation.EqvGen (United (ops ++ [union a b])) v a := by
    rintro v (hv | hv)
    · exact hmono hv
    · exact (hmono hv).trans _ _ _ (hnew.symm _ _)
  constructor
  · rw [hroot]
    rintro (hvw | ⟨hv, hw⟩)
    · exact hmono hvw
    · exact (hside hv).trans _ _ _ ((hside hw).symm _ _)
  · intro hgen
    induction hgen with
    | rel v w hvw =>
      rw [hroot]
      rcases mem_append.1 hvw with hvw | hvw
      · exact .inl ((h v w).2 (.rel _ _ hvw))
      · cases mem_singleton.1 hvw
        exact .inr ⟨.inl rfl, .inr rfl⟩
    | refl => rfl
    | symm _ _ _ ih => exact ih.symm
    | trans _ _ _ _ _ ih ih' => exact ih.trans ih'

/-- **One call** keeps ranks in proportion, and splits the variables further as it says. -/
theorem Splits.step (h : Splits ops t) (ht : t.Ranked) (hrun : op.run? t = some t') :
    t'.Ranked ∧ Splits (ops ++ [op]) t' := by
  obtain ⟨hknown, rfl⟩ := run?_eq_some.1 hrun
  have hshort := ht.toIsForest.shortens_find
  cases op with
  | newVariable =>
    have hroot := root_newVariable ht.toIsForest
    exact ⟨ht.of_root_eq ht.toIsForest.newVariable (by simp [apply]) hroot (rank_newVariable t),
      h.concat hroot nofun⟩
  | find v | probe v =>
    exact ⟨ht.of_root_eq (hshort v).isForest (hshort v).size_eq.ge (hshort v).root_eq
      (hshort v).rank_eq, h.concat (hshort v).root_eq nofun⟩
  | bind v ty =>
    have hroot : ∀ w, (t.bind v ty).root w = t.root w := fun w =>
      (root_setBinding _ _ _ w).trans ((hshort v).root_eq w)
    refine ⟨ht.of_root_eq ((hshort v).isForest.setBinding _ _) ?_ hroot fun w => ?_,
      h.concat hroot nofun⟩
    · exact ((size_setBinding _ _ _).trans (hshort v).size_eq).ge
    · exact (rank_setBinding _ _ _ w).trans ((hshort v).rank_eq w)
  | union a b =>
    have ha := hknown a (by simp [vars])
    have hb := hknown b (by simp [vars])
    rcases ht.toIsForest.union_spec ha hb with ⟨hab, -, hsame⟩ | ⟨c, d, hcd, hne, -, hmerge⟩
    · refine ⟨ht.of_root_eq hsame.isForest hsame.size_eq.ge hsame.root_eq hsame.rank_eq,
        h.concat_union fun v w => ?_⟩
      simp only [apply, hsame.root_eq, ← hab, or_self]
      exact ⟨.inl, fun h => h.elim id fun h => h.1.trans h.2.symm⟩
    · have hroots : t.root c = c ∧ t.root d = d ∧ c < t.size ∧ d < t.size := by
        rcases hcd with ⟨rfl, rfl⟩ | ⟨rfl, rfl⟩ <;>
          exact ⟨ht.root_root _, ht.root_root _, ht.root_lt ‹_›, ht.root_lt ‹_›⟩
      refine ⟨ht.merges hmerge hne hroots.1 hroots.2.1 hroots.2.2.1 hroots.2.2.2,
        h.concat_union fun v w => ?_⟩
      simp only [apply, hmerge.root_eq]
      rcases hcd with ⟨rfl, rfl⟩ | ⟨rfl, rfl⟩ <;> grind

/-- The table after several calls. -/
def runAll? (t : Table) (ops : List Op) : Option Table :=
  ops.foldlM run? t

theorem Splits.run (h : Splits done t) (ht : t.Ranked)
    (hrun : runAll? t ops = some t') : t'.Ranked ∧ Splits (done ++ ops) t' := by
  induction ops generalizing t done with
  | nil =>
    cases hrun
    rw [append_nil]
    exact ⟨ht, h⟩
  | cons op ops ih =>
    rw [runAll?, foldlM_cons, Option.bind_eq_bind, Option.bind_eq_some_iff] at hrun
    obtain ⟨t1, hstep, hrun⟩ := hrun
    obtain ⟨ht1, h1⟩ := h.step ht hstep
    rw [append_cons]
    exact ih h1 ht1 hrun

/-- At first every variable is alone. -/
theorem splits_empty : Splits [] {} := by
  intro a b
  have hroot : ∀ v, Table.root {} v = v := fun v =>
    grounded_empty.toIsForest.root_of_size_le (Nat.zero_le v)
  rw [hroot, hroot]
  constructor
  · rintro rfl
    exact .refl _
  · intro hgen
    induction hgen with
    | rel _ _ h => exact nomatch h
    | refl => rfl
    | symm _ _ _ ih => exact ih.symm
    | trans _ _ _ _ _ ih ih' => exact ih.trans ih'

/-- **The table is a disjoint-set forest.** After any calls ranks go up along the links, and a root
of rank `n` stands for at least `2 ^ n` variables. Two variables have one root exactly if the merges
so far make them equivalent. Looking for a root or for a binding changes neither. A merge makes one
set of two; of the roots `c` and `d` one survives, and the set is bound to its binding or else to
that of the other, while all other sets stay as they are. -/
theorem run?_partition (h : runAll? {} ops = some t) :
    (∀ v, t.parent v ≠ v → t.rank v < t.rank (t.parent v)) ∧
    (∀ r < t.size, (t.find r).1 = r →
      2 ^ t.rank r ≤ ((Finset.range t.size).filter fun v => (t.find v).1 = r).card) ∧
    (∀ a < t.size, ∀ b < t.size,
      (t.find a).1 = ((t.find a).2.find b).1 ↔ Relation.EqvGen (United ops) a b) ∧
    (∀ v < t.size, ∀ w < t.size, ∀ t' ∈ [(t.find v).2, (t.probe v).2],
      (t'.find w).1 = (t.find w).1 ∧ (t'.probe w).1 = (t.probe w).1) ∧
    ∀ a < t.size, ∀ b < t.size, ∃ c d,
      (c = (t.find a).1 ∧ d = (t.find b).1 ∨ c = (t.find b).1 ∧ d = (t.find a).1) ∧
      (t.union a b).1 = d ∧ ∀ v < t.size,
        ((t.union a b).2.find v).1 = (if (t.find v).1 = c then d else (t.find v).1) ∧
        ((t.union a b).2.probe v).1 = if ((t.union a b).2.find v).1 = d
          then (t.probe d).1.or (t.probe c).1 else (t.probe v).1 := by
  have hempty : Ranked {} := ⟨grounded_empty.toIsForest, fun r hr => absurd hr (Nat.not_lt_zero r)⟩
  obtain ⟨ht, hsplits⟩ := splits_empty.run hempty h
  have hshort := ht.toIsForest.shortens_find
  have hfind := ht.toIsForest.find_fst
  have hprobe := ht.toIsForest.probe_fst
  refine ⟨ht.rank_lt, fun r hr hself => ?_, fun a _ b _ => ?_, fun v _ w _ t' ht' => ?_,
    fun a ha b hb => ?_⟩
  · simp only [hfind] at hself ⊢
    exact ht.pow_rank_le r hr hself
  · rw [hfind, (hshort a).isForest.find_fst, (hshort a).root_eq]
    exact hsplits a b
  · have ht'' : t' = (t.find v).2 := by rcases mem_pair.1 ht' with rfl | rfl <;> rfl
    rw [ht'', (hshort v).isForest.find_fst, (hshort v).isForest.probe_fst, hfind, hprobe,
      (hshort v).root_eq, (hshort v).binding?_eq]
    exact ⟨rfl, rfl⟩
  · simp only [hfind, hprobe]
    rcases ht.toIsForest.union_spec ha hb with ⟨hab, hroot, hsame⟩ | ⟨c, d, hcd, hne, hroot, hmerge⟩
    · refine ⟨_, _, .inl ⟨rfl, rfl⟩, hroot.trans hab, fun v _ => ?_⟩
      rw [hsame.isForest.find_fst, hsame.isForest.probe_fst, hsame.root_eq, hsame.binding?_eq]
      grind [ht.binding?_root]
    · refine ⟨c, d, hcd, hroot, fun v _ => ?_⟩
      rw [hmerge.isForest.find_fst, hmerge.isForest.probe_fst, binding?_eq, hmerge.kept_eq,
        hmerge.root_eq]
      grind [binding?_eq, ht.root_root]

/-- Two sets of two variables, each with a binding, are merged; a fifth variable stays alone. -/
def merging : List Op :=
  [newVariable, newVariable, newVariable, newVariable, newVariable, bind 3 .int, union 0 1,
    union 2 3, bind 1 .str, union 3 1, probe 1]

theorem run?_partition_merging : ∃ t, runAll? {} merging = some t ∧
    t.rank 2 = 2 ∧ (t.probe 0).1 = some .int ∧ Relation.EqvGen (United merging) 0 3 ∧
    ¬ Relation.EqvGen (United merging) 0 4 := by
  have hrun : (runAll? {} merging).map (fun t => (t.size, t.rank 2, (t.probe 0).1,
      decide ((t.find 0).1 = ((t.find 0).2.find 3).1),
      decide ((t.find 0).1 = ((t.find 0).2.find 4).1))) = some (5, 2, some .int, true, false) := by
    decide +kernel
  obtain ⟨t, ht, heq⟩ := Option.map_eq_some_iff.1 hrun
  simp only [Prod.mk.injEq, decide_eq_true_eq, decide_eq_false_iff_not] at heq
  obtain ⟨hsize, hrank, hprobe, hsame, hother⟩ := heq
  obtain ⟨-, -, hequiv, -⟩ := run?_partition ht
  exact ⟨t, ht, hrank, hprobe, (hequiv 0 (by omega) 3 (by omega)).1 hsame,
    fun h => hother ((hequiv 0 (by omega) 4 (by omega)).2 h)⟩

end Op

end Sluice.Unify
