import Mathlib.Data.List.Forall2
import Mathlib.Tactic.Common

/-!
# Related lists

Lists of one length whose elements are related one by one.
-/

namespace Sluice

theorem exists_of_forall₂_right (h : List.Forall₂ R as bs) (hb : b ∈ bs) : ∃ a ∈ as, R a b := by
  induction h with
  | nil => exact nomatch hb
  | cons hr _ ih =>
    rcases List.mem_cons.1 hb with rfl | hb
    · exact ⟨_, List.mem_cons_self, hr⟩
    · obtain ⟨a, ha, hab⟩ := ih hb
      exact ⟨a, List.mem_cons_of_mem _ ha, hab⟩

theorem exists_of_forall₂_left (h : List.Forall₂ R as bs) (ha : a ∈ as) : ∃ b ∈ bs, R a b :=
  exists_of_forall₂_right (R := flip R) h.flip ha

theorem forall₂_comp {T : α → γ → Prop} (hT : ∀ a b c, R a b → S b c → T a c)
    (h : List.Forall₂ R as bs) : ∀ {cs}, List.Forall₂ S bs cs → List.Forall₂ T as cs := by
  induction h with
  | nil =>
    intro cs h'
    cases h'
    exact .nil
  | cons hr _ ih =>
    intro cs h'
    cases h' with
    | cons hs hrest => exact .cons (hT _ _ _ hr hs) (ih hrest)

end Sluice
