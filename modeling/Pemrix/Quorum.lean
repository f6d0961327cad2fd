-- Weighted voting over an ordered map from voters to weights: the weight of the
-- voters with a property, and that two quorums of more than two thirds share
-- more than one third.
import Pemrix.TreeMapSums

open Std

namespace Std.ExtTreeMap

variable {κ : Type} {cmp : κ → κ → Ordering} [TransCmp cmp]

/-- The weight of the voters with the property. -/
def weight (m : ExtTreeMap κ UInt64 cmp) (p : κ → Prop) [DecidablePred p] : Nat :=
  m.sumBy fun a w => if p a then w.toNat else 0

/-- The weight of all voters. -/
def totalWeight (m : ExtTreeMap κ UInt64 cmp) : Nat := m.sumBy fun _ w => w.toNat

variable {m : ExtTreeMap κ UInt64 cmp} {p q : κ → Prop} [DecidablePred p] [DecidablePred q]

theorem sumBy_le_sumBy {α : Type} {m : ExtTreeMap κ α cmp} {f g : κ → α → Nat}
    (h : ∀ a x, f a x ≤ g a x) : m.sumBy f ≤ m.sumBy g := by
  unfold sumBy
  refine List.sum_le_sum ?_
  intro e _
  exact h e.1 e.2

theorem weight_mono (h : ∀ a, p a → q a) : m.weight p ≤ m.weight q := by
  refine sumBy_le_sumBy ?_
  intro a w
  by_cases hp : p a
  · rw [if_pos hp, if_pos (h a hp)]
  · rw [if_neg hp]
    exact Nat.zero_le _

theorem weight_le_totalWeight : m.weight p ≤ m.totalWeight := by
  refine sumBy_le_sumBy ?_
  intro a w
  split
  · exact Nat.le_refl _
  · exact Nat.zero_le _

/-- What two groups of voters weigh beyond the total, they weigh in common. -/
theorem weight_add_weight_le :
    m.weight p + m.weight q ≤ m.totalWeight + m.weight fun a => p a ∧ q a := by
  unfold weight totalWeight sumBy
  induction m.toList with
  | nil => simp
  | cons e es ih =>
    dsimp only at ih
    simp only [List.map_cons, List.sum_cons]
    by_cases hp : p e.1
    · by_cases hq : q e.1
      · simp only [hp, hq, if_true, and_self]
        omega
      · simp only [hp, hq, if_true, if_false, and_false]
        omega
    · by_cases hq : q e.1
      · simp only [hp, hq, if_true, if_false, false_and]
        omega
      · simp only [hp, hq, if_false, and_self]
        omega

/-- A group and all others. -/
theorem weight_add_weight_not :
    m.weight p + (m.weight fun a => ¬ p a) = m.totalWeight := by
  unfold weight totalWeight sumBy
  induction m.toList with
  | nil => rfl
  | cons e es ih =>
    dsimp only at ih
    simp only [List.map_cons, List.sum_cons]
    by_cases hp : p e.1
    · simp only [hp, if_true, not_true_eq_false, if_false]
      omega
    · simp only [hp, if_false, not_false_eq_true, if_true]
      omega

/-- Two groups of more than two thirds each have more than one third in common. -/
theorem totalWeight_lt_common (hp : 2 * m.totalWeight < 3 * m.weight p)
    (hq : 2 * m.totalWeight < 3 * m.weight q) :
    m.totalWeight < 3 * m.weight fun a => p a ∧ q a := by
  have hadd := weight_add_weight_le (m := m) (p := p) (q := q)
  omega

/-- Two groups of more than two thirds each have a voter in common outside any group of
less than one third. -/
theorem exists_common_voter {r : κ → Prop} [DecidablePred r]
    (hp : 2 * m.totalWeight < 3 * m.weight p) (hq : 2 * m.totalWeight < 3 * m.weight q)
    (hr : 3 * m.weight r < m.totalWeight) : ∃ a, p a ∧ q a ∧ ¬ r a := by
  by_contra hnone
  have hsub : ∀ a, p a ∧ q a → r a := by
    intro a ha
    by_contra hra
    exact hnone ⟨a, ha.1, ha.2, hra⟩
  have hcommon : m.weight (fun a => p a ∧ q a) ≤ m.weight r := weight_mono hsub
  have hmore := totalWeight_lt_common hp hq
  omega

/-! ## Sums that a machine computes -/

/-- A sum of 64-bit words that fits gives the exact sum. -/
theorem toNat_sum_of_lt (l : List UInt64) (h : (l.map UInt64.toNat).sum < 2 ^ 64) :
    l.sum.toNat = (l.map UInt64.toNat).sum := by
  induction l with
  | nil => rfl
  | cons x xs ih =>
    simp only [List.map_cons, List.sum_cons] at h ⊢
    rw [UInt64.toNat_add, ih (by omega), Nat.mod_eq_of_lt h]

variable [LawfulEqCmp cmp]

/-- Only the voters of the map count. -/
theorem weight_mono_of_mem (h : ∀ a w, m[a]? = some w → p a → q a) : m.weight p ≤ m.weight q := by
  unfold weight sumBy
  refine List.sum_le_sum ?_
  rintro ⟨a, w⟩ hmem
  have hw := mem_toList_iff_getElem?_eq_some.mp hmem
  by_cases hp : p a
  · simp only [hp, h a w hw hp, if_true, Nat.le_refl]
  · simp only [hp, if_false, Nat.zero_le]

/-- The weight of a duplicate-free list of voters, each looked up in the map. -/
theorem sum_lookup_eq_weight {l : List κ} (hl : l.Nodup) (hp : ∀ a, a ∈ l ↔ p a) :
    (l.map fun a => (m[a]?.map UInt64.toNat).getD 0).sum = m.weight p := by
  classical
  have hat : ∀ a, m.at0 (fun a w => if p a then w.toNat else 0) a =
      if p a then (m[a]?.map UInt64.toNat).getD 0 else 0 := by
    intro a
    unfold at0
    cases m[a]? with
    | none => simp
    | some w => simp
  unfold weight
  rw [sumBy_eq_finsum, ← List.sum_toFinset _ hl, finsum_eq_sum_of_support_subset]
  · refine Finset.sum_congr rfl ?_
    intro a ha
    rw [hat, if_pos ((hp a).mp (List.mem_toFinset.mp ha))]
  · intro a ha
    rw [Function.mem_support, hat] at ha
    simp only [Finset.mem_coe, List.mem_toFinset]
    by_contra hnot
    exact ha (if_neg fun hpa => hnot ((hp a).mpr hpa))

end Std.ExtTreeMap
