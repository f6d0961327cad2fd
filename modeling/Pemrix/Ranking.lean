-- The top of a ranking: of a sorted list without repetition, the first `k` elements are
-- those that have fewer than `k` others before them.
import Mathlib.Data.List.Basic
import Mathlib.Data.List.Perm.Basic
import Mathlib.Data.List.Sort

open Std

namespace Ranking

variable {α : Type}

/-- In a list in strict order, the places are counted by the elements that come before. -/
theorem mem_take_iff {R : α → α → Prop} [DecidableRel R] {l : List α} (hl : l.Pairwise R)
    (hasymm : ∀ a b, R a b → ¬ R b a) (k : Nat) (x : α) :
    x ∈ l.take k ↔ x ∈ l ∧ (l.filter fun y => R y x).length < k := by
  induction l generalizing k with
  | nil => simp
  | cons a l ih =>
    obtain ⟨hfirst, hrest⟩ := List.pairwise_cons.mp hl
    cases k with
    | zero => simp
    | succ k =>
      rw [List.take_succ_cons, List.mem_cons, List.mem_cons, ih hrest]
      by_cases hx : x = a
      · -- Nothing comes before the first element.
        subst hx
        have hnone : ((x :: l).filter fun y => R y x) = [] := by
          rw [List.filter_eq_nil_iff]
          intro y hy
          rw [decide_eq_true_eq]
          rcases List.mem_cons.mp hy with rfl | hmem
          · exact fun h => hasymm y y h h
          · exact hasymm x y (hfirst y hmem)
        rw [hnone]
        simp
      · simp only [hx, false_or]
        refine and_congr_right fun hmem => ?_
        have hbefore : decide (R a x) = true := decide_eq_true (hfirst x hmem)
        rw [List.filter_cons, if_pos hbefore, List.length_cons, Nat.add_lt_add_iff_right]

/-- The first of a list after it is sorted: how many come before an element decides. -/
theorem mem_take_mergeSort_iff {cmp : α → α → Ordering} [TransCmp cmp] [LawfulEqCmp cmp]
    {l : List α} (hl : l.Nodup) (k : Nat) (x : α) :
    x ∈ (l.mergeSort fun a b => (cmp a b).isLE).take k ↔
      x ∈ l ∧ (l.filter fun y => cmp y x = .lt).length < k := by
  have hperm := l.mergeSort_perm fun a b => (cmp a b).isLE
  have hsorted : (l.mergeSort fun a b => (cmp a b).isLE).Pairwise fun a b => (cmp a b).isLE := by
    refine List.pairwise_mergeSort (fun a b c => TransCmp.isLE_trans) ?_ l
    intro a b
    rw [Bool.or_eq_true, ← OrientedCmp.isGE_iff_isLE (a := a) (b := b)]
    cases cmp a b <;> simp
  have hstrict : (l.mergeSort fun a b => (cmp a b).isLE).Pairwise fun a b => cmp a b = .lt := by
    refine (hsorted.and (hperm.nodup_iff.mpr hl)).imp ?_
    rintro a b ⟨hle, hne⟩
    rcases Ordering.isLE_iff_eq_lt_or_eq_eq.mp hle with hlt | heq
    · exact hlt
    · exact absurd (LawfulEqCmp.eq_of_compare heq) hne
  have hasymm : ∀ a b, cmp a b = .lt → cmp b a ≠ .lt := by
    intro a b hab hba
    rw [OrientedCmp.gt_of_lt hab] at hba
    cases hba
  rw [mem_take_iff hstrict hasymm, List.mem_mergeSort, (hperm.filter _).length_eq]

end Ranking
