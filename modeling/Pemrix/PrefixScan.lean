-- Scans of an ordered list by a key prefix. A scan that starts at the first
-- key not below the prefix and stops at the first key without it finds every
-- key with the prefix. Also: an ordered list is fixed by its members.
import Mathlib

open Std

namespace PrefixScan

/-! ## Lists of keys in lexicographic order -/

section Keys

variable {α : Type} [Ord α] [LawfulEqOrd α]

omit [LawfulEqOrd α] in
theorem compare_append_left [ReflOrd α] (p s t : List α) :
    compare (p ++ s) (p ++ t) = compare s t := by
  induction p with
  | nil => rfl
  | cons x p ih => simp [List.compare_cons_cons, ReflOrd.compare_self, ih]

/-- A key with the prefix is not below the prefix. -/
theorem not_lt_of_isPrefix {p k : List α} (h : p <+: k) : compare k p ≠ .lt := by
  obtain ⟨t, rfl⟩ := h
  have h0 := compare_append_left p t []
  rw [List.append_nil] at h0
  rw [h0]
  cases t <;> simp

/-- Between the prefix and a key with the prefix, every key has the prefix. -/
theorem isPrefix_of_between {p k k' : List α} (hp : compare k p ≠ .lt) (hk : compare k k' = .lt)
    (h : p <+: k') : p <+: k := by
  induction p generalizing k k' with
  | nil => exact List.nil_prefix
  | cons x p ih =>
    obtain ⟨t, rfl⟩ := h
    cases k with
    | nil => simp at hp
    | cons y k =>
      simp only [List.cons_append, List.compare_cons_cons] at hp hk
      rcases hxy : compare y x with _ | _ | _
      · simp [hxy] at hp
      · have hyx := LawfulEqCmp.eq_of_compare hxy
        subst hyx
        simp only [hxy, Ordering.then] at hp hk
        exact List.cons_prefix_cons.mpr ⟨rfl, ih hp hk ⟨t, rfl⟩⟩
      · simp [hxy] at hk

end Keys

/-! ## The scan of a list -/

/-- On a list in order, dropping what comes before leaves every element that does not. -/
theorem dropWhile_eq_filter {α : Type} {R : α → α → Prop} {before : α → Bool} {l : List α}
    (hl : l.Pairwise R) (hafter : ∀ a b, R a b → before a = false → before b = false) :
    l.dropWhile before = l.filter fun a => !before a := by
  induction l with
  | nil => rfl
  | cons a l ih =>
    obtain ⟨ha, hl'⟩ := List.pairwise_cons.mp hl
    by_cases hb : before a = true
    · rw [List.dropWhile_cons_of_pos hb, List.filter_cons_of_neg (by simp [hb])]
      exact ih hl'
    · have hbf : before a = false := by simpa using hb
      rw [List.dropWhile_cons_of_neg hb, List.filter_cons_of_pos (by simp [hbf])]
      congr 1
      symm
      rw [List.filter_eq_self]
      intro x hx
      simp [hafter a x (ha x hx) hbf]

/-- On a list in order, dropping what comes before and taking as long as `q` holds gives
every element with `q`. -/
theorem takeWhile_dropWhile_eq_filter {α : Type} {R : α → α → Prop} {before q : α → Bool}
    {l : List α} (hl : l.Pairwise R)
    (hafter : ∀ a b, R a b → before a = false → before b = false)
    (hq : ∀ a, q a = true → before a = false)
    (hstop : ∀ a b, R a b → before a = false → q a = false → q b = false) :
    (l.dropWhile before).takeWhile q = l.filter q := by
  induction l with
  | nil => rfl
  | cons a l ih =>
    obtain ⟨ha, hl'⟩ := List.pairwise_cons.mp hl
    by_cases hb : before a = true
    · have hqa : q a = false := by
        by_contra hc
        have := hq a (by simpa using hc)
        simp [hb] at this
      rw [List.dropWhile_cons_of_pos hb, List.filter_cons_of_neg (by simp [hqa])]
      exact ih hl'
    · have hbf : before a = false := by simpa using hb
      -- From here on nothing is dropped, so the tail is scanned by `takeWhile` alone.
      have hdrop : ∀ m : List α, (∀ x ∈ m, before x = false) → m.dropWhile before = m := by
        intro m hm
        cases m with
        | nil => rfl
        | cons x m => rw [List.dropWhile_cons_of_neg (by simp [hm x])]
      have htail : ∀ x ∈ l, before x = false := fun x hx => hafter a x (ha x hx) hbf
      rw [List.dropWhile_cons_of_neg hb]
      by_cases hqa : q a = true
      · rw [List.takeWhile_cons_of_pos hqa, List.filter_cons_of_pos hqa, ← ih hl', hdrop l htail]
      · have hqf : q a = false := by simpa using hqa
        rw [List.takeWhile_cons_of_neg hqa, List.filter_cons_of_neg hqa]
        symm
        rw [List.filter_eq_nil_iff]
        intro x hx
        simp [hstop a x (ha x hx) hbf hqf]

/-- Two lists in strict order with the same members are the same. -/
theorem eq_of_pairwise_of_mem_iff {α : Type} {R : α → α → Prop} {l₁ l₂ : List α}
    (hasymm : ∀ a b, R a b → ¬ R b a) (h₁ : l₁.Pairwise R) (h₂ : l₂.Pairwise R)
    (h : ∀ a, a ∈ l₁ ↔ a ∈ l₂) : l₁ = l₂ := by
  have hnodup : ∀ {l : List α}, l.Pairwise R → l.Nodup := by
    intro l hl
    refine hl.imp ?_
    intro a b hab he
    subst he
    exact hasymm a a hab hab
  refine List.Perm.eq_of_pairwise ?_ h₁ h₂
    ((List.perm_ext_iff_of_nodup (hnodup h₁) (hnodup h₂)).mpr h)
  intro a b _ _ hab hba
  exact absurd hba (hasymm a b hab)

end PrefixScan
