-- Maps that are filled from a list, one insert for each element. A key that comes again
-- is overwritten, so an entry is that of some element with the key, and no key is lost.
import Std.Data.ExtTreeMap.Lemmas

open Std

namespace FilledMaps

variable {κ α β : Type} {cmp : κ → κ → Ordering} [TransCmp cmp] [LawfulEqCmp cmp]
  {key : β → κ} {value : β → α} {l : List β} {m : ExtTreeMap κ α cmp}

structure Filled (key : β → κ) (value : β → α) (l : List β) (m : ExtTreeMap κ α cmp) : Prop where
  /-- An entry comes from an element of the list. -/
  entry : ∀ k v, m[k]? = some v → ∃ b ∈ l, key b = k ∧ value b = v
  /-- Every element has an entry. -/
  kept : ∀ b ∈ l, ∃ v, m[key b]? = some v

omit [LawfulEqCmp cmp] in
theorem filled_nil : Filled key value [] (∅ : ExtTreeMap κ α cmp) := by
  refine ⟨?_, ?_⟩
  · intro k v h
    rw [ExtTreeMap.getElem?_empty] at h
    cases h
  · intro b hb
    cases hb

theorem Filled.snoc (h : Filled key value l m) (b : β) :
    Filled key value (l ++ [b]) (m.insert (key b) (value b)) := by
  refine ⟨?_, ?_⟩
  · intro k v hv
    rw [ExtTreeMap.getElem?_insert] at hv
    split at hv
    · rename_i heq
      exact ⟨b, List.mem_concat_self, LawfulEqCmp.eq_of_compare heq, Option.some.inj hv⟩
    · obtain ⟨c, hc, hkey, hvalue⟩ := h.entry k v hv
      exact ⟨c, List.mem_append_left _ hc, hkey, hvalue⟩
  · intro c hc
    rw [ExtTreeMap.getElem?_insert]
    split
    · exact ⟨value b, rfl⟩
    · rename_i hne
      rcases List.mem_append.mp hc with hc | hc
      · exact h.kept c hc
      · have heq : cmp (key b) (key c) = .eq := by
          rw [List.mem_singleton.mp hc]
          exact ReflCmp.compare_self
        exact absurd heq hne

/-- The largest key is that of an element, and no element has a larger one. -/
theorem Filled.maxKey (h : Filled key value l m) {k : κ} (hk : m.maxKey? = some k) :
    (∃ b ∈ l, key b = k) ∧ ∀ b ∈ l, (cmp (key b) k).isLE := by
  obtain ⟨hmem, hle⟩ := ExtTreeMap.maxKey?_eq_some_iff_mem_and_forall.mp hk
  refine ⟨?_, ?_⟩
  · rw [ExtTreeMap.mem_iff_isSome_getElem?, Option.isSome_iff_exists] at hmem
    obtain ⟨v, hv⟩ := hmem
    obtain ⟨b, hb, hkey, -⟩ := h.entry k v hv
    exact ⟨b, hb, hkey⟩
  · intro b hb
    obtain ⟨v, hv⟩ := h.kept b hb
    exact hle (key b) (ExtTreeMap.mem_iff_isSome_getElem?.mpr (by rw [hv]; rfl))

omit [LawfulEqCmp cmp] in
theorem Filled.nil_of_maxKey (h : Filled key value l m) (hnone : m.maxKey? = none) : l = [] := by
  rw [ExtTreeMap.maxKey?_eq_none_iff] at hnone
  subst hnone
  cases l with
  | nil => rfl
  | cons b l =>
    obtain ⟨v, hv⟩ := h.kept b List.mem_cons_self
    rw [ExtTreeMap.getElem?_empty] at hv
    cases hv

end FilledMaps
