-- Sums over the entries of an ordered map, and the list that an ordered map
-- gives. An insert or an erase changes a sum by one entry, so a total kept
-- beside the map can be followed through any run of updates. The other way
-- round, a list with one entry for each key gives a map with these entries.
import Mathlib

open Std

namespace Std.ExtTreeMap

variable {κ α : Type} {cmp : κ → κ → Ordering} [TransCmp cmp]

/-- The sum of `f` over all entries of the map. -/
def sumBy (f : κ → α → Nat) (m : ExtTreeMap κ α cmp) : Nat :=
  (m.toList.map (fun e => f e.1 e.2)).sum

/-- What the entry at `k` adds to the sum, or 0 with no entry. -/
def at0 (f : κ → α → Nat) (m : ExtTreeMap κ α cmp) (k : κ) : Nat :=
  (m[k]?.map (f k)).getD 0

@[simp] theorem sumBy_empty (f : κ → α → Nat) : sumBy f (∅ : ExtTreeMap κ α cmp) = 0 := by
  unfold sumBy
  rw [toList_eq_nil_iff.mpr rfl]
  rfl

theorem toList_nodup (m : ExtTreeMap κ α cmp) : m.toList.Nodup := by
  refine m.distinct_keys_toList.imp ?_
  intro a b hab he
  exact hab (by rw [he]; exact ReflCmp.compare_self)

theorem toList_keys_ne (m : ExtTreeMap κ α cmp) : m.toList.Pairwise fun e f => e.1 ≠ f.1 := by
  refine m.distinct_keys_toList.imp ?_
  intro e f hne heq
  exact hne (by rw [heq]; exact ReflCmp.compare_self)

theorem at0_of_some {f : κ → α → Nat} {m : ExtTreeMap κ α cmp} {k : κ} {v : α}
    (h : m[k]? = some v) : at0 f m k = f k v := by
  simp [at0, h]

theorem at0_of_none {f : κ → α → Nat} {m : ExtTreeMap κ α cmp} {k : κ}
    (h : m[k]? = none) : at0 f m k = 0 := by
  simp [at0, h]

variable [LawfulEqCmp cmp]

/-- The entries after an insert: the new one, and the old ones at other keys. -/
theorem toList_insert_perm (m : ExtTreeMap κ α cmp) (k : κ) (v : α) :
    (m.insert k v).toList.Perm ((k, v) :: (m.erase k).toList) := by
  have hnew : (k, v) ∉ (m.erase k).toList := by
    rw [mem_toList_iff_getElem?_eq_some]
    simp
  rw [List.perm_ext_iff_of_nodup (toList_nodup _) (List.nodup_cons.mpr ⟨hnew, toList_nodup _⟩)]
  rintro ⟨a, b⟩
  simp only [List.mem_cons, mem_toList_iff_getElem?_eq_some, getElem?_insert, getElem?_erase]
  by_cases h : cmp k a = .eq
  · have := LawfulEqCmp.eq_of_compare h
    subst this
    simp only [h, if_true, Option.some.injEq, Prod.mk.injEq, true_and, reduceCtorEq, or_false]
    exact eq_comm
  · have hne : a ≠ k := fun he => h (by rw [he]; exact ReflCmp.compare_self)
    simp [h, hne]

theorem toList_perm_erase {m : ExtTreeMap κ α cmp} {k : κ} {v : α} (h : m[k]? = some v) :
    m.toList.Perm ((k, v) :: (m.erase k).toList) := by
  have hi : m.insert k v = m := by
    apply ext_getElem?
    intro a
    rw [getElem?_insert]
    split
    · rename_i he
      rw [← LawfulEqCmp.eq_of_compare he, h]
    · rfl
  have hp := toList_insert_perm m k v
  rwa [hi] at hp

theorem erase_of_none {m : ExtTreeMap κ α cmp} {k : κ} (h : m[k]? = none) : m.erase k = m := by
  apply ext_getElem?
  intro a
  rw [getElem?_erase]
  split
  · rename_i he
    rw [← LawfulEqCmp.eq_of_compare he, h]
  · rfl

/-- An erase takes what the entry added. -/
theorem sumBy_erase (f : κ → α → Nat) (m : ExtTreeMap κ α cmp) (k : κ) :
    sumBy f (m.erase k) + at0 f m k = sumBy f m := by
  unfold at0
  rcases h : m[k]? with _ | v
  · simp [erase_of_none h]
  · have hp := (toList_perm_erase h).map (fun e => f e.1 e.2)
    unfold sumBy
    rw [hp.sum_eq]
    simp [Nat.add_comm]

/-- An insert puts the new entry in the place of the old one. -/
theorem sumBy_insert (f : κ → α → Nat) (m : ExtTreeMap κ α cmp) (k : κ) (v : α) :
    sumBy f (m.insert k v) + at0 f m k = sumBy f m + f k v := by
  have hp := (toList_insert_perm m k v).map (fun e => f e.1 e.2)
  have he := sumBy_erase f m k
  unfold sumBy at he ⊢
  rw [hp.sum_eq]
  simp only [List.map_cons, List.sum_cons]
  omega

theorem at0_le_sumBy (f : κ → α → Nat) (m : ExtTreeMap κ α cmp) (k : κ) :
    at0 f m k ≤ sumBy f m := by
  have := sumBy_erase f m k
  omega

/-- Two entries together. -/
theorem at0_add_at0_le_sumBy (f : κ → α → Nat) (m : ExtTreeMap κ α cmp) {k k' : κ} (h : k ≠ k') :
    at0 f m k + at0 f m k' ≤ sumBy f m := by
  have herase := sumBy_erase f m k
  have hle := at0_le_sumBy f (m.erase k) k'
  have hsame : at0 f (m.erase k) k' = at0 f m k' := by
    unfold at0
    rw [ExtTreeMap.getElem?_erase, if_neg fun hk => h (LawfulEqCmp.eq_of_compare hk)]
  omega

/-- The sum over the entries is the sum over all keys of what each key adds. -/
theorem sumBy_eq_finsum (f : κ → α → Nat) (m : ExtTreeMap κ α cmp) :
    sumBy f m = ∑ᶠ k, at0 f m k := by
  classical
  have hkeys : m.keys.Nodup := m.distinct_keys.imp fun hab he =>
    hab (by rw [he]; exact ReflCmp.compare_self)
  have hsub : Function.support (at0 f m) ⊆ m.keys.toFinset := by
    intro k hk
    rw [Function.mem_support] at hk
    simp only [List.coe_toFinset, Set.mem_ofPred_eq, mem_keys, mem_iff_isSome_getElem?]
    cases h : m[k]? with
    | none => exact absurd (at0_of_none h) hk
    | some v => rfl
  rw [finsum_eq_sum_of_support_subset _ hsub, List.sum_toFinset _ hkeys]
  unfold sumBy
  rw [← map_fst_toList_eq_keys, List.map_map]
  congr 1
  refine List.map_congr_left ?_
  rintro ⟨k, v⟩ hkv
  exact (at0_of_some (mem_toList_iff_getElem?_eq_some.mp hkv)).symm

/-! ## The map of a list of entries -/

theorem getElem?_foldl_insert {β : Type} (key : β → κ) (value : β → α) {l : List β}
    (hdist : l.Pairwise fun a b => key a ≠ key b) (m : ExtTreeMap κ α cmp) (k : κ) (v : α) :
    (l.foldl (fun m e => m.insert (key e) (value e)) m)[k]? = some v ↔
      (∃ e ∈ l, key e = k ∧ value e = v) ∨ (∀ e ∈ l, key e ≠ k) ∧ m[k]? = some v := by
  induction l generalizing m with
  | nil => simp
  | cons e l ih =>
    obtain ⟨hfirst, hrest⟩ := List.pairwise_cons.mp hdist
    rw [List.foldl_cons, ih hrest, getElem?_insert]
    by_cases hk : key e = k
    · subst hk
      have hnot : ∀ e' ∈ l, key e' ≠ key e := fun e' he' => (hfirst e' he').symm
      have hnone : ¬ ∃ e' ∈ l, key e' = key e ∧ value e' = v :=
        fun ⟨e', he', hkey, _⟩ => hnot e' he' hkey
      simp only [hnone, ReflCmp.compare_self, if_true, Option.some.injEq, false_or, List.mem_cons,
        exists_eq_or_imp, true_and, or_false, ne_eq, forall_eq_or_imp, not_true_eq_false, false_and]
      exact ⟨fun h => h.2, fun h => ⟨hnot, h⟩⟩
    · simp [hk]

/-- A map is put together again from its list. -/
theorem foldl_insert_toList (m : ExtTreeMap κ α cmp) :
    m.toList.foldl (fun m e => m.insert e.1 e.2) ∅ = m := by
  apply ext_getElem?
  intro k
  apply Option.ext
  intro v
  have hdist : m.toList.Pairwise fun e f => e.1 ≠ f.1 := m.distinct_keys_toList.imp fun hne heq =>
    hne (LawfulEqCmp.compare_eq_iff_eq.mpr heq)
  rw [getElem?_foldl_insert Prod.fst Prod.snd hdist]
  constructor
  · rintro (⟨⟨k', v'⟩, hmem, rfl, rfl⟩ | ⟨-, hnone⟩)
    · exact mem_toList_iff_getElem?_eq_some.mp hmem
    · simp at hnone
  · intro hv
    exact Or.inl ⟨(k, v), mem_toList_iff_getElem?_eq_some.mpr hv, rfl, rfl⟩

/-- Two lists of entries give one map if and only if they have the same entries. -/
theorem foldl_insert_eq_iff {β : Type} {key : β → κ} (hkey : Function.Injective key)
    {l₁ l₂ : List (β × α)} (h₁ : l₁.Pairwise fun a b => a.1 ≠ b.1)
    (h₂ : l₂.Pairwise fun a b => a.1 ≠ b.1) :
    l₁.foldl (fun m e => m.insert (key e.1) e.2) (∅ : ExtTreeMap κ α cmp) =
        l₂.foldl (fun m e => m.insert (key e.1) e.2) ∅ ↔
      ∀ e, e ∈ l₁ ↔ e ∈ l₂ := by
  have hmem : ∀ {l : List (β × α)}, l.Pairwise (fun a b => a.1 ≠ b.1) → ∀ k v,
      (l.foldl (fun m e => m.insert (key e.1) e.2) (∅ : ExtTreeMap κ α cmp))[k]? = some v ↔
        ∃ e ∈ l, key e.1 = k ∧ e.2 = v := by
    intro l hl k v
    rw [getElem?_foldl_insert (fun e : β × α => key e.1) Prod.snd
      (hl.imp fun hne he => hne (hkey he))]
    simp
  constructor
  · intro heq
    rintro ⟨b, v⟩
    have hb := (hmem h₁ (key b) v).symm.trans ((by rw [heq]) : _ ↔ _) |>.trans (hmem h₂ (key b) v)
    have hown : ∀ l : List (β × α), (∃ e ∈ l, key e.1 = key b ∧ e.2 = v) ↔ (b, v) ∈ l := by
      intro l
      constructor
      · rintro ⟨⟨b', v'⟩, he, hk, rfl⟩
        rwa [← hkey hk]
      · intro he
        exact ⟨_, he, rfl, rfl⟩
    rwa [hown, hown] at hb
  · intro hsame
    apply ext_getElem?
    intro k
    apply Option.ext
    intro v
    rw [hmem h₁, hmem h₂]
    simp only [hsame]

end Std.ExtTreeMap
