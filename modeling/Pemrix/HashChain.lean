-- Chains of items that name their parent by its hash. The hash of the last item
-- fixes the whole chain, as long as no two of the hashes collide.
import Mathlib.Data.List.Induction
import Mathlib.Data.Set.Function

namespace HashChain

variable {α H : Type} (hash parent : α → H)

/-- Each item names the one before it, and the first names `start`. -/
def Linked (start : H) : List α → Prop
  | [] => True
  | a :: items => parent a = start ∧ Linked (hash a) items

/-- The hash of the last item. -/
def tip (start : H) (items : List α) : H := items.foldl (fun _ a => hash a) start

variable {hash parent} {start : H} {items items' : List α} {a : α}

@[simp] theorem tip_nil : tip hash start [] = start := rfl

@[simp] theorem tip_snoc : tip hash start (items ++ [a]) = hash a := by
  rw [tip, List.foldl_append]
  rfl

theorem linked_append :
    Linked hash parent start (items ++ items') ↔
      Linked hash parent start items ∧ Linked hash parent (tip hash start items) items' := by
  induction items generalizing start with
  | nil => simp [Linked]
  | cons a items ih =>
    rw [List.cons_append, Linked, Linked, ih, and_assoc]
    rfl

theorem linked_snoc :
    Linked hash parent start (items ++ [a]) ↔
      Linked hash parent start items ∧ parent a = tip hash start items := by
  rw [linked_append]
  simp [Linked]

/-- Two chains from one start with the same tip are the same, if `start` is the hash of none of
their items and equal hashes are those of equal items. -/
theorem eq_of_tip (hstart : ∀ a ∈ items ++ items', hash a ≠ start)
    (hinj : Set.InjOn hash {a | a ∈ items ++ items'})
    (h : Linked hash parent start items) (h' : Linked hash parent start items')
    (htip : tip hash start items = tip hash start items') : items = items' := by
  induction items using List.reverseRecOn generalizing items' with
  | nil =>
    cases items' using List.reverseRecOn with
    | nil => rfl
    | append_singleton items' a' =>
      rw [tip_nil, tip_snoc] at htip
      exact absurd htip.symm (hstart a' (by simp))
  | append_singleton items a ih =>
    cases items' using List.reverseRecOn with
    | nil =>
      rw [tip_nil, tip_snoc] at htip
      exact absurd htip (hstart a (by simp))
    | append_singleton items' a' =>
      rw [tip_snoc, tip_snoc] at htip
      obtain rfl : a = a' := hinj (by simp) (by simp) htip
      obtain ⟨hbefore, hparent⟩ := linked_snoc.mp h
      obtain ⟨hbefore', hparent'⟩ := linked_snoc.mp h'
      have hsub : ∀ b ∈ items ++ items', b ∈ (items ++ [a]) ++ (items' ++ [a]) := by
        intro b hb
        rcases List.mem_append.mp hb with hb | hb
        · simp [hb]
        · simp [hb]
      rw [ih (fun b hb => hstart b (hsub b hb)) (hinj.mono hsub) hbefore hbefore'
        (hparent.symm.trans hparent')]

end HashChain
