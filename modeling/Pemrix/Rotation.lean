-- Round-robin over a list without repetition: the turns from any start on are the list
-- rotated, so as many turns as there are elements give every element exactly once.
import Mathlib.Data.List.Rotate

namespace Rotation

variable {α : Type} {l : List α}

/-- Whose turn it is in slot `k`. -/
def turn (l : List α) (k : Nat) : Option α := l[k % l.length]?

theorem turn_add (l : List α) (start : Nat) {i : Nat} (hi : i < l.length) :
    turn l (start + i) = (l.rotate start)[i]? := by
  unfold turn
  rw [List.getElem?_rotate hi, Nat.add_comm]

/-- Every slot is the turn of an element, unless there is none. -/
theorem exists_turn (hl : l ≠ []) (k : Nat) : ∃ a ∈ l, turn l k = some a := by
  have hk : k % l.length < l.length := Nat.mod_lt k (List.length_pos_iff.mpr hl)
  exact ⟨l[k % l.length], List.getElem_mem hk, List.getElem?_eq_getElem hk⟩

theorem existsUnique_turn (hl : l.Nodup) {a : α} (ha : a ∈ l) (start : Nat) :
    ∃! i, i < l.length ∧ turn l (start + i) = some a := by
  obtain ⟨i, hi⟩ := List.mem_iff_getElem?.mp (List.mem_rotate.mpr ha : a ∈ l.rotate start)
  have hlt : i < l.length := by
    rw [← List.length_rotate l start]
    exact (List.getElem?_eq_some_iff.mp hi).1
  refine ⟨i, ⟨hlt, by rw [turn_add l start hlt, hi]⟩, ?_⟩
  rintro j ⟨hj, hturn⟩
  rw [turn_add l start hj] at hturn
  have hj' : j < (l.rotate start).length := by rw [List.length_rotate]; exact hj
  exact (List.getElem?_inj hj' (List.nodup_rotate.mpr hl)).mp (hturn.trans hi.symm)

end Rotation
