-- The proposer's turns (`ValidatorSet::proposer`): consecutive rounds, like consecutive
-- heights, go once around the sorted members, whatever their powers are.
import Pemrix.Rotation
import Pemrix.TreeMapSums
import Pemrix.ValidatorSet

open Std

namespace Pemrix

namespace ValidatorSet

variable {set other : ValidatorSet}

def remove (set : ValidatorSet) (address : Address) : ValidatorSet := ⟨set.validators.erase address⟩

def len (set : ValidatorSet) : Nat := set.validators.size

/-! ## The sorted members -/

theorem is_validator_iff {a : Address} : set.is_validator a = true ↔ a ∈ set.validators.keys := by
  rw [ExtTreeMap.mem_keys]
  exact ExtTreeMap.contains_iff_mem

theorem keys_nodup (set : ValidatorSet) : set.validators.keys.Nodup := ExtTreeMap.nodup_keys

theorem length_keys (set : ValidatorSet) : set.validators.keys.length = set.len :=
  ExtTreeMap.length_keys

theorem keys_ne_nil (h : set.is_empty = false) : set.validators.keys ≠ [] := by
  intro hnil
  have hempty : set.validators.isEmpty = true := by rw [← ExtTreeMap.isEmpty_keys, hnil]; rfl
  rw [is_empty, hempty] at h
  cases h

/-- The members decide the order they are walked in: the sets may differ in all else. -/
theorem keys_eq (h : ∀ a, other.is_validator a = set.is_validator a) :
    other.validators.keys = set.validators.keys := by
  have hperm : other.validators.keys.Perm set.validators.keys := by
    rw [List.perm_ext_iff_of_nodup other.keys_nodup set.keys_nodup]
    intro a
    rw [← is_validator_iff, ← is_validator_iff, h a]
  refine hperm.eq_of_pairwise ?_ ExtTreeMap.ordered_keys ExtTreeMap.ordered_keys
  intro a b _ _ hab hba
  rw [OrientedCmp.gt_of_lt hab] at hba
  cases hba

/-! ## The turns -/

theorem proposer_eq_turn (set : ValidatorSet) (height round : UInt64) :
    set.proposer height round = Rotation.turn set.validators.keys (height + round).toNat := by
  unfold proposer Rotation.turn
  cases hempty : set.is_empty with
  | false => rfl
  | true =>
    have hkeys : set.validators.keys = [] := by
      rw [← List.isEmpty_iff, ExtTreeMap.isEmpty_keys]
      exact hempty
    rw [hkeys]
    rfl

/-- There is a proposer unless there is no member, and it is one of them. -/
theorem exists_proposer (h : set.is_empty = false) (height round : UInt64) :
    ∃ a, set.proposer height round = some a ∧ set.is_validator a = true := by
  obtain ⟨a, ha, hturn⟩ := Rotation.exists_turn (keys_ne_nil h) (height + round).toNat
  exact ⟨a, by rw [proposer_eq_turn, hturn], is_validator_iff.mpr ha⟩

/-- No slot of the cycle wraps, so the slots count on from the first one. -/
theorem slot_toNat {height round : UInt64} {n i : Nat}
    (hroom : height.toNat + round.toNat + n ≤ 2 ^ 64) (hi : i < n) :
    (height + round + UInt64.ofNat i).toNat = height.toNat + round.toNat + i := by
  rw [UInt64.toNat_add, UInt64.toNat_add, UInt64.toNat_ofNat']
  omega

theorem existsUnique_slot {height round : UInt64}
    (hroom : height.toNat + round.toNat + set.len ≤ 2 ^ 64) {a : Address}
    (ha : set.is_validator a = true) :
    ∃! i, i < set.len ∧
      Rotation.turn set.validators.keys (height + round + UInt64.ofNat i).toNat = some a := by
  obtain ⟨i, ⟨hi, hturn⟩, honly⟩ := Rotation.existsUnique_turn set.keys_nodup
    (is_validator_iff.mp ha) (height.toNat + round.toNat)
  rw [set.length_keys] at hi
  refine ⟨i, ⟨hi, by rw [slot_toNat hroom hi, hturn]⟩, ?_⟩
  rintro j ⟨hj, hturn'⟩
  rw [slot_toNat hroom hj] at hturn'
  exact honly j ⟨by rw [set.length_keys]; exact hj, hturn'⟩

/-- Over as many consecutive rounds as there are members, and over as many consecutive
heights, every member is the proposer exactly once. The powers do not matter. -/
theorem proposer_rotation_fair (set : ValidatorSet) (height round : UInt64)
    (hsome : set.is_empty = false)
    (hroom : height.toNat + round.toNat + set.len ≤ 2 ^ 64) :
    (∀ a, set.is_validator a = true →
      (∃! i, i < set.len ∧ set.proposer height (round + UInt64.ofNat i) = some a) ∧
      (∃! i, i < set.len ∧ set.proposer (height + UInt64.ofNat i) round = some a)) ∧
    (∀ other : ValidatorSet, (∀ a, other.is_validator a = set.is_validator a) →
      ∀ h r, other.proposer h r = set.proposer h r) ∧
    (∀ h r, ∃ a, set.proposer h r = some a ∧ set.is_validator a = true) := by
  refine ⟨?_, ?_, exists_proposer hsome⟩
  · intro a ha
    have hslot := existsUnique_slot hroom ha
    refine ⟨?_, ?_⟩
    · simp only [proposer_eq_turn, ← UInt64.add_assoc]
      exact hslot
    · have hswap : ∀ x : UInt64, height + x + round = height + round + x := fun x => by
        rw [UInt64.add_assoc, UInt64.add_comm x round, UInt64.add_assoc]
      simp only [proposer_eq_turn, hswap]
      exact hslot
  · intro other hsame h r
    rw [proposer_eq_turn, proposer_eq_turn, keys_eq hsame]

/-- Three validators, entered and removed in an order that leaves its mark nowhere. -/
theorem proposer_rotation_fair_of_three :
    let address := fun n : UInt8 => (⟨Vector.replicate 32 n⟩ : Address)
    let set := ((((new.add (address 7) 5).add (address 9) 1).remove (address 7)).add
      (address 3) 2).add (address 8) 40
    set.validators.keys = [address 3, address 8, address 9] ∧
    (∀ a, set.is_validator a = true →
      (∃! i, i < set.len ∧ set.proposer 1 (0 + UInt64.ofNat i) = some a) ∧
      (∃! i, i < set.len ∧ set.proposer (1 + UInt64.ofNat i) 0 = some a)) :=
  ⟨by decide +kernel, (proposer_rotation_fair _ 1 0 (by decide +kernel) (by decide +kernel)).1⟩

end ValidatorSet

end Pemrix
