-- What the engine counts: where the powers of a set fit in a `u64`, the power
-- behind the votes of a round is the weight of its voters, and the threshold is
-- the least power above two thirds of the total.
import Pemrix.Quorum
import Pemrix.BftSteps

open Std

namespace Pemrix

namespace ValidatorSet

/-- The total power as a number that does not wrap. -/
def total (set : ValidatorSet) : Nat := set.validators.totalWeight

/-- The power of a validator in the list is its power in the map. -/
theorem find_validator (set : ValidatorSet) (a : Address) :
    (set.validators_list.find? fun v => v.address = a).map (·.power) = set.validators[a]? := by
  have hpred : ((fun v : Validator => decide (v.address = a)) ∘ fun e => ⟨e.1, e.2⟩) =
      fun e : Address × UInt64 => compare e.1 a == .eq := by
    funext e
    rw [Bool.eq_iff_iff]
    simp
  unfold validators_list
  rw [List.find?_map, hpred]
  cases hm : set.validators[a]? with
  | none =>
    rw [ExtTreeMap.find?_toList_eq_none_iff_not_mem.mpr]
    · rfl
    · rw [ExtTreeMap.mem_iff_isSome_getElem?, hm]
      simp
  | some w =>
    have hkey : set.validators.getKey? a = some a := by
      refine ExtTreeMap.getKey?_eq_some ?_
      rw [ExtTreeMap.mem_iff_isSome_getElem?, hm]
      rfl
    rw [ExtTreeMap.find?_toList_eq_some_iff_getKey?_eq_some_and_getElem?_eq_some.mpr ⟨hkey, hm⟩]
    rfl

theorem toNat_total_power {set : ValidatorSet} (h : set.total < 2 ^ 64) :
    set.total_power.toNat = set.total := by
  have hsum : ((set.validators.toList.map (·.2)).map UInt64.toNat).sum = set.total := by
    rw [List.map_map]
    rfl
  unfold total_power
  rw [ExtTreeMap.toNat_sum_of_lt _ (by omega), hsum]

theorem toNat_quorum_threshold {set : ValidatorSet} (h : 2 * set.total < 2 ^ 64) :
    set.quorum_threshold.toNat = set.total * 2 / 3 + 1 := by
  have ht : set.total_power.toNat = set.total := toNat_total_power (by omega)
  have hmul : (set.total_power * 2).toNat = set.total * 2 := by
    rw [UInt64.toNat_mul, ht]
    exact Nat.mod_eq_of_lt (by simp only [UInt64.reduceToNat]; omega)
  unfold quorum_threshold
  rw [UInt64.toNat_add, UInt64.toNat_div, hmul]
  exact Nat.mod_eq_of_lt (by simp only [UInt64.reduceToNat]; omega)

/-- A power that reaches the threshold is more than two thirds of the total. -/
theorem two_thirds_of_quorum {set : ValidatorSet} (h : 2 * set.total < 2 ^ 64) {n : Nat}
    (hn : set.quorum_threshold.toNat ≤ n) : 2 * set.total < 3 * n := by
  rw [toNat_quorum_threshold h] at hn
  omega

end ValidatorSet

namespace BftConsensus

variable {B : Type}

/-- The power behind a round is the weight of its voters in the set, where that fits. -/
theorem toNat_vote_power (e : BftConsensus B) (r : RoundState)
    (h : (e.validator_set.validators.weight fun a => a ∈ r.votes) < 2 ^ 64) :
    (e.vote_power r).toNat = e.validator_set.validators.weight fun a => a ∈ r.votes := by
  have hkeys : r.votes.keys.Nodup := r.votes.distinct_keys.imp fun hab he =>
    hab (by rw [he]; exact ReflCmp.compare_self)
  have hsum : ((r.votes.keys.map fun addr =>
      ((e.validator_set.validators_list.find? fun v => v.address = addr).map (·.power)).getD 0).map
        UInt64.toNat).sum = e.validator_set.validators.weight fun a => a ∈ r.votes := by
    rw [← ExtTreeMap.sum_lookup_eq_weight hkeys fun a => ExtTreeMap.mem_keys, List.map_map]
    congr 1
    refine List.map_congr_left ?_
    intro a _
    simp only [Function.comp_apply, ValidatorSet.find_validator]
    cases e.validator_set.validators[a]? with
    | none => rfl
    | some w => rfl
  unfold vote_power
  rw [ExtTreeMap.toNat_sum_of_lt, hsum]
  rw [hsum]
  exact h

end BftConsensus

end Pemrix
