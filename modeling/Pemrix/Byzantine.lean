-- The arithmetic of the quorum. Where twice the total power fits in a `u64`, the
-- threshold is the least power above two thirds: two quorums share more than a
-- third, and all but less than a third are a quorum.
import Pemrix.VotingPower

open Std

namespace Pemrix

namespace ValidatorSet

/-- The power of the validators with the property. A group of validators is a property of
addresses; an address that is not in the set has no power. -/
def group_power (set : ValidatorSet) (p : Address → Prop) [DecidablePred p] : Nat :=
  set.validators.weight p

/-- The threshold is a quorum of Byzantine voters. -/
structure ByzantineSafe (set : ValidatorSet) : Prop where
  two_thirds : 2 * set.total < 3 * set.quorum_threshold.toNat
  least : ∀ n, 2 * set.total < 3 * n → set.quorum_threshold.toNat ≤ n
  reachable : set.quorum_threshold.toNat ≤ set.total
  /-- Two quorums share more than a third of the power. -/
  intersect : ∀ (p q : Address → Prop) [DecidablePred p] [DecidablePred q],
    set.quorum_threshold.toNat ≤ set.group_power p →
    set.quorum_threshold.toNat ≤ set.group_power q →
    set.total < 3 * set.group_power fun a => p a ∧ q a
  /-- Where less than a third fails, the others are a quorum. -/
  live : ∀ (f : Address → Prop) [DecidablePred f], 3 * set.group_power f < set.total →
    set.quorum_threshold.toNat ≤ set.group_power fun a => ¬ f a

variable {set : ValidatorSet}

theorem byzantineSafe (hpos : 1 ≤ set.total) (hfits : 2 * set.total < 2 ^ 64) :
    set.ByzantineSafe := by
  have hq := toNat_quorum_threshold hfits
  refine ⟨two_thirds_of_quorum hfits (Nat.le_refl _), ?_, ?_, ?_, ?_⟩
  · intro n hn
    rw [hq]
    omega
  · rw [hq]
    omega
  · intro p q _ _ hp hq
    exact ExtTreeMap.totalWeight_lt_common (two_thirds_of_quorum hfits hp)
      (two_thirds_of_quorum hfits hq)
  · intro f _ hf
    have hadd : set.group_power f + (set.group_power fun a => ¬ f a) = set.total :=
      ExtTreeMap.weight_add_weight_not
    rw [hq]
    omega

end ValidatorSet

namespace BftConsensus

variable {B : Type}

/-- There is a quorum if and only if the members with a vote have the power of one. -/
theorem has_quorum_iff_group_power (e : BftConsensus B)
    (hfits : e.validator_set.total < 2 ^ 64) (height : UInt64) :
    e.has_quorum height = true ↔
      e.validator_set.quorum_threshold.toNat ≤
        e.validator_set.group_power fun a => a ∈ (e.round height).votes := by
  have hweight : (e.validator_set.group_power fun a => a ∈ (e.round height).votes) ≤
      e.validator_set.total := ExtTreeMap.weight_le_totalWeight
  rw [has_quorum_iff, UInt64.le_iff_toNat_le,
    e.toNat_vote_power (e.round height) (Nat.lt_of_le_of_lt hweight hfits)]
  exact Iff.rfl

end BftConsensus

/-- The quorum of every set of some power is Byzantine-safe, and an engine with the set has a
quorum exactly if the members with a recorded vote have the power of one. -/
theorem quorum_arithmetic_is_byzantine_safe (set : ValidatorSet) (hpos : 1 ≤ set.total)
    (hfits : 2 * set.total < 2 ^ 64) :
    set.ByzantineSafe ∧
      ∀ {B : Type} (e : BftConsensus B), e.validator_set = set → ∀ height,
        (e.has_quorum height = true ↔
          set.quorum_threshold.toNat ≤
            set.group_power fun a => a ∈ (e.round height).votes) := by
  refine ⟨ValidatorSet.byzantineSafe hpos hfits, ?_⟩
  rintro B e rfl height
  exact e.has_quorum_iff_group_power (by omega) height

end Pemrix

namespace Pemrix.Concrete

/-- Three validators of unequal power. -/
def weighted : ValidatorSet := .from_validators [⟨addr 1, 3⟩, ⟨addr 2, 2⟩, ⟨addr 3, 2⟩]

theorem weighted_quorum_is_byzantine_safe :
    weighted.total = 7 ∧ weighted.quorum_threshold = 5 ∧ weighted.ByzantineSafe := by
  have htotal : weighted.total = 7 := by decide +kernel
  refine ⟨htotal, by decide +kernel, ?_⟩
  exact (quorum_arithmetic_is_byzantine_safe weighted (by omega) (by omega)).1

end Pemrix.Concrete
