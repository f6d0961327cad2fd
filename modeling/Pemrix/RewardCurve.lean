-- The curve of the block reward. Each reward is the decayed initial reward or the floor,
-- and the cumulative issuance, which goes by whole steps of the schedule, is the sum of the
-- rewards of its blocks.
import Pemrix.Tokenomics

open Std

namespace Pemrix

namespace TokenomicsConfig

/-- The parameters of a schedule that decays towards its floor. -/
structure WellFormed (c : TokenomicsConfig) : Prop where
  interval : 1 ≤ c.decay_interval
  numerator : 1 ≤ c.decay_numerator
  fraction : c.decay_numerator ≤ c.decay_denominator
  floor : c.min_block_reward ≤ c.initial_block_reward

variable (c : TokenomicsConfig)

/-- One decay of a reward, on numbers without a bound. -/
def decayed_reward (r : Nat) : Nat := r * c.decay_numerator.toNat / c.decay_denominator.toNat

/-- The initial reward after some decays, without the floor. -/
def curve (steps : Nat) : Nat := c.decayed_reward^[steps] c.initial_block_reward.toNat

/-- The rewards of the blocks from height 1 on, up to a height. -/
def reward_sum (height : Nat) : Nat :=
  ∑ j ∈ Finset.range height, (c.block_reward (UInt64.ofNat (j + 1))).toNat

variable {c}

namespace WellFormed

theorem interval_pos (h : c.WellFormed) : 0 < c.decay_interval.toNat :=
  UInt64.le_iff_toNat_le.mp h.interval

theorem toNat_fraction (h : c.WellFormed) : c.decay_numerator.toNat ≤ c.decay_denominator.toNat :=
  UInt64.le_iff_toNat_le.mp h.fraction

theorem toNat_floor (h : c.WellFormed) : c.min_block_reward.toNat ≤ c.initial_block_reward.toNat :=
  BitVec.le_def.mp h.floor

end WellFormed

/-! ## The sum of the rewards -/

theorem rewards_eq_sum (h : c.WellFormed) {blocks : Nat} (hblocks : blocks < 2 ^ 64) :
    c.rewards 0 blocks = c.reward_sum blocks := by
  unfold rewards reward_sum
  refine Finset.sum_congr rfl ?_
  intro j hj
  have htoNat : (UInt64.ofNat (j + 1)).toNat = j + 1 := by
    have := Finset.mem_range.mp hj
    rw [UInt64.toNat_ofNat', Nat.mod_eq_of_lt (by omega)]
  have hne : UInt64.ofNat (j + 1) ≠ 0 := by
    intro hzero
    rw [hzero] at htoNat
    cases htoNat
  rw [c.block_reward_eq h.toNat_fraction h.toNat_floor hne, htoNat, Nat.add_sub_cancel,
    Nat.zero_add]

theorem reward_sum_succ (height : Nat) :
    c.reward_sum (height + 1) =
      c.reward_sum height + (c.block_reward (UInt64.ofNat (height + 1))).toNat :=
  Finset.sum_range_succ ..

/-- The cumulative issuance is the sum of the rewards of its blocks, cut off at the end of the
`u128`, and it grows by the reward of each block until then. -/
theorem total_issued_is_the_sum_of_the_rewards (c : TokenomicsConfig) (h : c.WellFormed)
    (height : UInt64) :
    ∃ issued, c.total_issued_by_height height = some issued ∧
      issued.toNat = min U128.MAX.toNat (c.reward_sum height.toNat) ∧
      (height.toNat + 1 < 2 ^ 64 → c.reward_sum (height.toNat + 1) ≤ U128.MAX.toNat →
        ∃ next, c.total_issued_by_height (height + 1) = some next ∧
          next.toNat = issued.toNat + (c.block_reward (height + 1)).toNat) := by
  have hissued := fun height => c.total_issued_eq h.interval_pos height
  obtain ⟨issued, hloop, hsum⟩ := hissued height
  rw [c.rewards_eq_sum h height.toNat_lt, Nat.min_comm, ← U128.toNat_max] at hsum
  refine ⟨issued, hloop, hsum, ?_⟩
  intro hlast hroom
  have hnext : (height + 1).toNat = height.toNat + 1 := by
    rw [UInt64.toNat_add, UInt64.toNat_one, Nat.mod_eq_of_lt hlast]
  have hofNat : UInt64.ofNat (height.toNat + 1) = height + 1 := by
    rw [← hnext, UInt64.ofNat_toNat]
  obtain ⟨next, hloop', hsum'⟩ := hissued (height + 1)
  rw [c.rewards_eq_sum h (height + 1).toNat_lt, Nat.min_comm, ← U128.toNat_max, hnext] at hsum'
  refine ⟨next, hloop', ?_⟩
  have hstep := c.reward_sum_succ height.toNat
  rw [hofNat] at hstep
  omega

/-! ## The curve -/

theorem decayed_reward_le (h : c.WellFormed) (r : Nat) : c.decayed_reward r ≤ r := by
  refine Nat.div_le_of_le_mul ?_
  rw [Nat.mul_comm c.decay_denominator.toNat]
  exact Nat.mul_le_mul_left r h.toNat_fraction

theorem curve_succ (steps : Nat) : c.curve (steps + 1) = c.decayed_reward (c.curve steps) :=
  Function.iterate_succ_apply' ..

theorem curve_le (h : c.WellFormed) (steps : Nat) :
    c.curve steps ≤ c.initial_block_reward.toNat := by
  induction steps with
  | zero => exact Nat.le_refl _
  | succ steps ih =>
    rw [c.curve_succ]
    exact Nat.le_trans (c.decayed_reward_le h _) ih

/-- The reward of a step is the curve or the floor. -/
theorem toNat_step_reward (h : c.WellFormed)
    (hfits : c.initial_block_reward.toNat * c.decay_numerator.toNat < 2 ^ 128) (steps : Nat) :
    (c.step_reward steps).toNat = max c.min_block_reward.toNat (c.curve steps) := by
  induction steps with
  | zero => exact (Nat.max_eq_right h.toNat_floor).symm
  | succ steps ih =>
    have hle := c.decayed_reward_le h (c.curve steps)
    rw [step_reward_succ, c.curve_succ]
    unfold next_reward
    split
    · -- Above the floor: a decay of the curve that does not saturate.
      rename_i habove
      have habove := BitVec.lt_def.mp habove
      have hcurve : (c.step_reward steps).toNat = c.curve steps := by omega
      have hdecay : (c.decay (c.step_reward steps)).toNat = c.decayed_reward (c.curve steps) := by
        have hmul : c.curve steps * c.decay_numerator.toNat ≤
            c.initial_block_reward.toNat * c.decay_numerator.toNat :=
          Nat.mul_le_mul_right _ (c.curve_le h steps)
        rw [toNat_decay, hcurve, Nat.min_eq_left (by omega)]
        rfl
      dsimp only
      split
      · rename_i hlt
        have hlt := BitVec.lt_def.mp hlt
        omega
      · rename_i hnot
        have hnot := BitVec.le_def.mp (BitVec.not_lt.mp hnot)
        omega
    · -- At the floor: the curve is below it from here on.
      rename_i hfloor
      have hfloor := BitVec.le_def.mp (BitVec.not_lt.mp hfloor)
      omega

theorem step_reward_antitone (h : c.WellFormed) :
    Antitone fun steps => (c.step_reward steps).toNat := by
  refine antitone_nat_of_succ_le ?_
  intro steps
  rw [step_reward_succ]
  exact c.toNat_next_reward_le h.toNat_fraction _

/-- The divisions of the curve only cut off. -/
theorem curve_le_rational (steps : Nat) :
    (c.curve steps : ℚ) ≤ c.initial_block_reward.toNat *
      ((c.decay_numerator.toNat : ℚ) / c.decay_denominator.toNat) ^ steps := by
  induction steps with
  | zero =>
    rw [pow_zero, mul_one]
    rfl
  | succ steps ih =>
    have hdiv : (c.curve (steps + 1) : ℚ) ≤
        c.curve steps * ((c.decay_numerator.toNat : ℚ) / c.decay_denominator.toNat) := by
      rw [c.curve_succ, ← mul_div_assoc]
      exact_mod_cast Nat.cast_div_le (α := ℚ)
    refine hdiv.trans ?_
    rw [pow_succ, ← mul_assoc]
    exact mul_le_mul_of_nonneg_right ih (by positivity)

/-- The block reward is the floor or the initial reward after `(height - 1) / decay_interval`
decays; it never rises, stays between the floor and the initial reward, and above the floor it
is at most the exact fraction. -/
theorem block_reward_follows_the_curve (c : TokenomicsConfig) (h : c.WellFormed)
    (hfits : c.initial_block_reward.toNat * c.decay_numerator.toNat < 2 ^ 128) (height : UInt64)
    (hheight : 1 ≤ height) :
    let k := (height.toNat - 1) / c.decay_interval.toNat
    (c.block_reward height).toNat = max c.min_block_reward.toNat (c.curve k) ∧
      (∀ later, height ≤ later → c.block_reward later ≤ c.block_reward height) ∧
      c.min_block_reward ≤ c.block_reward height ∧
      c.block_reward height ≤ c.initial_block_reward ∧
      (c.min_block_reward < c.block_reward height →
        ((c.block_reward height).toNat : ℚ) ≤ c.initial_block_reward.toNat *
          ((c.decay_numerator.toNat : ℚ) / c.decay_denominator.toNat) ^ k) := by
  intro k
  have hreward : ∀ later, height ≤ later → c.block_reward later =
      c.step_reward ((later.toNat - 1) / c.decay_interval.toNat) := by
    intro later hle
    refine c.block_reward_eq h.toNat_fraction h.toNat_floor ?_
    rintro rfl
    have := UInt64.le_iff_toNat_le.mp (UInt64.le_trans hheight hle)
    simp at this
  have hk := c.toNat_step_reward h hfits k
  rw [hreward height (UInt64.le_refl _)]
  refine ⟨hk, ?_, ?_, ?_, ?_⟩
  · intro later hle
    rw [hreward later hle]
    refine BitVec.le_def.mpr (c.step_reward_antitone h ?_)
    exact Nat.div_le_div_right (Nat.sub_le_sub_right (UInt64.le_iff_toNat_le.mp hle) 1)
  · rw [BitVec.le_def, hk]
    exact Nat.le_max_left ..
  · exact BitVec.le_def.mpr (c.toNat_step_reward_le h.toNat_fraction k)
  · intro habove
    rw [BitVec.lt_def, hk] at habove
    rw [hk, Nat.max_eq_right (by omega)]
    exact c.curve_le_rational k

/-! ## The schedule of the mainnet -/

theorem mainnet_well_formed : mainnet.WellFormed := ⟨by decide, by decide, by decide, by decide⟩

/-- The second block of the mainnet adds its reward. -/
theorem mainnet_total_is_the_sum :
    ∃ issued next, mainnet.total_issued_by_height 1 = some issued ∧
      mainnet.total_issued_by_height 2 = some next ∧
      next.toNat = issued.toNat + (mainnet.block_reward 2).toNat := by
  obtain ⟨issued, hissued, -, hgrows⟩ :=
    total_issued_is_the_sum_of_the_rewards mainnet mainnet_well_formed 1
  obtain ⟨next, hnext, hadd⟩ := hgrows (by decide) (by decide +kernel)
  exact ⟨issued, next, hissued, hnext, hadd⟩

/-- The first block after the first decay. -/
theorem mainnet_first_decay :
    (mainnet.block_reward 2000001).toNat = max mainnet.min_block_reward.toNat (mainnet.curve 1) :=
  (block_reward_follows_the_curve mainnet mainnet_well_formed (by decide) 2000001 (by decide)).1

end TokenomicsConfig

end Pemrix
