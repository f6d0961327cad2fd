-- The issuance schedule (`TokenomicsConfig` of `pemrix-primitives`) and the supply
-- ceiling of `pemrix-protocol`. The loop over the decay steps adds up the rewards of
-- all blocks; the closed form for the supply counts one block for each step.
import Pemrix.Primitives

open Std

namespace Pemrix

/-! ## The model -/

namespace U128

def from_u64 (n : UInt64) : U128 := BitVec.ofNat 128 n.toNat

def saturating_mul (a b : U128) : U128 := if a.toNat * b.toNat < 2 ^ 128 then a * b else MAX

/-- A division cannot overflow; by 0 it panics. -/
def saturating_div (a b : U128) : U128 := a / b

end U128

structure TokenomicsConfig where
  initial_supply : U128
  initial_block_reward : U128
  decay_interval : UInt64
  decay_numerator : UInt64
  decay_denominator : UInt64
  min_block_reward : U128

/-- The locals of `total_issued_by_height` in its loop. -/
structure Issuance where
  total : U128
  current_reward : U128
  remaining : UInt64
  step_height : UInt64

namespace TokenomicsConfig

def mainnet : TokenomicsConfig :=
  { initial_supply := 1000000000000000000
    initial_block_reward := 10000000000
    decay_interval := 2000000
    decay_numerator := 9
    decay_denominator := 10
    min_block_reward := 100000000 }

def fast_test : TokenomicsConfig :=
  { initial_supply := 1000000000
    initial_block_reward := 1000
    decay_interval := 10
    decay_numerator := 9
    decay_denominator := 10
    min_block_reward := 1 }

/-- One decay of a reward. -/
def decay (c : TokenomicsConfig) (reward : U128) : U128 :=
  U128.saturating_div (U128.saturating_mul reward (.from_u64 c.decay_numerator))
    (.from_u64 c.decay_denominator)

/-- The loop of `block_reward`: it ends at the floor. -/
def block_reward_loop (c : TokenomicsConfig) : Nat → U128 → U128
  | 0, reward => reward
  | steps + 1, reward =>
    let reward := c.decay reward
    if reward ≤ c.min_block_reward then c.min_block_reward else c.block_reward_loop steps reward

def block_reward (c : TokenomicsConfig) (height : UInt64) : U128 :=
  if height = 0 then 0
  else c.block_reward_loop ((height - 1) / c.decay_interval).toNat c.initial_block_reward

/-- The reward after a step of `total_issued_by_height`. -/
def next_reward (c : TokenomicsConfig) (current_reward : U128) : U128 :=
  if c.min_block_reward < current_reward then
    let reward := c.decay current_reward
    if reward < c.min_block_reward then c.min_block_reward else reward
  else current_reward

/-- The body of the loop of `total_issued_by_height`. -/
def issue_step (c : TokenomicsConfig) (s : Issuance) : Issuance :=
  let step_end := s.step_height + c.decay_interval
  let blocks_in_step := min s.remaining c.decay_interval
  { total := U128.saturating_add s.total
      (U128.saturating_mul s.current_reward (.from_u64 blocks_in_step))
    -- A saturating subtraction of something that is not larger.
    remaining := s.remaining - blocks_in_step
    step_height := step_end
    current_reward := c.next_reward s.current_reward }

/-- The loop with a bound on its turns: `none` while it is still running. -/
def issue_loop (c : TokenomicsConfig) : Nat → Issuance → Option U128
  | 0, s => if 0 < s.remaining then none else some s.total
  | turns + 1, s => if 0 < s.remaining then c.issue_loop turns (c.issue_step s) else some s.total

/-- The issuance of the blocks up to a height. Each turn of the loop takes one block or more,
unless the decay interval is 0: then the loop does not end. -/
def total_issued_by_height (c : TokenomicsConfig) (height : UInt64) : Option U128 :=
  if height = 0 then some 0
  else c.issue_loop height.toNat ⟨0, c.initial_block_reward, height, 0⟩

def asymptotic_max_supply (c : TokenomicsConfig) : U128 :=
  if c.decay_denominator ≤ c.decay_numerator then U128.MAX
  else
    let denom_diff := U128.from_u64 (c.decay_denominator - c.decay_numerator)
    let infinite_issuance := U128.saturating_div
      (U128.saturating_mul c.initial_block_reward (.from_u64 c.decay_denominator)) denom_diff
    U128.saturating_add c.initial_supply infinite_issuance

end TokenomicsConfig

/-- The constant `pemrix_protocol::ONE_PMX`. -/
def ONE_PMX : Balance := 1000000000

def GENESIS_SUPPLY : Balance := 1000000000 * ONE_PMX

def MAX_PROTOCOL_ISSUANCE : Balance := 100000000 * ONE_PMX

/-- The constant `pemrix_protocol::MAX_SUPPLY`. -/
def MAX_SUPPLY : Balance := GENESIS_SUPPLY + MAX_PROTOCOL_ISSUANCE

inductive InvariantError where
  | SupplyCeilingExceeded
  deriving DecidableEq

def check_supply_invariant (total_supply : Balance) : Except InvariantError Unit :=
  if MAX_SUPPLY < total_supply then .error .SupplyCeilingExceeded else .ok ()

/-! ## Saturating arithmetic -/

namespace U128

theorem toNat_from_u64 (n : UInt64) : (from_u64 n).toNat = n.toNat := by
  have hlt := n.toNat_lt
  unfold from_u64
  rw [BitVec.toNat_ofNat, Nat.mod_eq_of_lt (by omega)]

theorem toNat_saturating_mul (a b : U128) :
    (saturating_mul a b).toNat = min (a.toNat * b.toNat) (2 ^ 128 - 1) := by
  unfold saturating_mul
  split
  · rename_i h
    rw [BitVec.toNat_mul, Nat.mod_eq_of_lt h]
    omega
  · rw [toNat_max]
    omega

theorem toNat_saturating_div (a b : U128) : (saturating_div a b).toNat = a.toNat / b.toNat :=
  BitVec.toNat_udiv

end U128

/-! ## The sum of the rewards -/

namespace TokenomicsConfig

variable (c : TokenomicsConfig)

/-- The reward of each block in a step. -/
def step_reward (step : Nat) : U128 := c.next_reward^[step] c.initial_block_reward

/-- The rewards of some blocks from the start of a step on. -/
def rewards (step blocks : Nat) : Nat :=
  ∑ j ∈ Finset.range blocks, (c.step_reward (step + j / c.decay_interval.toNat)).toNat

theorem step_reward_succ (step : Nat) :
    c.step_reward (step + 1) = c.next_reward (c.step_reward step) :=
  Function.iterate_succ_apply' ..

/-- Blocks of one step have one reward. -/
theorem rewards_of_le {step blocks : Nat} (h : blocks ≤ c.decay_interval.toNat) :
    c.rewards step blocks = blocks * (c.step_reward step).toNat := by
  unfold rewards
  have hsame : ∀ j ∈ Finset.range blocks,
      (c.step_reward (step + j / c.decay_interval.toNat)).toNat = (c.step_reward step).toNat := by
    intro j hj
    rw [Nat.div_eq_of_lt (Nat.lt_of_lt_of_le (Finset.mem_range.mp hj) h), Nat.add_zero]
  rw [Finset.sum_congr rfl hsame, Finset.sum_const, Finset.card_range, smul_eq_mul]

/-- A whole step, and the rest. -/
theorem rewards_add_interval (hI : 0 < c.decay_interval.toNat) (step blocks : Nat) :
    c.rewards step (c.decay_interval.toNat + blocks) =
      c.decay_interval.toNat * (c.step_reward step).toNat + c.rewards (step + 1) blocks := by
  rw [← c.rewards_of_le (Nat.le_refl _)]
  unfold rewards
  rw [Finset.sum_range_add]
  congr 1
  refine Finset.sum_congr rfl ?_
  intro j _
  rw [Nat.add_div_left j hI, Nat.add_assoc, Nat.add_comm 1]

/-- One turn of the loop takes its blocks from the rest. -/
theorem rewards_step (hI : 0 < c.decay_interval.toNat) (step blocks : Nat) :
    c.rewards step blocks =
      (c.step_reward step).toNat * min blocks c.decay_interval.toNat +
        c.rewards (step + 1) (blocks - min blocks c.decay_interval.toNat) := by
  by_cases hle : blocks ≤ c.decay_interval.toNat
  · rw [Nat.min_eq_left hle, Nat.sub_self, c.rewards_of_le hle, Nat.mul_comm]
    simp [rewards]
  · obtain ⟨more, rfl⟩ := Nat.exists_eq_add_of_le (Nat.le_of_not_le hle)
    rw [c.rewards_add_interval hI, Nat.min_eq_right (by omega), Nat.add_sub_cancel_left,
      Nat.mul_comm]

/-- The loop ends, with the saturated sum. -/
theorem issue_loop_eq (hI : 0 < c.decay_interval.toNat) (turns step : Nat) (s : Issuance)
    (hreward : s.current_reward = c.step_reward step) (hturns : s.remaining.toNat ≤ turns) :
    ∃ total, c.issue_loop turns s = some total ∧
      total.toNat = min (s.total.toNat + c.rewards step s.remaining.toNat) (2 ^ 128 - 1) := by
  have hbound := s.total.isLt
  induction turns generalizing s step with
  | zero =>
    have hzero : s.remaining.toNat = 0 := by omega
    have hnot : ¬ 0 < s.remaining := by
      rw [UInt64.lt_iff_toNat_lt, hzero]
      exact Nat.lt_irrefl 0
    refine ⟨s.total, by rw [issue_loop, if_neg hnot], ?_⟩
    rw [hzero]
    simp only [rewards, Finset.range_zero, Finset.sum_empty]
    omega
  | succ turns ih =>
    unfold issue_loop
    by_cases hpos : 0 < s.remaining
    · rw [if_pos hpos]
      have hpos' := UInt64.lt_iff_toNat_lt.mp hpos
      have hblocks : (min s.remaining c.decay_interval).toNat =
          min s.remaining.toNat c.decay_interval.toNat := by
        show (if s.remaining ≤ c.decay_interval then s.remaining else c.decay_interval).toNat = _
        split
        · rename_i hle
          rw [Nat.min_eq_left (UInt64.le_iff_toNat_le.mp hle)]
        · rename_i hle
          rw [UInt64.le_iff_toNat_le] at hle
          rw [Nat.min_eq_right (Nat.le_of_not_le hle)]
      have hrest : (c.issue_step s).remaining.toNat =
          s.remaining.toNat - min s.remaining.toNat c.decay_interval.toNat := by
        show (s.remaining - min s.remaining c.decay_interval).toNat = _
        rw [UInt64.toNat_sub_of_le, hblocks]
        rw [UInt64.le_iff_toNat_le, hblocks]
        exact Nat.min_le_left ..
      have htotal : (c.issue_step s).total.toNat = min (s.total.toNat +
          (c.step_reward step).toNat * min s.remaining.toNat c.decay_interval.toNat)
          (2 ^ 128 - 1) := by
        show (U128.saturating_add s.total _).toNat = _
        rw [U128.toNat_saturating_add, U128.toNat_saturating_mul, U128.toNat_from_u64, hblocks,
          hreward]
        omega
      have hnext : (c.issue_step s).current_reward = c.step_reward (step + 1) := by
        rw [step_reward_succ, ← hreward]
        rfl
      have hless : (c.issue_step s).remaining.toNat ≤ turns := by
        simp only [UInt64.toNat_zero] at hpos'
        rw [hrest]
        omega
      obtain ⟨total, hloop, hsum⟩ := ih (step + 1) (c.issue_step s) hnext hless
        (c.issue_step s).total.isLt
      refine ⟨total, hloop, ?_⟩
      rw [hsum, htotal, hrest, c.rewards_step hI step s.remaining.toNat]
      omega
    · rw [if_neg hpos]
      have hzero : s.remaining.toNat = 0 := by
        rw [UInt64.lt_iff_toNat_lt, UInt64.toNat_zero] at hpos
        omega
      refine ⟨s.total, rfl, ?_⟩
      rw [hzero]
      simp only [rewards, Finset.range_zero, Finset.sum_empty]
      omega

/-- The issuance is the saturated sum of the rewards of all blocks. -/
theorem total_issued_eq (hI : 0 < c.decay_interval.toNat) (height : UInt64) :
    ∃ issued, c.total_issued_by_height height = some issued ∧
      issued.toNat = min (c.rewards 0 height.toNat) (2 ^ 128 - 1) := by
  unfold total_issued_by_height
  split
  · rename_i hzero
    refine ⟨0, rfl, ?_⟩
    rw [hzero]
    simp [rewards]
  · obtain ⟨issued, hloop, hsum⟩ := c.issue_loop_eq hI height.toNat 0
      ⟨0, c.initial_block_reward, height, 0⟩ rfl (Nat.le_refl _)
    exact ⟨issued, hloop, by simpa using hsum⟩

theorem rewards_mono (step : Nat) {blocks more : Nat} (h : blocks ≤ more) :
    c.rewards step blocks ≤ c.rewards step more :=
  Finset.sum_le_sum_of_subset (Finset.range_mono h)

/-- Some whole steps, and a part of the next one. -/
theorem rewards_steps (hI : 0 < c.decay_interval.toNat) (steps : Nat) {part : Nat}
    (hpart : part ≤ c.decay_interval.toNat) (step : Nat) :
    c.rewards step (steps * c.decay_interval.toNat + part) =
      c.decay_interval.toNat * ∑ k ∈ Finset.range steps, (c.step_reward (step + k)).toNat +
        part * (c.step_reward (step + steps)).toNat := by
  induction steps generalizing step with
  | zero =>
    rw [Nat.zero_mul, Nat.zero_add, c.rewards_of_le hpart, Finset.range_zero, Finset.sum_empty,
      Nat.mul_zero, Nat.zero_add, Nat.add_zero]
  | succ steps ih =>
    have hsplit : (steps + 1) * c.decay_interval.toNat + part =
        c.decay_interval.toNat + (steps * c.decay_interval.toNat + part) := by ring
    have hshift : ∑ k ∈ Finset.range steps, (c.step_reward (step + 1 + k)).toNat =
        ∑ k ∈ Finset.range steps, (c.step_reward (step + (k + 1))).toNat := by
      refine Finset.sum_congr rfl ?_
      intro k _
      rw [Nat.add_right_comm, Nat.add_assoc]
    have hlast : step + 1 + steps = step + (steps + 1) := by omega
    rw [hsplit, c.rewards_add_interval hI, ih (step + 1), Finset.sum_range_succ', hshift, hlast,
      Nat.mul_add, Nat.add_zero step, ← Nat.add_assoc,
      Nat.add_comm (c.decay_interval.toNat * (c.step_reward step).toNat)]

theorem toNat_decay (r : U128) :
    (c.decay r).toNat =
      min (r.toNat * c.decay_numerator.toNat) (2 ^ 128 - 1) / c.decay_denominator.toNat := by
  unfold decay
  rw [U128.toNat_saturating_div, U128.toNat_saturating_mul, U128.toNat_from_u64,
    U128.toNat_from_u64]

theorem toNat_decay_le (hN : c.decay_numerator.toNat ≤ c.decay_denominator.toNat) (r : U128) :
    (c.decay r).toNat ≤ r.toNat := by
  rw [toNat_decay]
  refine Nat.div_le_of_le_mul ?_
  rw [Nat.mul_comm c.decay_denominator.toNat]
  exact Nat.le_trans (Nat.min_le_left ..) (Nat.mul_le_mul_left _ hN)

/-- A step does not raise a reward. -/
theorem toNat_next_reward_le (hN : c.decay_numerator.toNat ≤ c.decay_denominator.toNat) (r : U128) :
    (c.next_reward r).toNat ≤ r.toNat := by
  unfold next_reward
  split
  · rename_i hmin
    dsimp only
    split
    · exact Nat.le_of_lt hmin
    · exact c.toNat_decay_le hN r
  · exact Nat.le_refl _

theorem toNat_step_reward_le (hN : c.decay_numerator.toNat ≤ c.decay_denominator.toNat)
    (step : Nat) :
    (c.step_reward step).toNat ≤ c.initial_block_reward.toNat := by
  induction step with
  | zero => exact Nat.le_refl _
  | succ step ih =>
    rw [step_reward_succ]
    exact Nat.le_trans (c.toNat_next_reward_le hN _) ih

theorem rewards_le (hN : c.decay_numerator.toNat ≤ c.decay_denominator.toNat) (step blocks : Nat) :
    c.rewards step blocks ≤ blocks * c.initial_block_reward.toNat := by
  have hle : ∀ j ∈ Finset.range blocks,
      (c.step_reward (step + j / c.decay_interval.toNat)).toNat ≤ c.initial_block_reward.toNat :=
    fun j _ => c.toNat_step_reward_le hN _
  have hsum := Finset.sum_le_sum hle
  rwa [Finset.sum_const, Finset.card_range, smul_eq_mul] at hsum

/-- The floor is kept. -/
theorem next_reward_min (step : Nat) :
    c.next_reward^[step] c.min_block_reward = c.min_block_reward := by
  refine Function.iterate_fixed ?_ step
  unfold next_reward
  rw [if_neg (BitVec.lt_irrefl _)]

theorem block_reward_loop_eq (hN : c.decay_numerator.toNat ≤ c.decay_denominator.toNat)
    (steps : Nat)
    (reward : U128) (hmin : c.min_block_reward.toNat ≤ reward.toNat) :
    c.block_reward_loop steps reward = c.next_reward^[steps] reward := by
  induction steps generalizing reward with
  | zero => rfl
  | succ steps ih =>
    have hdecay := c.toNat_decay_le hN reward
    rw [Function.iterate_succ_apply]
    unfold block_reward_loop
    dsimp only
    split
    · -- The floor: it is the reward of this step and of all later ones.
      rename_i hle
      have hle' : (c.decay reward).toNat ≤ c.min_block_reward.toNat := hle
      have hnext : c.next_reward reward = c.min_block_reward := by
        unfold next_reward
        split
        · dsimp only
          split
          · rfl
          · rename_i hnot
            have hnot' : ¬ (c.decay reward).toNat < c.min_block_reward.toNat := hnot
            exact BitVec.eq_of_toNat_eq (by omega)
        · rename_i hnot
          have hnot' : ¬ c.min_block_reward.toNat < reward.toNat := hnot
          exact BitVec.eq_of_toNat_eq (by omega)
      rw [hnext, c.next_reward_min]
    · rename_i hnot
      have hnot' : ¬ (c.decay reward).toNat ≤ c.min_block_reward.toNat := hnot
      have hnext : c.next_reward reward = c.decay reward := by
        have habove : c.min_block_reward < reward :=
          show c.min_block_reward.toNat < reward.toNat by omega
        have hover : ¬ c.decay reward < c.min_block_reward :=
          show ¬ (c.decay reward).toNat < c.min_block_reward.toNat by omega
        unfold next_reward
        rw [if_pos habove]
        dsimp only
        rw [if_neg hover]
      rw [hnext]
      exact ih (c.decay reward) (by omega)

/-- The two loops of the schedule have the same reward at each height. -/
theorem block_reward_eq (hN : c.decay_numerator.toNat ≤ c.decay_denominator.toNat)
    (hmin : c.min_block_reward.toNat ≤ c.initial_block_reward.toNat) {height : UInt64}
    (hheight : height ≠ 0) :
    c.block_reward height = c.step_reward ((height.toNat - 1) / c.decay_interval.toNat) := by
  have hone : (1 : UInt64) ≤ height := by
    have hne : height.toNat ≠ 0 := fun h => hheight (UInt64.toNat_inj.mp h)
    rw [UInt64.le_iff_toNat_le]
    exact Nat.one_le_iff_ne_zero.mpr hne
  unfold block_reward
  rw [if_neg hheight, c.block_reward_loop_eq hN _ _ hmin, UInt64.toNat_div,
    UInt64.toNat_sub_of_le _ _ hone]
  rfl

/-! ## The ceiling -/

/-- The last height within the ceiling, in the seventh step of the schedule. -/
def last_height_within_ceiling : UInt64 := 13183235

theorem mainnet_rewards_at_ceiling : mainnet.rewards 0 13183235 = 99999995916350000 ∧
    mainnet.rewards 0 13183236 = 100000001230760000 := by
  have hsum : ∑ k ∈ Finset.range 6, (mainnet.step_reward (0 + k)).toNat = 46855900000 ∧
      (mainnet.step_reward (0 + 6)).toNat = 5314410000 := by
    decide +kernel
  have hI : mainnet.decay_interval.toNat = 2000000 := rfl
  have hpos : 0 < mainnet.decay_interval.toNat := by decide
  refine ⟨?_, ?_⟩
  · have hpart : 1183235 ≤ mainnet.decay_interval.toNat := by rw [hI]; decide
    have h := mainnet.rewards_steps hpos 6 hpart 0
    rw [hsum.1, hsum.2, hI] at h
    exact h
  · have hpart : 1183236 ≤ mainnet.decay_interval.toNat := by rw [hI]; decide
    have h := mainnet.rewards_steps hpos 6 hpart 0
    rw [hsum.1, hsum.2, hI] at h
    exact h

/-- The schedule of the mainnet stays within the supply ceiling up to height 13183235 and
exceeds it at every later one. -/
theorem mainnet_within_ceiling_iff (height : UInt64) :
    ∃ issued, mainnet.total_issued_by_height height = some issued ∧
      (check_supply_invariant (mainnet.initial_supply + issued) = .ok () ↔
        height ≤ last_height_within_ceiling) := by
  obtain ⟨issued, hissued, hsum⟩ := mainnet.total_issued_eq (by decide) height
  refine ⟨issued, hissued, ?_⟩
  have hfits : mainnet.rewards 0 height.toNat < 2 ^ 127 := by
    have hle := mainnet.rewards_le (by decide) 0 height.toNat
    have hlt := height.toNat_lt
    have hreward : mainnet.initial_block_reward.toNat = 10000000000 := rfl
    rw [hreward] at hle
    omega
  have hexact : issued.toNat = mainnet.rewards 0 height.toNat := by omega
  have htotal : (mainnet.initial_supply + issued).toNat = 1000000000000000000 + issued.toNat := by
    rw [BitVec.toNat_add, Nat.mod_eq_of_lt]
    · rfl
    · have hsupply : mainnet.initial_supply.toNat = 1000000000000000000 := rfl
      omega
  have hcheck : check_supply_invariant (mainnet.initial_supply + issued) = .ok () ↔
      issued.toNat ≤ 100000000000000000 := by
    have hmax : MAX_SUPPLY.toNat = 1100000000000000000 := by decide +kernel
    unfold check_supply_invariant
    split
    · rename_i hlt
      rw [BitVec.lt_def, hmax, htotal] at hlt
      simp only [reduceCtorEq, false_iff]
      omega
    · rename_i hnot
      rw [BitVec.lt_def, hmax, htotal] at hnot
      simp only [true_iff]
      omega
  obtain ⟨hin, hout⟩ := mainnet_rewards_at_ceiling
  have hlast : last_height_within_ceiling.toNat = 13183235 := rfl
  rw [hcheck, hexact, UInt64.le_iff_toNat_le, hlast]
  constructor
  · intro hle
    by_contra hlate
    have hmono := mainnet.rewards_mono 0 (Nat.succ_le_of_lt (Nat.lt_of_not_le hlate))
    rw [show Nat.succ 13183235 = 13183236 from rfl, hout] at hmono
    omega
  · intro hearly
    have hmono := mainnet.rewards_mono 0 hearly
    rw [hin] at hmono
    omega

/-- At the next height the ceiling is broken. -/
theorem mainnet_breaks_ceiling :
    (mainnet.total_issued_by_height 13183236).map
      (fun issued => check_supply_invariant (mainnet.initial_supply + issued)) =
        some (.error .SupplyCeilingExceeded) := by
  decide +kernel

/-! ## The closed form -/

/-- The blocks up to the height fit in the series even if each of them pays the initial reward, in
amounts as the integer type holds them. -/
def InitialRewardsFit (height : UInt64) : Prop :=
  let gap := c.decay_denominator.toNat - c.decay_numerator.toNat
  let paid := min (height.toNat * c.initial_block_reward.toNat) U128.MAX.toNat
  paid * gap ≤ min (c.initial_block_reward.toNat * c.decay_denominator.toNat) U128.MAX.toNat ∧
    c.initial_supply.toNat + paid ≤ U128.MAX.toNat

/-- What the closed form takes for granted: every step has one block, the floor has not stopped
the decay, and the integer type has room. -/
def OneBlockSteps (height : UInt64) : Prop :=
  let gap := c.decay_denominator.toNat - c.decay_numerator.toNat
  let series := c.initial_block_reward.toNat * c.decay_denominator.toNat
  c.decay_interval = 1 ∧
    (c.min_block_reward = 0 ∨ c.min_block_reward < c.block_reward height) ∧
    series ≤ U128.MAX.toNat ∧ c.initial_supply.toNat + series / gap ≤ U128.MAX.toNat

/-- A whole step pays more than the series has, or as much and some reward comes after it. -/
def LongSteps : Prop :=
  let gap := c.decay_denominator.toNat - c.decay_numerator.toNat
  c.decay_denominator.toNat < c.decay_interval.toNat * gap ∨
    c.decay_denominator.toNat = c.decay_interval.toNat * gap ∧ 0 < c.min_block_reward

/-- The closed form accounts for the blocks up to the height. -/
def SeriesCovers (height : UInt64) : Prop := c.InitialRewardsFit height ∨ c.OneBlockSteps height

instance (height : UInt64) : Decidable (c.InitialRewardsFit height) :=
  inferInstanceAs (Decidable (_ ∧ _))

instance (height : UInt64) : Decidable (c.OneBlockSteps height) :=
  inferInstanceAs (Decidable (_ ∧ _ ∧ _ ∧ _))

instance (height : UInt64) : Decidable (c.SeriesCovers height) :=
  inferInstanceAs (Decidable (_ ∨ _))

theorem step_reward_anti (hN : c.decay_numerator.toNat ≤ c.decay_denominator.toNat) {k steps : Nat}
    (h : k ≤ steps) : (c.step_reward steps).toNat ≤ (c.step_reward k).toNat := by
  have hanti : Antitone fun step => (c.step_reward step).toNat := by
    refine antitone_nat_of_succ_le fun step => ?_
    rw [step_reward_succ]
    exact c.toNat_next_reward_le hN _
  exact hanti h

/-- Above the floor, a step is a decay whose division only cuts off. -/
theorem next_reward_decays {reward : U128}
    (h : c.min_block_reward = 0 ∨ c.min_block_reward < c.next_reward reward) :
    c.decay_denominator.toNat * (c.next_reward reward).toNat ≤
      c.decay_numerator.toNat * reward.toNat := by
  have hdecay : c.decay_denominator.toNat * (c.decay reward).toNat ≤
      c.decay_numerator.toNat * reward.toNat := by
    rw [toNat_decay, Nat.mul_comm c.decay_numerator.toNat]
    exact Nat.le_trans (Nat.mul_div_le ..) (Nat.min_le_left ..)
  unfold next_reward at h ⊢
  dsimp only at h ⊢
  split at h
  · rename_i habove
    rw [if_pos habove]
    split at h
    · rename_i hbelow
      rcases h with hzero | hlt
      · rw [hzero] at hbelow
        exact absurd hbelow (Nat.not_lt_zero _)
      · exact absurd hlt (BitVec.lt_irrefl _)
    · rename_i hnot
      rw [if_neg hnot]
      exact hdecay
  · rename_i hnot
    rw [if_neg hnot]
    rcases h with hzero | hlt
    · rw [hzero] at hnot
      have hreward : reward.toNat = 0 := Nat.eq_zero_of_not_pos hnot
      rw [hreward, Nat.mul_zero, Nat.mul_zero]
    · exact absurd hlt hnot

/-- The series telescopes: each step pays no more than what the next decay takes away. -/
theorem gap_mul_sum_le (hN : c.decay_numerator.toNat ≤ c.decay_denominator.toNat) (steps : Nat)
    (h : ∀ k < steps, c.min_block_reward = 0 ∨ c.min_block_reward < c.step_reward (k + 1)) :
    (c.decay_denominator.toNat - c.decay_numerator.toNat) *
        ∑ k ∈ Finset.range steps, (c.step_reward k).toNat +
      c.decay_denominator.toNat * (c.step_reward steps).toNat ≤
        c.initial_block_reward.toNat * c.decay_denominator.toNat := by
  induction steps with
  | zero =>
    have hfirst : c.step_reward 0 = c.initial_block_reward := rfl
    rw [hfirst, Finset.range_zero, Finset.sum_empty, Nat.mul_zero, Nat.zero_add, Nat.mul_comm]
  | succ steps ih =>
    have hstep := h steps (Nat.lt_succ_self steps)
    rw [step_reward_succ] at hstep
    have hdecays := c.next_reward_decays hstep
    rw [← step_reward_succ] at hdecays
    have hgap : (c.decay_denominator.toNat - c.decay_numerator.toNat) *
        (c.step_reward steps).toNat + c.decay_numerator.toNat * (c.step_reward steps).toNat =
          c.decay_denominator.toNat * (c.step_reward steps).toNat := by
      rw [← Nat.add_mul, Nat.sub_add_cancel hN]
    have hbefore := ih fun k hk => h k (Nat.lt_succ_of_lt hk)
    rw [Finset.sum_range_succ, Nat.mul_add]
    omega

/-- Steps of one block above the floor stay within the series. -/
theorem gap_mul_rewards_le (hI : c.decay_interval = 1)
    (hN : c.decay_numerator.toNat ≤ c.decay_denominator.toNat)
    (hmin : c.min_block_reward.toNat ≤ c.initial_block_reward.toNat) {height : UInt64}
    (h : c.min_block_reward = 0 ∨ c.min_block_reward < c.block_reward height) :
    (c.decay_denominator.toNat - c.decay_numerator.toNat) * c.rewards 0 height.toNat ≤
      c.initial_block_reward.toNat * c.decay_denominator.toNat := by
  have hone : c.decay_interval.toNat = 1 := by
    rw [hI]
    rfl
  have hsum : c.rewards 0 height.toNat =
      ∑ k ∈ Finset.range height.toNat, (c.step_reward k).toNat := by
    unfold rewards
    rw [hone]
    simp only [Nat.div_one, Nat.zero_add]
  rw [hsum]
  by_cases hzero : height = 0
  · rw [hzero]
    exact Nat.zero_le _
  · obtain ⟨last, hlast⟩ : ∃ last, height.toNat = last + 1 :=
      Nat.exists_eq_succ_of_ne_zero fun h => hzero (UInt64.toNat_inj.mp h)
    rw [c.block_reward_eq hN hmin hzero, hone, Nat.div_one, hlast, Nat.add_sub_cancel] at h
    have hbefore := c.gap_mul_sum_le hN last fun k hk => h.imp_right fun hlt =>
      Nat.lt_of_lt_of_le hlt (c.step_reward_anti hN hk)
    have hgap : (c.decay_denominator.toNat - c.decay_numerator.toNat) *
        (c.step_reward last).toNat ≤ c.decay_denominator.toNat * (c.step_reward last).toNat :=
      Nat.mul_le_mul_right _ (Nat.sub_le ..)
    rw [hlast, Finset.sum_range_succ, Nat.mul_add]
    omega

theorem toNat_asymptotic_max_supply (hN : c.decay_numerator < c.decay_denominator) :
    c.asymptotic_max_supply.toNat =
      min (c.initial_supply.toNat +
          min (c.initial_block_reward.toNat * c.decay_denominator.toNat) (2 ^ 128 - 1) /
            (c.decay_denominator.toNat - c.decay_numerator.toNat)) (2 ^ 128 - 1) := by
  have hlt := UInt64.lt_iff_toNat_lt.mp hN
  have hnot : ¬ c.decay_denominator ≤ c.decay_numerator := by
    rw [UInt64.le_iff_toNat_le]
    omega
  have hle : c.decay_numerator ≤ c.decay_denominator := by
    rw [UInt64.le_iff_toNat_le]
    omega
  unfold asymptotic_max_supply
  rw [if_neg hnot]
  dsimp only
  rw [U128.toNat_saturating_add, U128.toNat_saturating_div, U128.toNat_saturating_mul,
    U128.toNat_from_u64, U128.toNat_from_u64, UInt64.toNat_sub_of_le _ _ hle]

/-- A saturated total is within a saturated bound. -/
theorem saturated_le_iff {supply issued bound gap most : Nat} (hgap : 0 < gap) :
    supply + issued ≤ min (supply + bound / gap) most ↔
      issued * gap ≤ bound ∧ supply + issued ≤ most := by
  rw [← Nat.le_div_iff_mul_le hgap]
  omega

/-- Where the closed form accounts for all blocks, it bounds the supply. -/
theorem supply_le_of_series_covers (hN : c.decay_numerator < c.decay_denominator)
    (hmin : c.min_block_reward ≤ c.initial_block_reward) {height : UInt64} {issued : U128}
    (hissued : issued.toNat = min (c.rewards 0 height.toNat) (2 ^ 128 - 1))
    (h : c.SeriesCovers height) :
    c.initial_supply.toNat + issued.toNat ≤ c.asymptotic_max_supply.toNat := by
  have hlt := UInt64.lt_iff_toNat_lt.mp hN
  rw [c.toNat_asymptotic_max_supply hN, saturated_le_iff (by omega)]
  rcases h with ⟨hfit, hroom⟩ | ⟨hone, hfloor, hseries, hroom⟩
  · rw [U128.toNat_max] at hfit hroom
    have hle := c.rewards_le (Nat.le_of_lt hlt) 0 height.toNat
    have hpaid : issued.toNat ≤
        min (height.toNat * c.initial_block_reward.toNat) (2 ^ 128 - 1) := by omega
    exact ⟨Nat.le_trans (Nat.mul_le_mul_right _ hpaid) hfit, by omega⟩
  · rw [U128.toNat_max] at hseries hroom
    have hgap : 0 < c.decay_denominator.toNat - c.decay_numerator.toNat := by omega
    have hsum := c.gap_mul_rewards_le hone (Nat.le_of_lt hlt) hmin hfloor
    have hle : issued.toNat ≤ c.rewards 0 height.toNat := by omega
    have hbound : issued.toNat * (c.decay_denominator.toNat - c.decay_numerator.toNat) ≤
        c.initial_block_reward.toNat * c.decay_denominator.toNat := by
      rw [Nat.mul_comm]
      exact Nat.le_trans (Nat.mul_le_mul_left _ hle) hsum
    have hquot := (Nat.le_div_iff_mul_le hgap).mpr hbound
    exact ⟨by omega, by omega⟩

theorem le_next_reward {reward : U128} (h : c.min_block_reward.toNat ≤ reward.toNat) :
    c.min_block_reward.toNat ≤ (c.next_reward reward).toNat := by
  unfold next_reward
  dsimp only
  split
  · split
    · exact Nat.le_refl _
    · rename_i hnot
      exact Nat.le_of_not_lt hnot
  · exact h

/-- The blocks after the first step have a reward of their own. -/
theorem rewards_after_first_step (hI : 0 < c.decay_interval.toNat)
    (hmin : c.min_block_reward.toNat ≤ c.initial_block_reward.toNat) {blocks : Nat}
    (h : c.decay_interval.toNat < blocks) :
    c.decay_interval.toNat * c.initial_block_reward.toNat + c.min_block_reward.toNat ≤
      c.rewards 0 blocks := by
  obtain ⟨more, rfl⟩ := Nat.exists_eq_add_of_lt h
  have hnext : c.min_block_reward.toNat ≤ (c.step_reward 1).toNat := by
    rw [step_reward_succ]
    exact c.le_next_reward hmin
  have hone := c.rewards_mono 1 (Nat.le_add_left 1 more)
  rw [c.rewards_of_le (Nat.succ_le_of_lt hI), Nat.one_mul] at hone
  have hreward : (c.step_reward 0).toNat = c.initial_block_reward.toNat := rfl
  rw [Nat.add_assoc, c.rewards_add_interval hI, hreward]
  exact Nat.add_le_add_left (Nat.le_trans hnext hone) _

/-- Beyond the first of long steps more is issued than the series has. -/
theorem series_lt_issued (hI : 0 < c.decay_interval.toNat)
    (hgap : 0 < c.decay_denominator.toNat - c.decay_numerator.toNat)
    (hmin : c.min_block_reward.toNat ≤ c.initial_block_reward.toNat) (hlong : c.LongSteps)
    (hpos : 0 < c.initial_block_reward.toNat) {blocks issued most : Nat}
    (h : c.decay_interval.toNat < blocks) (hissued : issued = min (c.rewards 0 blocks) most)
    (hroom : c.decay_interval.toNat * c.initial_block_reward.toNat < most) :
    c.initial_block_reward.toNat * c.decay_denominator.toNat <
      issued * (c.decay_denominator.toNat - c.decay_numerator.toNat) := by
  have hafter := c.rewards_after_first_step hI hmin h
  have hstep : c.initial_block_reward.toNat *
        (c.decay_interval.toNat * (c.decay_denominator.toNat - c.decay_numerator.toNat)) =
      c.decay_interval.toNat * c.initial_block_reward.toNat *
        (c.decay_denominator.toNat - c.decay_numerator.toNat) := by
    rw [Nat.mul_comm c.decay_interval.toNat c.initial_block_reward.toNat, Nat.mul_assoc]
  rcases hlong with hlong | ⟨hequal, hfloor⟩
  · have hissues : c.decay_interval.toNat * c.initial_block_reward.toNat ≤ issued := by omega
    calc c.initial_block_reward.toNat * c.decay_denominator.toNat
        < c.initial_block_reward.toNat *
            (c.decay_interval.toNat * (c.decay_denominator.toNat - c.decay_numerator.toNat)) :=
          Nat.mul_lt_mul_of_pos_left hlong hpos
      _ = _ := hstep
      _ ≤ _ := Nat.mul_le_mul_right _ hissues
  · have hreward : 0 < c.min_block_reward.toNat := hfloor
    have hissues : c.decay_interval.toNat * c.initial_block_reward.toNat < issued := by omega
    calc c.initial_block_reward.toNat * c.decay_denominator.toNat
        = c.initial_block_reward.toNat *
            (c.decay_interval.toNat * (c.decay_denominator.toNat - c.decay_numerator.toNat)) :=
          congrArg _ hequal
      _ = _ := hstep
      _ < _ := Nat.mul_lt_mul_of_pos_right hissues hgap
/-- In the first step, and wherever the steps are long, only the initial rewards that fit are
covered. -/
theorem initial_rewards_fit_of_supply_le (hI : 0 < c.decay_interval.toNat)
    (hN : c.decay_numerator < c.decay_denominator)
    (hmin : c.min_block_reward ≤ c.initial_block_reward) {height : UInt64} {issued : U128}
    (hissued : issued.toNat = min (c.rewards 0 height.toNat) (2 ^ 128 - 1))
    (hstep : height ≤ c.decay_interval ∨ c.LongSteps)
    (h : c.initial_supply.toNat + issued.toNat ≤ c.asymptotic_max_supply.toNat) :
    c.InitialRewardsFit height := by
  have hlt := UInt64.lt_iff_toNat_lt.mp hN
  have hgap : 0 < c.decay_denominator.toNat - c.decay_numerator.toNat := by omega
  rw [c.toNat_asymptotic_max_supply hN, saturated_le_iff hgap] at h
  have hfit : min (height.toNat * c.initial_block_reward.toNat) (2 ^ 128 - 1) = issued.toNat →
      c.InitialRewardsFit height := by
    intro hpaid
    unfold InitialRewardsFit
    dsimp only
    rw [U128.toNat_max, hpaid]
    exact h
  by_cases hfirst : height ≤ c.decay_interval
  · rw [c.rewards_of_le (UInt64.le_iff_toNat_le.mp hfirst)] at hissued
    exact hfit hissued.symm
  · -- The blocks of the first step are issued, and with the next one they do not fit.
    rw [UInt64.le_iff_toNat_le] at hfirst hstep
    have hlong := hstep.resolve_left hfirst
    have hafter := c.rewards_after_first_step hI hmin (Nat.lt_of_not_le hfirst)
    have hmore : c.decay_interval.toNat * c.initial_block_reward.toNat ≤
        height.toNat * c.initial_block_reward.toNat :=
      Nat.mul_le_mul_right _ (Nat.le_of_not_le hfirst)
    by_cases hlarge : 2 ^ 128 - 1 ≤ c.decay_interval.toNat * c.initial_block_reward.toNat
    · exact hfit (by omega)
    · rcases Nat.eq_zero_or_pos c.initial_block_reward.toNat with hzero | hpos
      · refine hfit ?_
        have hnone := c.rewards_le (Nat.le_of_lt hlt) 0 height.toNat
        rw [hzero, Nat.mul_zero] at hnone
        rw [hissued, hzero, Nat.mul_zero, Nat.le_zero.mp hnone]
      · have hseries := c.series_lt_issued hI hgap hmin hlong hpos (Nat.lt_of_not_le hfirst)
          hissued (Nat.lt_of_not_le hlarge)
        exact absurd (Nat.le_trans h.1 (Nat.min_le_left ..)) (Nat.not_le_of_lt hseries)

/-- The steps of both configurations are long. -/
theorem long_steps : mainnet.LongSteps ∧ fast_test.LongSteps := by
  refine ⟨Or.inl ?_, Or.inr ⟨?_, ?_⟩⟩
  · decide
  · decide
  · decide

end TokenomicsConfig

end Pemrix
