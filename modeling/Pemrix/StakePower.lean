-- Voting power from stake. The records of a chain that started within the supply
-- ceiling never hold more than the ceiling, so the powers that the engine takes from
-- them are exact, and no sum of them leaves the `u64`.
import Pemrix.Supply
import Pemrix.VotingPower
import Pemrix.Tokenomics

open Std

namespace Pemrix

namespace BftConsensus

variable {B : Type} [StateBackend B] [Crates]

omit [StateBackend B] [Crates] in
/-- The set that `update_validator_set` makes of the records. -/
def stake_set (records : List (Address × ValidatorRecord)) : ValidatorSet :=
  (((active_candidates records).mergeSort candidate_le).take MAX_ACTIVE_VALIDATORS).foldl
    (fun set (address, power) => set.add address power) ValidatorSet.new

/-- The records can be read and give a set with a member, which `update_validator_set` takes. -/
def Installs (e : BftConsensus B) : Prop :=
  ∃ records, e.state.validator_records = .ok records ∧ (stake_set records).is_empty = false

/-- The powers of the set are the stakes of the records, and the sums of powers fit. -/
structure ExactPowers (e : BftConsensus B) : Prop where
  member : ∀ a power, e.validator_set.validators[a]? = some power →
    ∃ record, e.state.validator_record a = .ok (some record) ∧
      power.toNat = record.self_stake.toNat + record.delegated_stake.toNat
  total : e.validator_set.total_power.toNat =
    e.validator_set.validators.sumBy fun _ power => power.toNat
  ceiling : e.validator_set.total_power.toNat ≤ MAX_SUPPLY.toNat
  doubled : (e.validator_set.total_power * 2).toNat = e.validator_set.total_power.toNat * 2
  /-- The sum in `has_quorum`, for the votes of any round. -/
  votes : ∀ round, (e.vote_power round).toNat ≤ e.validator_set.total_power.toNat

theorem update_of_installs {e : BftConsensus B} {records : List (Address × ValidatorRecord)}
    (hread : e.state.validator_records = .ok records)
    (hsome : (stake_set records).is_empty = false) :
    e.update_validator_set = { e with validator_set := stake_set records } := by
  unfold stake_set at hsome
  unfold update_validator_set stake_set
  rw [hread]
  dsimp only
  rw [hsome]
  rfl

end BftConsensus

/-! ## The set that the records give -/

namespace ValidatorSet

theorem getElem?_add (set : ValidatorSet) (a b : Address) (power : UInt64) :
    (set.add a power).validators[b]? = if a = b then some power else set.validators[b]? := by
  unfold add
  rw [ExtTreeMap.getElem?_insert]
  simp only [LawfulEqCmp.compare_eq_iff_eq]

/-- A member of the set was added, or was there. -/
theorem mem_of_foldl_add (l : List (Address × UInt64)) {set : ValidatorSet} {a : Address}
    {power : UInt64}
    (h : (l.foldl (fun set (address, power) => set.add address power) set).validators[a]? =
      some power) : (a, power) ∈ l ∨ set.validators[a]? = some power := by
  induction l generalizing set with
  | nil => exact Or.inr h
  | cons e l ih =>
    rcases ih h with hmem | hset
    · exact Or.inl (List.mem_cons_of_mem _ hmem)
    · dsimp only at hset
      rw [getElem?_add] at hset
      by_cases he : e.1 = a
      · rw [if_pos he] at hset
        cases hset
        subst he
        exact Or.inl (List.mem_cons_self ..)
      · rw [if_neg he] at hset
        exact Or.inr hset

/-- The total is at most the sum of what was added. -/
theorem total_foldl_add_le (l : List (Address × UInt64)) (set : ValidatorSet) :
    (l.foldl (fun set (address, power) => set.add address power) set).total ≤
      set.total + (l.map fun e => e.2.toNat).sum := by
  induction l generalizing set with
  | nil => simp
  | cons e l ih =>
    obtain ⟨a, power⟩ := e
    have hrest := ih (set.add a power)
    have hfirst : (set.add a power).total ≤ set.total + power.toNat := by
      have hadd := ExtTreeMap.sumBy_insert (fun _ (w : UInt64) => w.toNat) set.validators a power
      unfold total ExtTreeMap.totalWeight add
      dsimp only
      omega
    rw [List.foldl_cons, List.map_cons, List.sum_cons]
    dsimp only at hrest ⊢
    omega

end ValidatorSet

namespace BftConsensus

/-- The power of a record: its stake, cut off at the end of the `u64`. -/
theorem toNat_power_le (record : ValidatorRecord) :
    (UInt64.ofNat (min record.total_stake.toNat (2 ^ 64 - 1))).toNat ≤
      record.self_stake.toNat + record.delegated_stake.toNat := by
  unfold ValidatorRecord.total_stake
  rw [U128.toNat_saturating_add, UInt64.toNat_ofNat', Nat.mod_eq_of_lt (by omega)]
  omega

theorem toNat_power_of_lt {record : ValidatorRecord}
    (h : record.self_stake.toNat + record.delegated_stake.toNat < 2 ^ 64) :
    (UInt64.ofNat (min record.total_stake.toNat (2 ^ 64 - 1))).toNat =
      record.self_stake.toNat + record.delegated_stake.toNat := by
  unfold ValidatorRecord.total_stake
  rw [U128.toNat_saturating_add, UInt64.toNat_ofNat', Nat.mod_eq_of_lt (by omega)]
  omega

/-- The powers of the candidates add up to the stakes of the records at most. -/
theorem sum_candidates_le (records : List (Address × ValidatorRecord)) :
    ((active_candidates records).map fun e => e.2.toNat).sum ≤
      (records.map fun e => e.2.self_stake.toNat + e.2.delegated_stake.toNat).sum := by
  unfold active_candidates
  rw [List.map_map]
  induction records with
  | nil => simp
  | cons e records ih =>
    obtain ⟨a, record⟩ := e
    have hpower := toNat_power_le record
    by_cases hactive : record.status = .Active ∧ MIN_ACTIVE_STAKE ≤ record.total_stake
    · rw [List.filter_cons_of_pos (by simpa using hactive), List.map_cons, List.map_cons,
        List.sum_cons, List.sum_cons]
      exact Nat.add_le_add hpower ih
    · rw [List.filter_cons_of_neg (by simpa using hactive), List.map_cons, List.sum_cons]
      exact Nat.le_trans ih (Nat.le_add_left _ _)

theorem total_stake_set_le (records : List (Address × ValidatorRecord)) :
    (stake_set records).total ≤
      (records.map fun e => e.2.self_stake.toNat + e.2.delegated_stake.toNat).sum := by
  have hfold := ValidatorSet.total_foldl_add_le
    (((active_candidates records).mergeSort candidate_le).take MAX_ACTIVE_VALIDATORS) .new
  have hempty : ValidatorSet.new.total = 0 := by
    unfold ValidatorSet.total ExtTreeMap.totalWeight ValidatorSet.new
    exact ExtTreeMap.sumBy_empty _
  -- The active ones are some of the candidates, in another order.
  have htake : ((((active_candidates records).mergeSort candidate_le).take
      MAX_ACTIVE_VALIDATORS).map fun e => e.2.toNat).sum ≤
        ((active_candidates records).map fun e => e.2.toNat).sum := by
    have hperm := ((active_candidates records).mergeSort_perm candidate_le).map
      fun e => e.2.toNat
    rw [← hperm.sum_eq]
    exact ((List.take_sublist _ _).map _).sum_le_sum fun _ _ => Nat.zero_le _
  have hcandidates := sum_candidates_le records
  unfold stake_set
  omega

/-- A member of the set has a record and its power. -/
theorem mem_stake_set {records : List (Address × ValidatorRecord)} {a : Address} {power : UInt64}
    (h : (stake_set records).validators[a]? = some power) :
    ∃ record, (a, record) ∈ records ∧
      power = UInt64.ofNat (min record.total_stake.toNat (2 ^ 64 - 1)) := by
  rcases ValidatorSet.mem_of_foldl_add _ h with hmem | hnew
  · have hsorted := List.mem_of_mem_take hmem
    rw [List.mem_mergeSort] at hsorted
    unfold active_candidates at hsorted
    obtain ⟨⟨b, record⟩, hrecord, he⟩ := List.mem_map.mp hsorted
    obtain ⟨rfl, rfl⟩ := Prod.mk.inj he
    exact ⟨record, (List.mem_filter.mp hrecord).1, rfl⟩
  · simp [ValidatorSet.new] at hnew

end BftConsensus

/-! ## Within the supply -/

variable [Crates] [LawfulRecords]

/-- The supply of a run never goes up. -/
theorem runBlock_supply_le {s : StateStore InMemoryBackend} {L : Ledger} (txs : List Transaction)
    (h : Represents s L) (hL : L.Sound) :
    ∃ L', Represents (runBlock s txs) L' ∧ L'.supply ≤ L.supply := by
  induction txs generalizing s L with
  | nil => exact ⟨L, h, Nat.le_refl _⟩
  | cons tx txs ih =>
    obtain ⟨hsupply, -, hsound⟩ := Ledger.execute_conserves hL tx
    obtain ⟨L', hr, hle⟩ := ih (execute_of_represents h tx).2.1 hsound
    refine ⟨L', hr, Nat.le_trans hle ?_⟩
    split at hsupply
    · omega
    · omega

/-- After every run from a genesis within the supply ceiling, a set that the engine takes from
the records has exact powers, and its sums fit. -/
theorem stake_powers_are_exact (accounts : ExtTreeMap Address Account)
    (hgenesis : accounts.sumBy (fun _ x => x.balance.toNat) ≤ MAX_SUPPLY.toNat)
    (txs : List Transaction) (e : BftConsensus InMemoryBackend)
    (hstate : e.state = runBlock ⟨⟨accounts, ∅⟩⟩ txs) (hinstalls : e.Installs) :
    e.update_validator_set.ExactPowers := by
  have hmax : MAX_SUPPLY.toNat = 1100000000000000000 := by decide +kernel
  have hsupply : Ledger.supply ⟨accounts, ∅, ∅⟩ =
      accounts.sumBy (fun _ x => x.balance.toNat) := by
    simp [Ledger.supply, Ledger.balances, Ledger.stakes]
  have hsound : Ledger.Sound ⟨accounts, ∅, ∅⟩ :=
    ⟨Ledger.consistent_of_accounts accounts, by rw [hsupply]; omega⟩
  obtain ⟨L, hr, hle⟩ := runBlock_supply_le txs (represents_of_accounts accounts) hsound
  rw [hsupply] at hle
  have hstakes : L.stakes ≤ MAX_SUPPLY.toNat := by
    unfold Ledger.supply at hle
    omega
  rw [← hstate] at hr
  obtain ⟨records, hread, hsome⟩ := hinstalls
  rw [hr.validator_records] at hread
  cases hread
  have htotal : (BftConsensus.stake_set L.validators.toList).total ≤ L.stakes :=
    BftConsensus.total_stake_set_le L.validators.toList
  have hexact := ValidatorSet.toNat_total_power
    (show (BftConsensus.stake_set L.validators.toList).total < 2 ^ 64 by omega)
  rw [BftConsensus.update_of_installs hr.validator_records hsome]
  refine ⟨?_, hexact, ?_, ?_, ?_⟩
  · intro a power hmember
    obtain ⟨record, hrecord, hpower⟩ := BftConsensus.mem_stake_set hmember
    have hget := ExtTreeMap.mem_toList_iff_getElem?_eq_some.mp hrecord
    have hstake := L.stake_le_stakes hget
    refine ⟨record, ?_, ?_⟩
    · show e.state.validator_record a = _
      rw [hr.validator_record, hget]
    · rw [hpower, BftConsensus.toNat_power_of_lt (by omega)]
  · dsimp only
    omega
  · dsimp only
    rw [UInt64.toNat_mul, Nat.mod_eq_of_lt]
    · rfl
    · simp only [UInt64.reduceToNat]
      omega
  · intro round
    have hweight : (BftConsensus.stake_set L.validators.toList).validators.weight
        (· ∈ round.votes) ≤ (BftConsensus.stake_set L.validators.toList).total :=
      ExtTreeMap.weight_le_totalWeight
    rw [BftConsensus.toNat_vote_power _ round (Nat.lt_of_le_of_lt hweight (by omega)), hexact]
    exact hweight

end Pemrix

namespace Pemrix.Registration

open Concrete (payer)

/-- The engine of the payer after its registration. -/
def staked : BftConsensus InMemoryBackend :=
  .new_with_store payer .new (runBlock ⟨⟨staking, ∅⟩⟩ [register]) default

/-- The payer is the only validator, with its stake of 100000 PMX. -/
theorem registered_power_is_exact :
    staked.Installs ∧ staked.update_validator_set.validator_set.total_power = 100000000000000 ∧
      staked.update_validator_set.ExactPowers := by
  have hread : staked.state.validator_records =
      .ok [(payer, .new payer [7] 100000000000000 500)] := by
    decide +kernel
  have hset : BftConsensus.stake_set [(payer, .new payer [7] 100000000000000 500)] =
      ValidatorSet.new.add payer 100000000000000 := by
    decide +kernel
  have hinstalls : staked.Installs := ⟨_, hread, by rw [hset]; decide +kernel⟩
  refine ⟨hinstalls, ?_, ?_⟩
  · rw [BftConsensus.update_of_installs hread (by rw [hset]; decide +kernel), hset]
    decide +kernel
  · have hstate : staked.state = runBlock ⟨⟨staking, ∅⟩⟩ [register] := by
      unfold staked BftConsensus.new_with_store
      dsimp only
    exact stake_powers_are_exact staking (by decide +kernel) [register] staked hstate hinstalls

end Pemrix.Registration
