-- What a run makes of the records of validators. A record comes from one registration and
-- stays for good, as it was registered but for the delegated stake. The self-stake never
-- comes back, and a validator whose own stake is enough stays eligible whatever happens.
import Pemrix.ActiveSet
import Pemrix.Authorised
import Pemrix.StakeLimits

open Std

namespace Pemrix

variable {B : Type} [StateBackend B] [Crates]

/-- The call number `i` of the run registers `v` with this record. -/
def RegistersAt (s : StateStore B) (txs : List Transaction) (i : Nat) (v : Address)
    (record : ValidatorRecord) : Prop :=
  ∃ tx consensus_pubkey commission_bps self_stake, txs[i]? = some tx ∧ tx.sender = v ∧
    (storeAt s txs i).Performs tx (.RegisterValidator consensus_pubkey commission_bps self_stake) ∧
    record = .new v consensus_pubkey self_stake commission_bps

/-- The records of a run are those that were registered, each by one call. -/
structure RegisteredForLife (s : StateStore B) (txs : List Transaction) : Prop where
  once : ∀ i j v record record', RegistersAt s txs i v record → RegistersAt s txs j v record' →
    i = j
  registered : ∀ i j v record, i < j → RegistersAt s txs i v record →
    ∃ delegated_stake, (storeAt s txs j).validator_record v =
      .ok (some { record with delegated_stake })
  unregistered : ∀ j v, (∀ i record, i < j → ¬ RegistersAt s txs i v record) →
    (storeAt s txs j).validator_record v = .ok none
  /-- Who registers with the stake of an active validator is eligible from then on. -/
  eligible : ∀ i j v record, i < j → RegistersAt s txs i v record →
    MIN_ACTIVE_STAKE ≤ record.self_stake → v ∈ (storeAt s txs j).eligible

variable [LawfulStore B] [LawfulRecords] {s : StateStore B} {txs : List Transaction} {v : Address}
  {record : ValidatorRecord}

/-! ## One call -/

/-- A record that is there stays, and keeps all but its delegated stake. -/
theorem record_stands_step (tx : Transaction)
    (h : s.validator_record v = .ok (some record)) :
    ∃ delegated_stake, (BlockExecutor.execute s tx).2.validator_record v =
      .ok (some { record with delegated_stake }) := by
  have hafter := (execute_ends s tx).frame.records v
  generalize (BlockExecutor.execute s tx).2.validator_record v = result at hafter
  cases hafter with
  | same => exact ⟨record.delegated_stake, h⟩
  | registered hsender hdecode hnone => cases h.symm.trans hnone
  | @restaked op old delegated_stake hdecode htarget hold =>
    cases h.symm.trans hold
    exact ⟨delegated_stake, rfl⟩

/-- Where there is no record, only a registration makes one. -/
theorem record_none_step (tx : Transaction) (h : s.validator_record v = .ok none) :
    (BlockExecutor.execute s tx).2.validator_record v = .ok none ∨
      tx.sender = v ∧ ∃ consensus_pubkey commission_bps self_stake,
        s.Performs tx (.RegisterValidator consensus_pubkey commission_bps self_stake) := by
  have hafter := (execute_ends s tx).frame.records v
  generalize hresult : (BlockExecutor.execute s tx).2.validator_record v = result at hafter
  cases hafter with
  | same => exact Or.inl h
  | restaked hdecode htarget hold => cases h.symm.trans hold
  | registered hsender hdecode hnone =>
    refine Or.inr ⟨hsender.symm, ?_⟩
    rcases record_after hresult with ⟨old, hold, -, -⟩ | ⟨pubkey, bps, stake, hperforms, -⟩
    · cases h.symm.trans hold
    · exact ⟨pubkey, bps, stake, hperforms⟩

omit [LawfulStore B] [LawfulRecords] in
/-- A registration finds no record. -/
theorem StateStore.Performs.unregistered {tx : Transaction} {consensus_pubkey : Bytes}
    {commission_bps : UInt16} {self_stake : Balance}
    (h : s.Performs tx (.RegisterValidator consensus_pubkey commission_bps self_stake)) :
    s.validator_record tx.sender = .ok none := by
  obtain ⟨-, -, balance, -, -, -, -, hnone, -⟩ := h
  exact hnone

/-- A registration makes the record. -/
theorem StateStore.Performs.registers {tx : Transaction} {consensus_pubkey : Bytes}
    {commission_bps : UInt16} {self_stake : Balance}
    (h : s.Performs tx (.RegisterValidator consensus_pubkey commission_bps self_stake)) :
    (BlockExecutor.execute s tx).2.validator_record tx.sender =
      .ok (some (.new tx.sender consensus_pubkey self_stake commission_bps)) := by
  obtain ⟨x, result, -, -, -, hends⟩ := h.ends
  generalize (BlockExecutor.execute s tx).2 = s' at hends
  cases hends with
  | registered hpasses => simp

/-! ## Runs -/

theorem record_stands {i j : Nat} (hij : i ≤ j)
    (h : (storeAt s txs i).validator_record v = .ok (some record)) :
    ∃ delegated_stake, (storeAt s txs j).validator_record v =
      .ok (some { record with delegated_stake }) := by
  induction j, hij using Nat.le_induction with
  | base => exact ⟨record.delegated_stake, h⟩
  | succ j hij ih =>
    obtain ⟨delegated_stake, hj⟩ := ih
    rcases htx : txs[j]? with _ | tx
    · rw [storeAt_of_none htx]
      exact ⟨delegated_stake, hj⟩
    · rw [storeAt_succ htx]
      obtain ⟨delegated_stake', hnext⟩ := record_stands_step tx hj
      exact ⟨delegated_stake', hnext⟩

theorem RegistersAt.stands {i j : Nat} (h : RegistersAt s txs i v record) (hij : i < j) :
    ∃ delegated_stake, (storeAt s txs j).validator_record v =
      .ok (some { record with delegated_stake }) := by
  obtain ⟨tx, pubkey, bps, stake, htx, rfl, hperforms, rfl⟩ := h
  refine record_stands hij ?_
  rw [storeAt_succ htx]
  exact hperforms.registers

/-- The record of an earlier registration is in the way of a later one. -/
theorem RegistersAt.not_again {i j : Nat} {record' : ValidatorRecord}
    (h : RegistersAt s txs i v record) (hij : i < j) : ¬ RegistersAt s txs j v record' := by
  rintro ⟨tx, pubkey, bps, stake, htx, rfl, hperforms, -⟩
  obtain ⟨delegated_stake, hrecord⟩ := h.stands hij
  cases hrecord.symm.trans hperforms.unregistered

theorem unregistered_none (hgenesis : s.validator_record v = .ok none) (j : Nat)
    (h : ∀ i record, i < j → ¬ RegistersAt s txs i v record) :
    (storeAt s txs j).validator_record v = .ok none := by
  induction j with
  | zero => exact hgenesis
  | succ j ih =>
    have hj := ih fun i record hij => h i record (Nat.lt_succ_of_lt hij)
    rcases htx : txs[j]? with _ | tx
    · rw [storeAt_of_none htx]
      exact hj
    · rw [storeAt_succ htx]
      rcases record_none_step tx hj with hnone | ⟨hsender, pubkey, bps, stake, hperforms⟩
      · exact hnone
      · exact absurd ⟨tx, pubkey, bps, stake, htx, hsender, hperforms, rfl⟩
          (h j _ (Nat.lt_succ_self j))

omit [StateBackend B] [Crates] [LawfulStore B] [LawfulRecords] in
/-- The own stake alone makes an active record eligible. -/
theorem ValidatorRecord.eligible_of_self_stake (hstatus : record.status = .Active)
    (hstake : MIN_ACTIVE_STAKE ≤ record.self_stake) : record.Eligible := by
  have htotal : record.self_stake ≤ record.total_stake := by
    unfold ValidatorRecord.total_stake
    rw [BitVec.le_def, U128.toNat_saturating_add]
    have hlt := record.self_stake.isLt
    omega
  exact ⟨hstatus, BitVec.le_trans hstake htotal⟩

/-- In every run on a store without validators the records are those that were registered, each
as its one registration made it but for the delegated stake. -/
theorem validators_are_registered_for_life (s : StateStore B) (txs : List Transaction)
    (hgenesis : ∀ v, s.validator_record v = .ok none) : RegisteredForLife s txs := by
  refine ⟨?_, ?_, fun j v h => unregistered_none (hgenesis v) j h, ?_⟩
  · intro i j v record record' hi hj
    rcases Nat.lt_trichotomy i j with hlt | heq | hgt
    · exact absurd hj (hi.not_again hlt)
    · exact heq
    · exact absurd hi (hj.not_again hgt)
  · exact fun i j v record hij h => h.stands hij
  · intro i j v record hij h hstake
    obtain ⟨delegated_stake, hrecord⟩ := h.stands hij
    obtain ⟨tx, pubkey, bps, stake, -, -, -, rfl⟩ := h
    exact ⟨_, hrecord, ValidatorRecord.eligible_of_self_stake rfl hstake⟩

end Pemrix

namespace Pemrix.Registration

open Concrete (payer)

/-- With the stake of an active validator the payer is eligible, and stays so. -/
theorem registered_payer_is_eligible :
    payer ∈ (storeAt (⟨⟨staking, ∅⟩⟩ : StateStore InMemoryBackend) [register] 1).eligible := by
  have hperforms : (⟨⟨staking, ∅⟩⟩ : StateStore InMemoryBackend).Performs register
      (.RegisterValidator [7] 500 100000000000000) :=
    performs_of_success (v := ⟨true, 50000, "validator registered"⟩) (by decide +kernel)
      (by decide +kernel) rfl
  have hlife := validators_are_registered_for_life (⟨⟨staking, ∅⟩⟩ : StateStore InMemoryBackend)
    [register] fun v => (represents_of_accounts staking).validator_record v
  exact hlife.eligible 0 1 payer _ Nat.zero_lt_one ⟨register, _, _, _, rfl, rfl, hperforms, rfl⟩
    (by decide)

end Pemrix.Registration
