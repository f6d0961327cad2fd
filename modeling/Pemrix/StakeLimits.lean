-- The limits of `pemrix_protocol` on stake and commission. The executor checks limits
-- of its own, in base units and up to the whole commission, so a run obeys those of the
-- protocol exactly when each operation that it performs does.
import Pemrix.Residue
import Pemrix.Tokenomics

open Std

namespace Pemrix

/-! ## The limits -/

namespace Protocol

def MIN_SELF_STAKE : Balance := 10000 * ONE_PMX

def MIN_DELEGATION : Balance := ONE_PMX

def MIN_COMMISSION_BPS : UInt16 := 0

def MAX_COMMISSION_BPS : UInt16 := 2000

end Protocol

structure ValidatorRecord.WithinLimits (record : ValidatorRecord) : Prop where
  self_stake : Protocol.MIN_SELF_STAKE ≤ record.self_stake
  min_commission : Protocol.MIN_COMMISSION_BPS ≤ record.commission_bps
  max_commission : record.commission_bps ≤ Protocol.MAX_COMMISSION_BPS

def StakingOperation.WithinLimits : StakingOperation → Prop
  | .RegisterValidator _ commission_bps self_stake =>
    Protocol.MIN_SELF_STAKE ≤ self_stake ∧ Protocol.MIN_COMMISSION_BPS ≤ commission_bps ∧
      commission_bps ≤ Protocol.MAX_COMMISSION_BPS
  | .Delegate _ amount => Protocol.MIN_DELEGATION ≤ amount
  | .Undelegate _ _ => True

variable {B : Type} [StateBackend B] [Crates]

/-! ## The operations that are performed -/

/-- The transaction is charged, and its payload is an operation that passes the checks of its
handler. -/
def StateStore.Performs (s : StateStore B) (tx : Transaction) (op : StakingOperation) : Prop :=
  s.Charges tx ∧ StakingExecutor.decode tx.payload = .ok op ∧
    ∃ balance, s.balance tx.sender = .ok balance ∧ op.Passes s tx.sender (balance - tx.fee)

section Calls

variable {s s' : StateStore B} {tx : Transaction} {r : Except VmError ExecutionResult}
  {sender : Address} {x : Account} {op : StakingOperation}

theorem StakeEnds.success {v : ExecutionResult} (h : StakeEnds s sender x op (.ok v) s') :
    v.success = true := by
  cases h with
  | registered hpasses => rfl
  | delegated hpasses hrecord hdelegation => rfl
  | undelegated hpasses hrecord hdelegation => rfl

/-- A staking transaction ends as its operation does, once it is charged. -/
theorem ExecuteEnds.staked (h : ExecuteEnds s tx r s') (hcharges : s.Charges tx)
    (hdecode : StakingExecutor.decode tx.payload = .ok op) :
    ∃ x, s.get_account tx.sender = .ok x ∧
      StakeEnds (s.withAccount tx.sender (.charged x tx.fee)) tx.sender (.charged x tx.fee) op
        r s' := by
  cases h with
  | unsigned hverify => cases hverify.symm.trans hcharges.1
  | unread hread =>
    have hnonce := hcharges.2.1
    unfold StateStore.nonce at hnonce
    rw [hread] at hnonce
    cases hnonce
  | uncharged hverify hread hnot => exact absurd hcharges hnot
  | @charged x r s' _ hread hends =>
    refine ⟨x, hread, ?_⟩
    obtain ⟨rest, hpayload⟩ := payload_of_decode hdecode
    cases hends with
    | transfer hnil hends => cases hnil.symm.trans hpayload
    | foreign hother hfirst =>
      cases hother.symm.trans hpayload
      exact absurd rfl hfirst
    | undecoded hother herror => cases herror.symm.trans hdecode
    | staked hother hok hends =>
      cases hok.symm.trans hdecode
      exact hends

variable [LawfulStore B]

/-- An operation that is performed ends well. -/
theorem StateStore.Performs.ends (h : s.Performs tx op) :
    ∃ x v, s.get_account tx.sender = .ok x ∧ (BlockExecutor.execute s tx).1 = .ok v ∧
      v.success = true ∧
      StakeEnds (s.withAccount tx.sender (.charged x tx.fee)) tx.sender (.charged x tx.fee) op
        (.ok v) (BlockExecutor.execute s tx).2 := by
  obtain ⟨hcharges, hdecode, balance, hbalance, hpasses⟩ := h
  obtain ⟨x, hread, hends⟩ := (execute_ends s tx).staked hcharges hdecode
  cases (StateStore.balance_of_get_account hread).symm.trans hbalance
  obtain ⟨v, hv⟩ := hends.ok_iff.mpr ((passes_withAccount s _ _ _ _ op).mpr hpasses)
  rw [hv] at hends
  exact ⟨x, v, hread, hv, hends.success, hends⟩

/-- A staking transaction that succeeds has performed its operation. -/
theorem performs_of_success {v : ExecutionResult}
    (hdecode : StakingExecutor.decode tx.payload = .ok op)
    (hok : (BlockExecutor.execute s tx).1 = .ok v) (hsuccess : v.success = true) :
    s.Performs tx op := by
  have hends := execute_ends s tx
  by_cases hcharges : s.Charges tx
  · obtain ⟨x, hread, hends⟩ := hends.staked hcharges hdecode
    have hpasses := hends.ok_iff.mp ⟨v, hok⟩
    exact ⟨hcharges, hdecode, _, StateStore.balance_of_get_account hread,
      (passes_withAccount s _ _ _ _ op).mp hpasses⟩
  · rw [hok, execute_of_not_charges hcharges] at hends
    generalize s = t at hends hcharges
    cases hends with
    | uncharged hverify hread hnot => cases hsuccess
    | charged hcharges' hread hends => exact absurd hcharges' hcharges

theorem ReceiveEnds.records {address : Address} {amount : Balance} {r : Except StorageError Unit}
    (h : ReceiveEnds s address amount r s') (v : Address) :
    s'.validator_record v = s.validator_record v := by
  cases h with
  | unread hread => rfl
  | overflow hread hadd => rfl
  | received hread hadd => simp

theorem TransferEnds.records (h : TransferEnds s tx x r s') (v : Address) :
    s'.validator_record v = s.validator_record v := by
  cases h with
  | nothing hamount => rfl
  | short hamount => rfl
  | failed hamount hcovers hends =>
    rw [hends.records, StateStore.validator_record_withAccount]
  | moved hamount hcovers hends => rw [hends.records, StateStore.validator_record_withAccount]

variable [LawfulRecords]

/-- A record has the self-stake and the commission of an old one. -/
def Keeps (s : StateStore B) (v : Address) (record : ValidatorRecord) : Prop :=
  ∃ old, s.validator_record v = .ok (some old) ∧ record.self_stake = old.self_stake ∧
    record.commission_bps = old.commission_bps

omit [LawfulStore B] [LawfulRecords] in
theorem keeps_of_restaked {validator v : Address} {old record : ValidatorRecord}
    {delegated_stake : Balance} (hold : s.validator_record validator = .ok (some old))
    (hrecord : (if validator = v then .ok (some { old with delegated_stake })
      else s.validator_record v) = .ok (some record)) : Keeps s v record := by
  split at hrecord
  · rename_i hv
    subst hv
    cases hrecord
    exact ⟨old, hold, rfl, rfl⟩
  · exact ⟨record, hrecord, rfl, rfl⟩

/-- A record after a staking operation: it is new, or it keeps what the limits are about. -/
theorem StakeEnds.record_after (h : StakeEnds s sender x op r s') {v : Address}
    {record : ValidatorRecord} (hrecord : s'.validator_record v = .ok (some record)) :
    Keeps s v record ∨
      ∃ consensus_pubkey commission_bps self_stake,
        op = .RegisterValidator consensus_pubkey commission_bps self_stake ∧
        op.Passes s sender x.balance ∧
        record = .new v consensus_pubkey self_stake commission_bps := by
  cases h with
  | refused hpasses => exact Or.inl ⟨record, hrecord, rfl, rfl⟩
  | registered hpasses =>
    simp only [StateStore.validator_record_withValidator,
      StateStore.validator_record_withAccount] at hrecord
    split at hrecord
    · rename_i hv
      subst hv
      cases hrecord
      exact Or.inr ⟨_, _, _, rfl, hpasses, rfl⟩
    · exact Or.inl ⟨record, hrecord, rfl, rfl⟩
  | delegated hpasses hold hdelegation =>
    exact Or.inl (keeps_of_restaked hold (by simpa using hrecord))
  | delegation_unread hold hdelegation =>
    exact Or.inl (keeps_of_restaked hold (by simpa using hrecord))
  | undelegated hpasses hold hdelegation =>
    exact Or.inl (keeps_of_restaked hold (by simpa using hrecord))

/-- A record after a call. -/
theorem record_after {v : Address} {record : ValidatorRecord}
    (hrecord : (BlockExecutor.execute s tx).2.validator_record v = .ok (some record)) :
    Keeps s v record ∨
      ∃ consensus_pubkey commission_bps self_stake,
        s.Performs tx (.RegisterValidator consensus_pubkey commission_bps self_stake) ∧
        record = .new v consensus_pubkey self_stake commission_bps := by
  have hends := execute_ends s tx
  generalize (BlockExecutor.execute s tx).1 = r, (BlockExecutor.execute s tx).2 = s'
    at hends hrecord
  cases hends with
  | unsigned hverify => exact Or.inl ⟨record, hrecord, rfl, rfl⟩
  | unread hread => exact Or.inl ⟨record, hrecord, rfl, rfl⟩
  | uncharged hverify hread hnot => exact Or.inl ⟨record, hrecord, rfl, rfl⟩
  | @charged x r s' hcharges hread hends =>
    have hkeeps : Keeps (s.withAccount tx.sender (.charged x tx.fee)) v record →
        Keeps s v record := by
      unfold Keeps
      rw [StateStore.validator_record_withAccount]
      exact id
    cases hends with
    | transfer hpayload hends =>
      rw [hends.records] at hrecord
      exact Or.inl (hkeeps ⟨record, hrecord, rfl, rfl⟩)
    | foreign hpayload hfirst => exact Or.inl (hkeeps ⟨record, hrecord, rfl, rfl⟩)
    | undecoded hpayload hdecode => exact Or.inl (hkeeps ⟨record, hrecord, rfl, rfl⟩)
    | staked hpayload hdecode hends =>
      rcases hends.record_after hrecord with hold | ⟨pubkey, bps, stake, rfl, hpasses, hnew⟩
      · exact Or.inl (hkeeps hold)
      · refine Or.inr ⟨pubkey, bps, stake, ⟨hcharges, hdecode, (x.getD default).balance, ?_, ?_⟩,
          hnew⟩
        · exact StateStore.balance_of_get_account hread
        · exact (passes_withAccount s _ _ _ _ _).mp hpasses

end Calls

/-! ## Runs -/

/-- The records of a run and its delegations are within the limits of the protocol. -/
structure ObeysLimits (s : StateStore B) (txs : List Transaction) : Prop where
  records : ∀ i v record, (storeAt s txs i).validator_record v = .ok (some record) →
    record.WithinLimits
  /-- What a delegation moves out of the account is the loss of the account less the fee. -/
  delegations : ∀ i tx v amount result before after, txs[i]? = some tx →
    StakingExecutor.decode tx.payload = .ok (.Delegate v amount) →
    (BlockExecutor.execute (storeAt s txs i) tx).1 = .ok result → result.success = true →
    (storeAt s txs i).balance tx.sender = .ok before →
    (storeAt s txs (i + 1)).balance tx.sender = .ok after →
    Protocol.MIN_DELEGATION.toNat + tx.fee.toNat + after.toNat ≤ before.toNat

variable [LawfulStore B] [LawfulRecords] {s : StateStore B} {txs : List Transaction}

/-- The records that a run of operations within the limits leaves. -/
theorem records_withinLimits
    (hstart : ∀ v record, s.validator_record v = .ok (some record) → record.WithinLimits)
    (hlimits : ∀ i tx op, txs[i]? = some tx → (storeAt s txs i).Performs tx op → op.WithinLimits)
    (i : Nat) {v : Address} {record : ValidatorRecord}
    (hrecord : (storeAt s txs i).validator_record v = .ok (some record)) :
    record.WithinLimits := by
  induction i generalizing record with
  | zero => exact hstart v record hrecord
  | succ i ih =>
    rcases htx : txs[i]? with _ | tx
    · rw [storeAt_of_none htx] at hrecord
      exact ih hrecord
    · rw [storeAt_succ htx] at hrecord
      rcases record_after hrecord with
        ⟨old, hold, hstake, hbps⟩ | ⟨pubkey, bps, stake, hperforms, rfl⟩
      · obtain ⟨hself, hmin, hmax⟩ := ih hold
        exact ⟨hstake ▸ hself, hbps ▸ hmin, hbps ▸ hmax⟩
      · obtain ⟨hself, hmin, hmax⟩ := hlimits i tx _ htx hperforms
        exact ⟨hself, hmin, hmax⟩

omit [LawfulRecords] in
/-- A delegation takes its amount and the fee from the sender. -/
theorem StateStore.Performs.moves {tx : Transaction} {v : Address} {amount : Balance}
    (h : s.Performs tx (.Delegate v amount)) :
    ∃ before after, s.balance tx.sender = .ok before ∧
      (BlockExecutor.execute s tx).2.balance tx.sender = .ok after ∧
      before.toNat = after.toNat + tx.fee.toNat + amount.toNat := by
  obtain ⟨hcharges, -, balance, hbalance, -, -, hcovers, -⟩ := id h
  obtain ⟨x, result, hread, -, -, hends⟩ := h.ends
  generalize (BlockExecutor.execute s tx).2 = s' at hends
  cases (StateStore.balance_of_get_account hread).symm.trans hbalance
  cases hends with
  | @delegated _ _ record delegation hpasses hrecord hdelegation =>
    refine ⟨_, (x.getD default).balance - tx.fee - amount, hbalance, ?_, ?_⟩
    · apply StateStore.balance_of_get_account
        (x := some ((Account.charged x tx.fee).with_balance _))
      simp only [StateStore.get_account_withDelegation, StateStore.get_account_withValidator,
        StateStore.get_account_withAccount, if_pos]
      rfl
    · obtain ⟨-, -, fee_balance, hfee, hfee_le⟩ := hcharges
      cases hbalance.symm.trans hfee
      have h1 := BitVec.le_def.mp hcovers
      have h2 := BitVec.le_def.mp hfee_le
      rw [U128.toNat_sub hfee_le] at h1
      rw [U128.toNat_sub hcovers, U128.toNat_sub hfee_le]
      omega

/-- From a store without validators, a run obeys the limits of the protocol if and only if every
operation that it performs is within them. -/
theorem run_obeys_limits_iff (s : StateStore B) (txs : List Transaction)
    (hgenesis : ∀ v, s.validator_record v = .ok none) :
    ObeysLimits s txs ↔
      ∀ i tx op, txs[i]? = some tx → (storeAt s txs i).Performs tx op → op.WithinLimits := by
  constructor
  · intro hobeys i tx op htx hperforms
    cases op with
    | RegisterValidator consensus_pubkey commission_bps self_stake =>
      obtain ⟨x, result, -, -, -, hends⟩ := hperforms.ends
      have hrecords := hobeys.records (i + 1) tx.sender
      rw [storeAt_succ htx] at hrecords
      generalize (BlockExecutor.execute (storeAt s txs i) tx).2 = s' at hends hrecords
      cases hends with
      | registered hpasses =>
        obtain ⟨hself, hmin, hmax⟩ := hrecords (.new tx.sender consensus_pubkey self_stake
          commission_bps) (by simp)
        exact ⟨hself, hmin, hmax⟩
    | Delegate v amount =>
      obtain ⟨x, result, -, hok, hsuccess, -⟩ := hperforms.ends
      obtain ⟨before, after, hbefore, hafter, hmoved⟩ := hperforms.moves
      rw [← storeAt_succ htx] at hafter
      have hmin := hobeys.delegations i tx v amount result before after htx hperforms.2.1 hok
        hsuccess hbefore hafter
      exact BitVec.le_def.mpr (by omega)
    | Undelegate v amount => trivial
  · intro hlimits
    refine ⟨fun i v record => records_withinLimits ?_ hlimits i, ?_⟩
    · intro v record hrecord
      cases (hgenesis v).symm.trans hrecord
    · intro i tx v amount result before after htx hdecode hok hsuccess hbefore hafter
      have hperforms := performs_of_success hdecode hok hsuccess
      obtain ⟨before', after', hbefore', hafter', hmoved⟩ := hperforms.moves
      rw [storeAt_succ htx] at hafter
      cases hbefore.symm.trans hbefore'
      cases hafter.symm.trans hafter'
      have hmin := BitVec.le_def.mp (hlimits i tx _ htx hperforms)
      omega

end Pemrix

namespace Pemrix.Registration

/-- The registration with the stake of an active validator is within the limits. -/
theorem register_obeys_limits :
    ObeysLimits (⟨⟨staking, ∅⟩⟩ : StateStore InMemoryBackend) [register] := by
  refine (run_obeys_limits_iff (⟨⟨staking, ∅⟩⟩ : StateStore InMemoryBackend) [register] ?_).mpr ?_
  · exact fun v => (represents_of_accounts staking).validator_record v
  · intro i tx op htx hperforms
    have hmem := List.mem_of_getElem? htx
    simp only [List.mem_cons, List.not_mem_nil, or_false] at hmem
    have hdecode : StakingExecutor.decode register.payload =
        .ok (.RegisterValidator [7] 500 100000000000000) := by decide +kernel
    obtain ⟨-, hop, -⟩ := hperforms
    rw [hmem, hdecode] at hop
    cases hop
    exact ⟨by decide, by decide, by decide⟩

end Pemrix.Registration

namespace Pemrix.SmallStake

open Concrete (payer)

/-- The payer can just pay the stake and the fee. -/
def staking : ExtTreeMap Address Account :=
  (∅ : ExtTreeMap Address Account).insert payer ⟨10001, 0⟩

/-- The executor takes a stake of 10000 base units with half of the rewards as commission. -/
theorem small_registration_breaks_the_limits :
    let s : StateStore InMemoryBackend := ⟨⟨staking, ∅⟩⟩
    (∀ v, s.validator_record v = .ok none) ∧
      (BlockExecutor.execute s register).1 = .ok ⟨true, 50000, "validator registered"⟩ ∧
      (BlockExecutor.execute s register).2.validator_record payer =
        .ok (some (.new payer [7] 10000 5000)) ∧
      ¬ ObeysLimits s [register] := by
  intro s
  have hrecord : (BlockExecutor.execute s register).2.validator_record payer =
      .ok (some (.new payer [7] 10000 5000)) := by decide +kernel
  refine ⟨fun v => (represents_of_accounts staking).validator_record v, by decide +kernel, hrecord,
    ?_⟩
  intro hobeys
  have hself := (hobeys.records 1 payer _ hrecord).self_stake
  exact absurd hself (by decide)

end Pemrix.SmallStake
