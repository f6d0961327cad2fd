-- What a transaction may touch. Whatever a call of the block executor ends with, it
-- leaves everything that the signer has no say over: other accounts, other records
-- and the delegations of others.
import Pemrix.Endings

open Std

namespace Pemrix

variable {B : Type} [StateBackend B] [Crates]

/-! ## What may change -/

/-- The validator whose stake an operation moves. -/
def StakingOperation.target : StakingOperation → Option Address
  | .RegisterValidator _ _ _ => none
  | .Delegate validator _ | .Undelegate validator _ => some validator

/-- What a read of the record of `v` may give after the call. -/
inductive RecordAfter (s : StateStore B) (tx : Transaction) (v : Address) :
    Except StorageError (Option ValidatorRecord) → Prop
  | same : RecordAfter s tx v (s.validator_record v)
  | registered {consensus_pubkey : Bytes} {commission_bps : UInt16} {self_stake : Balance}
    (hsender : v = tx.sender)
    (hdecode : StakingExecutor.decode tx.payload =
      .ok (.RegisterValidator consensus_pubkey commission_bps self_stake))
    (hnone : s.validator_record v = .ok none) :
    RecordAfter s tx v (.ok (some (.new v consensus_pubkey self_stake commission_bps)))
  | restaked {op : StakingOperation} {record : ValidatorRecord} {delegated_stake : Balance}
    (hdecode : StakingExecutor.decode tx.payload = .ok op) (htarget : op.target = some v)
    (hrecord : s.validator_record v = .ok (some record)) :
    RecordAfter s tx v (.ok (some { record with delegated_stake }))

/-- What a read of the delegation of `d` to `v` may give after the call. -/
inductive DelegationAfter (s : StateStore B) (tx : Transaction) (d v : Address) :
    Except StorageError (Option Delegation) → Prop
  | same : DelegationAfter s tx d v (s.delegation d v)
  | own {op : StakingOperation} {x : Option Delegation} (hsender : d = tx.sender)
    (hdecode : StakingExecutor.decode tx.payload = .ok op) (htarget : op.target = some v) :
    DelegationAfter s tx d v (.ok x)

/-- Nothing changes but what the transaction names. -/
structure Frame (s : StateStore B) (tx : Transaction) (s' : StateStore B) : Prop where
  accounts : ∀ a, a ≠ tx.sender → a ≠ tx.recipient → s'.get_account a = s.get_account a
  nonce : tx.recipient ≠ tx.sender → s'.nonce tx.recipient = s.nonce tx.recipient
  balance : tx.recipient ≠ tx.sender → ∀ balance, s.balance tx.recipient = .ok balance →
    ∃ balance', s'.balance tx.recipient = .ok balance' ∧ balance ≤ balance'
  records : ∀ v, RecordAfter s tx v (s'.validator_record v)
  delegations : ∀ d v, DelegationAfter s tx d v (s'.delegation d v)

variable {s s' : StateStore B} {tx : Transaction}

/-- A change that leaves all accounts but the sender's. -/
theorem frame_of_others (haccounts : ∀ a, a ≠ tx.sender → s'.get_account a = s.get_account a)
    (hrecords : ∀ v, RecordAfter s tx v (s'.validator_record v))
    (hdelegations : ∀ d v, DelegationAfter s tx d v (s'.delegation d v)) : Frame s tx s' := by
  refine ⟨fun a ha _ => haccounts a ha, ?_, ?_, hrecords, hdelegations⟩
  · intro hne
    unfold StateStore.nonce
    rw [haccounts _ hne]
  · intro hne balance hbalance
    unfold StateStore.balance at hbalance ⊢
    rw [haccounts _ hne]
    exact ⟨balance, hbalance, BitVec.le_refl _⟩

theorem frame_refl (s : StateStore B) (tx : Transaction) : Frame s tx s :=
  frame_of_others (fun _ _ => rfl) (fun _ => .same) fun _ _ => .same

variable [LawfulStore B]

/-- A write of the sender's account before the rest changes nothing else. -/
theorem Frame.of_withAccount {x : Account} (h : Frame (s.withAccount tx.sender x) tx s') :
    Frame s tx s' := by
  have hget : ∀ a, a ≠ tx.sender → (s.withAccount tx.sender x).get_account a = s.get_account a := by
    intro a ha
    rw [StateStore.get_account_withAccount, if_neg ha.symm]
  refine ⟨?_, ?_, ?_, ?_, ?_⟩
  · intro a ha har
    rw [h.accounts a ha har, hget a ha]
  · intro hne
    rw [h.nonce hne]
    unfold StateStore.nonce
    rw [hget _ hne]
  · intro hne balance hbalance
    refine h.balance hne balance ?_
    unfold StateStore.balance at hbalance ⊢
    rw [hget _ hne]
    exact hbalance
  · intro v
    have hv := h.records v
    generalize s'.validator_record v = result at hv ⊢
    cases hv with
    | same =>
      rw [StateStore.validator_record_withAccount]
      exact .same
    | registered hsender hdecode hnone =>
      rw [StateStore.validator_record_withAccount] at hnone
      exact .registered hsender hdecode hnone
    | restaked hdecode htarget hrecord =>
      rw [StateStore.validator_record_withAccount] at hrecord
      exact .restaked hdecode htarget hrecord
  · intro d v
    have hd := h.delegations d v
    generalize s'.delegation d v = result at hd ⊢
    cases hd with
    | same =>
      rw [StateStore.delegation_withAccount]
      exact .same
    | own hsender hdecode htarget => exact .own hsender hdecode htarget

/-! ## The handlers -/

section Handlers

variable [LawfulRecords] {x : Account} {r : Except VmError ExecutionResult}

omit [LawfulStore B] [LawfulRecords] in
theorem recordAfter_withValidator {op : StakingOperation} {validator : Address}
    {record : ValidatorRecord} (hdecode : StakingExecutor.decode tx.payload = .ok op)
    (htarget : op.target = some validator)
    (hrecord : s.validator_record validator = .ok (some record)) (delegated_stake : Balance)
    (v : Address) :
    RecordAfter s tx v (if validator = v then .ok (some { record with delegated_stake })
      else s.validator_record v) := by
  split
  · rename_i h
    subst h
    exact .restaked hdecode htarget hrecord
  · exact .same

omit [LawfulStore B] [LawfulRecords] in
theorem delegationAfter_withDelegation {op : StakingOperation} {validator : Address}
    (hdecode : StakingExecutor.decode tx.payload = .ok op) (htarget : op.target = some validator)
    (y : Option Delegation) (d v : Address) :
    DelegationAfter s tx d v
      (if (tx.sender, validator) = (d, v) then .ok y else s.delegation d v) := by
  split
  · rename_i h
    cases h
    exact .own rfl hdecode htarget
  · exact .same

theorem StakeEnds.frame {op : StakingOperation} (h : StakeEnds s tx.sender x op r s')
    (hdecode : StakingExecutor.decode tx.payload = .ok op) : Frame s tx s' := by
  cases h with
  | refused hpasses => exact frame_refl s tx
  | @registered consensus_pubkey commission_bps self_stake hpasses =>
    refine frame_of_others (fun a ha => ?_) (fun v => ?_) fun d v => ?_
    · simp [ha.symm]
    · rw [StateStore.validator_record_withValidator, StateStore.validator_record_withAccount]
      split
      · rename_i h
        subst h
        exact .registered rfl hdecode hpasses.2.2.2.1
      · exact .same
    · simpa using DelegationAfter.same
  | delegated hpasses hrecord hdelegation =>
    refine frame_of_others (fun a ha => ?_) (fun v => ?_) fun d v => ?_
    · simp [ha.symm]
    · simpa using recordAfter_withValidator hdecode rfl hrecord _ v
    · simpa using delegationAfter_withDelegation hdecode rfl _ d v
  | delegation_unread hrecord hdelegation =>
    refine frame_of_others (fun a ha => ?_) (fun v => ?_) fun d v => ?_
    · simp [ha.symm]
    · simpa using recordAfter_withValidator hdecode rfl hrecord _ v
    · simpa using DelegationAfter.same
  | undelegated hpasses hrecord hdelegation =>
    refine frame_of_others (fun a ha => ?_) (fun v => ?_) fun d v => ?_
    · simp [ha.symm]
    · simpa using recordAfter_withValidator hdecode rfl hrecord _ v
    · simpa using delegationAfter_withDelegation hdecode rfl _ d v

omit [LawfulRecords] in
theorem ReceiveEnds.frame {r : Except StorageError Unit}
    (h : ReceiveEnds s tx.recipient tx.amount r s') : Frame s tx s' := by
  cases h with
  | unread hread => exact frame_refl s tx
  | overflow hread hadd => exact frame_refl s tx
  | @received y balance hread hadd =>
    have hsame : (s.withAccount tx.recipient ((y.getD default).with_balance balance)).get_account
        tx.recipient = .ok (some ((y.getD default).with_balance balance)) := by
      rw [StateStore.get_account_withAccount, if_pos rfl]
    refine ⟨?_, ?_, ?_, ?_, ?_⟩
    · intro a _ har
      rw [StateStore.get_account_withAccount, if_neg har.symm]
    · intro _
      rw [StateStore.nonce_of_get_account hsame, StateStore.nonce_of_get_account hread]
      rfl
    · intro _ old hold
      cases (StateStore.balance_of_get_account hread).symm.trans hold
      refine ⟨balance, StateStore.balance_of_get_account hsame, ?_⟩
      unfold U128.checked_add at hadd
      split at hadd
      · rename_i hfits
        cases hadd
        rw [BitVec.le_def, U128.toNat_add hfits]
        exact Nat.le_add_right _ _
      · cases hadd
    · intro v
      simpa using RecordAfter.same
    · intro d v
      simpa using DelegationAfter.same

omit [LawfulRecords] in
theorem TransferEnds.frame (h : TransferEnds s tx x r s') : Frame s tx s' := by
  cases h with
  | nothing hamount => exact frame_refl s tx
  | short hamount => exact frame_refl s tx
  | failed hamount hcovers hends => exact hends.frame.of_withAccount
  | moved hamount hcovers hends => exact hends.frame.of_withAccount

theorem DispatchEnds.frame (h : DispatchEnds s tx x r s') : Frame s tx s' := by
  cases h with
  | transfer hpayload hends => exact hends.frame
  | foreign hpayload hfirst => exact frame_refl s tx
  | undecoded hpayload hdecode => exact frame_refl s tx
  | staked hpayload hdecode hends => exact hends.frame hdecode

theorem ExecuteEnds.frame (h : ExecuteEnds s tx r s') : Frame s tx s' := by
  cases h with
  | unsigned hverify => exact frame_refl s tx
  | unread hread => exact frame_refl s tx
  | uncharged hverify hread hcharges => exact frame_refl s tx
  | charged hcharges hread hends => exact hends.frame.of_withAccount

end Handlers

/-! ## What a call takes from whom -/

/-- The funds and the stake of an address are still there. -/
structure KeepsFunds (s : StateStore B) (a : Address) (s' : StateStore B) : Prop where
  balance : ∀ balance, s.balance a = .ok balance →
    ∃ balance', s'.balance a = .ok balance' ∧ balance ≤ balance'
  delegation : ∀ v x, s.delegation a v = .ok (some x) →
    ∃ x', s'.delegation a v = .ok (some x') ∧ x.amount ≤ x'.amount
  self_stake : ∀ record, s.validator_record a = .ok (some record) →
    ∃ record', s'.validator_record a = .ok (some record') ∧ record.self_stake ≤ record'.self_stake

omit [LawfulStore B] in
theorem keepsFunds_refl (s : StateStore B) (a : Address) : KeepsFunds s a s :=
  ⟨fun balance h => ⟨balance, h, BitVec.le_refl _⟩, fun _ x h => ⟨x, h, BitVec.le_refl _⟩,
    fun record h => ⟨record, h, BitVec.le_refl _⟩⟩

omit [LawfulStore B] in
/-- Only the sender can lose something. -/
theorem Frame.keepsFunds (h : Frame s tx s') {a : Address} (ha : a ≠ tx.sender) :
    KeepsFunds s a s' := by
  refine ⟨?_, ?_, ?_⟩
  · intro balance hbalance
    by_cases har : a = tx.recipient
    · subst har
      exact h.balance ha balance hbalance
    · unfold StateStore.balance at hbalance ⊢
      rw [h.accounts a ha har]
      exact ⟨balance, hbalance, BitVec.le_refl _⟩
  · intro v x hx
    have hd := h.delegations a v
    generalize s'.delegation a v = result at hd ⊢
    cases hd with
    | same => exact ⟨x, hx, BitVec.le_refl _⟩
    | own hsender hdecode htarget => exact absurd hsender ha
  · intro record hrecord
    have hv := h.records a
    generalize s'.validator_record a = result at hv ⊢
    cases hv with
    | same => exact ⟨record, hrecord, BitVec.le_refl _⟩
    | registered hsender hdecode hnone => exact absurd hsender ha
    | restaked hdecode htarget hold =>
      cases hold.symm.trans hrecord
      exact ⟨_, rfl, BitVec.le_refl _⟩

/-- The transaction is signed with a key that hashes to the address. -/
structure SignedBy (tx : Transaction) (a : Address) : Prop where
  key : (Hash.hash_bytes tx.public_key).as_bytes = a.as_bytes
  signature : Crates.ed25519_verify tx.public_key tx.signing_hash.as_bytes tx.signature = true

omit [StateBackend B] [LawfulStore B] in
theorem signedBy_sender (h : BlockExecutor.verify_signature tx = .ok ()) :
    SignedBy tx tx.sender := by
  unfold BlockExecutor.verify_signature at h
  split at h
  · cases h
  split at h
  · cases h
  split at h
  · cases h
  rename_i hkey
  split at h
  · rename_i hsignature
    exact ⟨not_not.mp hkey, hsignature⟩
  · cases h

/-- What a call may do with the authority of a transaction. -/
structure Authorised (s : StateStore B) (tx : Transaction) (s' : StateStore B) : Prop extends
    Frame s tx s' where
  unsigned : BlockExecutor.verify_signature tx ≠ .ok () → s' = s
  keeps : ∀ a, ¬ SignedBy tx a → KeepsFunds s a s'

variable [LawfulRecords]

/-- Whatever a call of the block executor ends with, it changes nothing that the transaction does
not name, and takes nothing from anyone who has not signed it. -/
theorem execution_touches_what_its_signer_authorised (s : StateStore B) (tx : Transaction) :
    Authorised s tx (BlockExecutor.execute s tx).2 := by
  have hunsigned : BlockExecutor.verify_signature tx ≠ .ok () →
      (BlockExecutor.execute s tx).2 = s :=
    fun h => execute_of_not_charges fun hcharges => h hcharges.1
  have hframe := (execute_ends s tx).frame
  refine ⟨hframe, hunsigned, ?_⟩
  intro a ha
  by_cases hverify : BlockExecutor.verify_signature tx = .ok ()
  · refine hframe.keepsFunds ?_
    rintro rfl
    exact ha (signedBy_sender hverify)
  · rw [hunsigned hverify]
    exact keepsFunds_refl s a

end Pemrix

namespace Pemrix.Concrete

/-- The transfer of the payer. -/
theorem transfer_touches_what_the_payer_authorised :
    Authorised (⟨⟨paying, ∅⟩⟩ : StateStore InMemoryBackend) transfer
      (BlockExecutor.execute (⟨⟨paying, ∅⟩⟩ : StateStore InMemoryBackend) transfer).2 :=
  execution_touches_what_its_signer_authorised _ transfer

end Pemrix.Concrete
