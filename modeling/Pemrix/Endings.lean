-- Every way a call of the executors can end, with the store that it leaves. The store
-- is any store of a lawful backend, with any raw entries, so reads may fail. What a
-- handler checks before it writes is one predicate on the store before it.
import Pemrix.AnyStore
import Pemrix.Replay

open Std

namespace Pemrix

open StakingExecutor (MIN_SELF_STAKE MIN_DELEGATION)

variable {B : Type} [StateBackend B] [Crates]

/-! ## The checks of the handlers -/

/-- The operation passes the checks of its handler, for a sender with this balance. A delegation
is read after the first writes; that it can be read counts as a check. -/
def StakingOperation.Passes (s : StateStore B) (sender : Address) (balance : Balance) :
    StakingOperation → Prop
  | .RegisterValidator consensus_pubkey commission_bps self_stake =>
    consensus_pubkey ≠ [] ∧ commission_bps ≤ 10000 ∧ MIN_SELF_STAKE ≤ self_stake ∧
      s.validator_record sender = .ok none ∧ self_stake ≤ balance
  | .Delegate validator amount =>
    MIN_DELEGATION ≤ amount ∧
      (∃ record, s.validator_record validator = .ok (some record) ∧ record.status = .Active) ∧
      amount ≤ balance ∧ ∃ delegation, s.delegation sender validator = .ok delegation
  | .Undelegate validator amount =>
    (∃ delegation, s.delegation sender validator = .ok (some delegation) ∧
        amount ≤ delegation.amount) ∧
      ∃ record, s.validator_record validator = .ok (some record)

/-! ## How a call can end -/

/-- The account with another balance. -/
def Account.with_balance (x : Account) (balance : Balance) : Account := { x with balance }

/-- How a staking operation can end for a sender with the account `x`. -/
inductive StakeEnds (s : StateStore B) (sender : Address) (x : Account) :
    StakingOperation → Except VmError ExecutionResult → StateStore B → Prop
  | refused {op : StakingOperation} {e : VmError} (hpasses : ¬ op.Passes s sender x.balance) :
    StakeEnds s sender x op (.error e) s
  | registered {consensus_pubkey : Bytes} {commission_bps : UInt16} {self_stake : Balance}
    (hpasses : (StakingOperation.RegisterValidator consensus_pubkey commission_bps
      self_stake).Passes s sender x.balance) :
    StakeEnds s sender x (.RegisterValidator consensus_pubkey commission_bps self_stake)
      (.ok ⟨true, 50000, "validator registered"⟩)
      ((s.withAccount sender (x.with_balance (x.balance - self_stake))).withValidator sender
        (.new sender consensus_pubkey self_stake commission_bps))
  | delegated {validator : Address} {amount : Balance} {record : ValidatorRecord}
    {delegation : Option Delegation}
    (hpasses : (StakingOperation.Delegate validator amount).Passes s sender x.balance)
    (hrecord : s.validator_record validator = .ok (some record))
    (hdelegation : s.delegation sender validator = .ok delegation) :
    StakeEnds s sender x (.Delegate validator amount) (.ok ⟨true, 30000, "delegated"⟩)
      (((s.withAccount sender (x.with_balance (x.balance - amount))).withValidator validator
          { record with delegated_stake := record.delegated_stake + amount }).withDelegation
        sender validator
        (some { delegation.getD default with amount := (delegation.getD default).amount + amount }))
  | delegation_unread {validator : Address} {amount : Balance} {record : ValidatorRecord}
    {e : StorageError} (hrecord : s.validator_record validator = .ok (some record))
    (hdelegation : s.delegation sender validator = .error e) :
    StakeEnds s sender x (.Delegate validator amount) (.error .Storage)
      ((s.withAccount sender (x.with_balance (x.balance - amount))).withValidator validator
        { record with delegated_stake := record.delegated_stake + amount })
  | undelegated {validator : Address} {amount : Balance} {record : ValidatorRecord}
    {delegation : Delegation}
    (hpasses : (StakingOperation.Undelegate validator amount).Passes s sender x.balance)
    (hrecord : s.validator_record validator = .ok (some record))
    (hdelegation : s.delegation sender validator = .ok (some delegation)) :
    StakeEnds s sender x (.Undelegate validator amount) (.ok ⟨true, 30000, "undelegated"⟩)
      (((s.withValidator validator
          { record with
            delegated_stake := U128.saturating_sub record.delegated_stake amount }).withDelegation
          sender validator
          (if delegation.amount - amount = 0 then none
            else some { delegation with amount := delegation.amount - amount })).withAccount
        sender (x.with_balance (x.balance + amount)))

/-- How `amount` on top of the balance of an address can end. -/
inductive ReceiveEnds (s : StateStore B) (address : Address) (amount : Balance) :
    Except StorageError Unit → StateStore B → Prop
  | unread {e : StorageError} (hread : s.get_account address = .error e) :
    ReceiveEnds s address amount (.error e) s
  | overflow {y : Option Account} (hread : s.get_account address = .ok y)
    (hadd : U128.checked_add (y.getD default).balance amount = none) :
    ReceiveEnds s address amount (.error (.Backend "balance overflow")) s
  | received {y : Option Account} {balance : Balance} (hread : s.get_account address = .ok y)
    (hadd : U128.checked_add (y.getD default).balance amount = some balance) :
    ReceiveEnds s address amount (.ok ())
      (s.withAccount address ((y.getD default).with_balance balance))

/-- How a transfer can end for a sender with the account `x`, after the fee. -/
inductive TransferEnds (s : StateStore B) (tx : Transaction) (x : Account) :
    Except VmError ExecutionResult → StateStore B → Prop
  | nothing (hamount : tx.amount = 0) : TransferEnds s tx x (.ok ⟨true, 21000, "ok"⟩) s
  | short (hamount : x.balance < tx.amount) :
    TransferEnds s tx x (.ok ⟨false, 0, "insufficient balance for transfer"⟩) s
  | failed {e : StorageError} {s' : StateStore B} (hamount : tx.amount ≠ 0)
    (hcovers : tx.amount ≤ x.balance)
    (hends : ReceiveEnds (s.withAccount tx.sender (x.with_balance (x.balance - tx.amount)))
      tx.recipient tx.amount (.error e) s') :
    TransferEnds s tx x (.error .Storage) s'
  | moved {s' : StateStore B} (hamount : tx.amount ≠ 0) (hcovers : tx.amount ≤ x.balance)
    (hends : ReceiveEnds (s.withAccount tx.sender (x.with_balance (x.balance - tx.amount)))
      tx.recipient tx.amount (.ok ()) s') :
    TransferEnds s tx x (.ok ⟨true, 21000, "ok"⟩) s'

/-- How the handler that the payload asks for can end. -/
inductive DispatchEnds (s : StateStore B) (tx : Transaction) (x : Account) :
    Except VmError ExecutionResult → StateStore B → Prop
  | transfer {r : Except VmError ExecutionResult} {s' : StateStore B} (hpayload : tx.payload = [])
    (hends : TransferEnds s tx x r s') : DispatchEnds s tx x r s'
  | foreign {first : UInt8} {rest : Bytes} (hpayload : tx.payload = first :: rest)
    (hfirst : first ≠ 1) : DispatchEnds s tx x (.ok ⟨false, 0, "invalid contract"⟩) s
  | undecoded {rest : Bytes} {e : VmError} (hpayload : tx.payload = 1 :: rest)
    (hdecode : StakingExecutor.decode tx.payload = .error e) : DispatchEnds s tx x (.error e) s
  | staked {rest : Bytes} {op : StakingOperation} {r : Except VmError ExecutionResult}
    {s' : StateStore B} (hpayload : tx.payload = 1 :: rest)
    (hdecode : StakingExecutor.decode tx.payload = .ok op)
    (hends : StakeEnds s tx.sender x op r s') : DispatchEnds s tx x r s'

/-- The account of the sender after the fee. -/
def Account.charged (x : Option Account) (fee : Balance) : Account :=
  ⟨(x.getD default).balance - fee, (x.getD default).nonce + 1⟩

/-- How a call of the block executor can end. -/
inductive ExecuteEnds (s : StateStore B) (tx : Transaction) :
    Except VmError ExecutionResult → StateStore B → Prop
  | unsigned {e : VmError} (hverify : BlockExecutor.verify_signature tx = .error e) :
    ExecuteEnds s tx (.error e) s
  | unread {e : StorageError} (hread : s.get_account tx.sender = .error e) :
    ExecuteEnds s tx (.error .Storage) s
  | uncharged {x : Option Account} {message : String}
    (hverify : BlockExecutor.verify_signature tx = .ok ())
    (hread : s.get_account tx.sender = .ok x) (hcharges : ¬ s.Charges tx) :
    ExecuteEnds s tx (.ok ⟨false, 0, message⟩) s
  | charged {x : Option Account} {r : Except VmError ExecutionResult} {s' : StateStore B}
    (hcharges : s.Charges tx) (hread : s.get_account tx.sender = .ok x)
    (hends : DispatchEnds (s.withAccount tx.sender (.charged x tx.fee)) tx (.charged x tx.fee)
      r s') :
    ExecuteEnds s tx r s'

/-! ## The handlers -/

section Handlers

variable [LawfulStore B] {s : StateStore B} {sender : Address} {x : Account}

omit [Crates] [LawfulStore B] in
theorem balance_of_account (hx : s.get_account sender = .ok (some x)) :
    s.balance sender = .ok x.balance := StateStore.balance_of_get_account hx

theorem register_ends (hx : s.get_account sender = .ok (some x)) (consensus_pubkey : Bytes)
    (commission_bps : UInt16) (self_stake : Balance) :
    EndsIn (StakingExecutor.register sender consensus_pubkey commission_bps self_stake) s
      (StakeEnds s sender x (.RegisterValidator consensus_pubkey commission_bps self_stake)) := by
  unfold StakingExecutor.register
  refine endsIn_check (fun h => .refused ?_) fun h1 => ?_
  · rintro ⟨hkey, -⟩
    exact hkey (List.isEmpty_iff.mp h)
  refine endsIn_check (fun h => .refused ?_) fun h2 => ?_
  · rintro ⟨-, hbps, -⟩
    exact UInt16.not_lt.mpr hbps h
  refine endsIn_check (fun h => .refused ?_) fun h3 => ?_
  · rintro ⟨-, -, hmin, -⟩
    exact BitVec.not_lt.mpr hmin h
  refine endsIn_read (fun e he => .refused ?_) fun record hrecord => ?_
  · rintro ⟨-, -, -, hnone, -⟩
    cases he.symm.trans hnone
  refine endsIn_check (fun h => .refused ?_) fun h4 => ?_
  · rintro ⟨-, -, -, hnone, -⟩
    cases hrecord.symm.trans hnone
    cases h
  refine endsIn_read_ok (balance_of_account hx) ?_
  refine endsIn_check (fun h => .refused ?_) fun h5 => ?_
  · rintro ⟨-, -, -, -, hcovers⟩
    exact BitVec.not_lt.mpr hcovers h
  refine endsIn_read_ok hx (endsIn_arith ?_)
  refine endsIn_write (s.set_account_eq _ _) ?_
  refine endsIn_write (StateStore.set_validator_record_eq _ _ _) (endsIn_pure (.registered ?_))
  refine ⟨fun h => h1 (List.isEmpty_iff.mpr h), UInt16.not_lt.mp h2, BitVec.not_lt.mp h3, ?_,
    BitVec.not_lt.mp h5⟩
  rw [hrecord, Option.not_isSome_iff_eq_none.mp h4]

theorem delegate_ends (hx : s.get_account sender = .ok (some x)) (validator : Address)
    (amount : Balance) :
    EndsIn (StakingExecutor.delegate sender validator amount) s
      (StakeEnds s sender x (.Delegate validator amount)) := by
  unfold StakingExecutor.delegate
  refine endsIn_check (fun h => .refused ?_) fun h1 => ?_
  · rintro ⟨hmin, -⟩
    exact BitVec.not_lt.mpr hmin h
  refine endsIn_read (fun e he => .refused ?_) fun record hrecord => ?_
  · rintro ⟨-, ⟨record, hsome, -⟩, -⟩
    cases he.symm.trans hsome
  cases record with
  | none =>
    refine endsIn_throw (.refused ?_)
    rintro ⟨-, ⟨record, hsome, -⟩, -⟩
    cases hrecord.symm.trans hsome
  | some record =>
    refine endsIn_check (fun h => .refused ?_) fun h2 => ?_
    · rintro ⟨-, ⟨record', hsome, hactive⟩, -⟩
      cases hrecord.symm.trans hsome
      exact h hactive
    refine endsIn_read_ok (balance_of_account hx) ?_
    refine endsIn_check (fun h => .refused ?_) fun h3 => ?_
    · rintro ⟨-, -, hcovers, -⟩
      exact BitVec.not_lt.mpr hcovers h
    refine endsIn_read_ok hx (endsIn_arith ?_)
    refine endsIn_write (s.set_account_eq _ _) (endsIn_arith ?_)
    refine endsIn_write (StateStore.set_validator_record_eq _ _ _) ?_
    -- The delegation is read here, after two writes.
    refine endsIn_read (fun e he => ?_) fun delegation hdelegation => endsIn_arith ?_
    · rw [StateStore.delegation_withValidator, StateStore.delegation_withAccount] at he
      exact .delegation_unread hrecord he
    · rw [StateStore.delegation_withValidator, StateStore.delegation_withAccount] at hdelegation
      refine endsIn_write (StateStore.set_delegation_eq _ _ _ _) (endsIn_pure ?_)
      exact .delegated ⟨BitVec.not_lt.mp h1, ⟨record, hrecord, not_not.mp h2⟩, BitVec.not_lt.mp h3,
        delegation, hdelegation⟩ hrecord hdelegation

theorem undelegate_ends (hx : s.get_account sender = .ok (some x)) (validator : Address)
    (amount : Balance) :
    EndsIn (StakingExecutor.undelegate sender validator amount) s
      (StakeEnds s sender x (.Undelegate validator amount)) := by
  unfold StakingExecutor.undelegate
  refine endsIn_read (fun e he => .refused ?_) fun delegation hdelegation => ?_
  · rintro ⟨⟨delegation, hsome, -⟩, -⟩
    cases he.symm.trans hsome
  cases delegation with
  | none =>
    refine endsIn_throw (.refused ?_)
    rintro ⟨⟨delegation, hsome, -⟩, -⟩
    cases hdelegation.symm.trans hsome
  | some delegation =>
    refine endsIn_check (fun h => .refused ?_) fun h1 => ?_
    · rintro ⟨⟨delegation', hsome, hcovers⟩, -⟩
      cases hdelegation.symm.trans hsome
      exact BitVec.not_lt.mpr hcovers h
    refine endsIn_read (fun e he => .refused ?_) fun record hrecord => ?_
    · rintro ⟨-, record, hsome⟩
      cases he.symm.trans hsome
    cases record with
    | none =>
      refine endsIn_throw (.refused ?_)
      rintro ⟨-, record, hsome⟩
      cases hrecord.symm.trans hsome
    | some record =>
      have hends : StakeEnds s sender x (.Undelegate validator amount) _ _ := .undelegated
        ⟨⟨delegation, hdelegation, BitVec.not_lt.mp h1⟩, record, hrecord⟩ hrecord hdelegation
      refine endsIn_arith (endsIn_write (s.set_validator_record_eq _ _) (endsIn_arith ?_))
      by_cases hleft : delegation.amount - amount = 0
      · rw [if_pos hleft] at hends ⊢
        refine endsIn_write (StateStore.delete_delegation_eq _ _ _) ?_
        refine endsIn_read_ok (v := some x) (by simpa using hx) (endsIn_arith ?_)
        exact endsIn_write (StateStore.set_account_eq _ _ _) (endsIn_pure hends)
      · rw [if_neg hleft] at hends ⊢
        refine endsIn_write (StateStore.set_delegation_eq _ _ _ _) ?_
        refine endsIn_read_ok (v := some x) (by simpa using hx) (endsIn_arith ?_)
        exact endsIn_write (StateStore.set_account_eq _ _ _) (endsIn_pure hends)

theorem handle_ends (hx : s.get_account sender = .ok (some x)) (op : StakingOperation) :
    EndsIn (StakingExecutor.handle sender op) s (StakeEnds s sender x op) := by
  cases op with
  | RegisterValidator consensus_pubkey commission_bps self_stake =>
    exact register_ends hx consensus_pubkey commission_bps self_stake
  | Delegate validator amount => exact delegate_ends hx validator amount
  | Undelegate validator amount => exact undelegate_ends hx validator amount

omit [Crates] in
theorem transfer_amount_only_ends (s : StateStore B) (address : Address) (amount : Balance) :
    EndsIn (StateStore.transfer_amount_only address amount) s (ReceiveEnds s address amount) := by
  unfold StateStore.transfer_amount_only
  refine endsIn_get (fun e he => .unread he) fun y hy => endsIn_arith ?_
  rcases hadd : U128.checked_add (y.getD default).balance amount with _ | balance
  · exact endsIn_throw (.overflow hy hadd)
  · exact endsIn_put (s.set_account_eq _ _) (.received hy hadd)

omit [Crates] in
theorem transfer_ends {tx : Transaction} (hx : s.get_account tx.sender = .ok (some x)) :
    EndsIn (BlockExecutor.native_transfer tx) s (TransferEnds s tx x) := by
  unfold BlockExecutor.native_transfer
  refine endsIn_ite (fun hpos => ?_) fun hzero => ?_
  · have hamount : tx.amount ≠ 0 := fun h => by
      rw [h] at hpos
      exact absurd hpos (by decide)
    refine endsIn_read_ok hx ?_
    refine endsIn_ite (fun hshort => endsIn_pure (.short hshort)) fun hcovers => ?_
    have hcovers : tx.amount ≤ x.balance := BitVec.not_lt.mp hcovers
    refine endsIn_arith (endsIn_write (s.set_account_eq _ _) ?_)
    have hreceive := transfer_amount_only_ends
      (s.withAccount tx.sender (x.with_balance (x.balance - tx.amount))) tx.recipient tx.amount
    refine endsIn_bind
      (P := fun r t => ∃ r', r'.mapError (fun _ => .Storage) = r ∧
        ReceiveEnds (s.withAccount tx.sender (x.with_balance (x.balance - tx.amount)))
          tx.recipient tx.amount r' t)
      (fun ops => ⟨_, rfl, hreceive ops⟩) ?_ ?_
    · rintro e t ⟨r', hr, hends⟩
      rcases r' with e' | u
      · cases hr
        exact .failed hamount hcovers hends
      · cases hr
    · rintro v t ⟨r', hr, hends⟩
      rcases r' with e' | u
      · cases hr
      · exact endsIn_pure (.moved hamount hcovers hends)
  · exact endsIn_pure (.nothing (by bv_omega))

theorem dispatch_ends {tx : Transaction} (hx : s.get_account tx.sender = .ok (some x)) :
    EndsIn (BlockExecutor.dispatch tx) s (DispatchEnds s tx x) := by
  unfold BlockExecutor.dispatch
  rcases hpayload : tx.payload with _ | ⟨first, rest⟩
  · exact fun ops => (transfer_ends hx ops).mono fun r m => .transfer hpayload
  · refine endsIn_ite (fun hfirst => ?_) fun hfirst => endsIn_pure (.foreign hpayload hfirst)
    subst hfirst
    unfold StakingExecutor.run
    rcases hdecode : StakingExecutor.decode tx.payload with e | op
    · exact endsIn_throw (.undecoded hpayload hdecode)
    · exact fun ops => (handle_ends hx op ops).mono fun r m => .staked hpayload hdecode

end Handlers

/-! ## The block executor -/

section Executor

variable [LawfulStore B] (s : StateStore B) (tx : Transaction)

theorem run_ends : EndsIn (BlockExecutor.run tx) s (ExecuteEnds s tx) := by
  unfold BlockExecutor.run
  rcases hverify : BlockExecutor.verify_signature tx with e | u
  · exact endsIn_throw (.unsigned hverify)
  rcases hget : s.get_account tx.sender with e | x
  · refine endsIn_read (fun _ _ => .unread hget) fun nonce hnonce => ?_
    unfold StateStore.nonce at hnonce
    rw [hget] at hnonce
    cases hnonce
  have hnonce := StateStore.nonce_of_get_account hget
  have hbalance := StateStore.balance_of_get_account hget
  refine endsIn_read_ok hnonce (endsIn_ite (fun hne => ?_) fun heq => ?_)
  · refine endsIn_pure (.uncharged hverify hget ?_)
    rintro ⟨-, hcharges, -⟩
    exact hne (Except.ok.inj (hnonce.symm.trans hcharges))
  refine endsIn_read_ok hbalance (endsIn_ite (fun hshort => ?_) fun hcovers => ?_)
  · refine endsIn_pure (.uncharged hverify hget ?_)
    rintro ⟨-, -, balance, hcharges, hfee⟩
    cases hbalance.symm.trans hcharges
    exact BitVec.not_lt.mpr hfee hshort
  have hcharges : s.Charges tx := by
    refine ⟨hverify, ?_, _, hbalance, BitVec.not_lt.mp hcovers⟩
    rw [hnonce, not_not.mp heq]
  refine endsIn_bind (P := fun r t => r = .ok () ∧
    t = s.withAccount tx.sender (.charged x tx.fee)) ?_ ?_ ?_
  · exact fun ops => by
      unfold Exits.Ends
      rw [run_charge hget ops]
      exact ⟨rfl, rfl⟩
  · rintro e t ⟨he, -⟩
    cases he
  · rintro v t ⟨-, rfl⟩
    refine fun ops => (dispatch_ends (x := .charged x tx.fee) ?_ ops).mono fun r m =>
      .charged hcharges hget
    rw [StateStore.get_account_withAccount, if_pos rfl]

/-- Every way a call of the block executor can end. -/
theorem execute_ends :
    ExecuteEnds s tx (BlockExecutor.execute s tx).1 (BlockExecutor.execute s tx).2 :=
  run_ends s tx []

end Executor

end Pemrix
