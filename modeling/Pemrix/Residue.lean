-- What a call that errors leaves behind. The fee and the nonce are written before the
-- handler runs, so an error of the handler leaves the charge in the store. A call that
-- errors leaves no trace exactly when it errs before the charge.
import Pemrix.Endings

open Std

namespace Pemrix

variable {B : Type} [StateBackend B] [Crates]

/-! ## When a handler accepts -/

/-- The balance of the recipient can take the amount. -/
def StateStore.Takes (s : StateStore B) (tx : Transaction) : Prop :=
  tx.recipient = tx.sender ∨
    ∃ other, s.balance tx.recipient = .ok other ∧ other.toNat + tx.amount.toNat < 2 ^ 128

/-- The handler of the payload accepts a transaction whose sender has this balance after the
fee. -/
def StateStore.AcceptsWith (s : StateStore B) (tx : Transaction) (balance : Balance) :
    Bytes → Prop
  | [] => tx.amount = 0 ∨ balance < tx.amount ∨ s.Takes tx
  | first :: _ =>
    first = 1 → ∃ op, StakingExecutor.decode tx.payload = .ok op ∧ op.Passes s tx.sender balance

/-- What the transaction asks for passes the checks of its handler once the fee is paid. -/
def StateStore.Accepts (s : StateStore B) (tx : Transaction) : Prop :=
  ∃ balance, s.balance tx.sender = .ok balance ∧ s.AcceptsWith tx (balance - tx.fee) tx.payload

section Handlers

variable {s s' : StateStore B} {tx : Transaction} {sender : Address} {x : Account}
  {r : Except VmError ExecutionResult}

/-- A staking operation goes through exactly when it passes the checks. -/
theorem StakeEnds.ok_iff {op : StakingOperation} (h : StakeEnds s sender x op r s') :
    (∃ v, r = .ok v) ↔ op.Passes s sender x.balance := by
  cases h with
  | refused hpasses => simp [hpasses]
  | registered hpasses => simp [hpasses]
  | delegated hpasses hrecord hdelegation => simp [hpasses]
  | delegation_unread hrecord hdelegation =>
    refine iff_of_false (by simp) ?_
    rintro ⟨-, -, -, delegation, hok⟩
    cases hdelegation.symm.trans hok
  | undelegated hpasses hrecord hdelegation => simp [hpasses]

variable [LawfulStore B]

/-- The checks look at the records, so a write of an account changes nothing for them. -/
theorem passes_withAccount (s : StateStore B) (a : Address) (x : Account) (sender : Address)
    (balance : Balance) (op : StakingOperation) :
    op.Passes (s.withAccount a x) sender balance ↔ op.Passes s sender balance := by
  cases op with
  | RegisterValidator consensus_pubkey commission_bps self_stake =>
    simp [StakingOperation.Passes]
  | Delegate validator amount => simp [StakingOperation.Passes]
  | Undelegate validator amount => simp [StakingOperation.Passes]

omit [Crates] [LawfulStore B] in
theorem ReceiveEnds.ok_iff {address : Address} {amount : Balance} {r : Except StorageError Unit}
    (h : ReceiveEnds s address amount r s') :
    r = .ok () ↔
      ∃ balance, s.balance address = .ok balance ∧ balance.toNat + amount.toNat < 2 ^ 128 := by
  cases h with
  | unread hread =>
    refine iff_of_false (by simp) ?_
    rintro ⟨balance, hbalance, -⟩
    unfold StateStore.balance at hbalance
    rw [hread] at hbalance
    cases hbalance
  | overflow hread hadd =>
    refine iff_of_false (by simp) ?_
    rintro ⟨balance, hbalance, hfits⟩
    cases (StateStore.balance_of_get_account hread).symm.trans hbalance
    rw [U128.checked_add, if_pos hfits] at hadd
    cases hadd
  | received hread hadd =>
    refine iff_of_true rfl ⟨_, StateStore.balance_of_get_account hread, ?_⟩
    by_contra hover
    rw [U128.checked_add, if_neg hover] at hadd
    cases hadd

omit [Crates] in
/-- After a write of the sender's account from which the amount is taken. -/
theorem receive_ok_iff {y : Account} {r : Except StorageError Unit}
    (h : ReceiveEnds (s.withAccount tx.sender y) tx.recipient tx.amount r s')
    (hy : y.balance.toNat + tx.amount.toNat < 2 ^ 128) : r = .ok () ↔ s.Takes tx := by
  have hget := s.get_account_withAccount tx.sender tx.recipient y
  rw [h.ok_iff]
  unfold StateStore.Takes
  by_cases hself : tx.recipient = tx.sender
  · rw [if_pos hself.symm] at hget
    exact iff_of_true ⟨_, StateStore.balance_of_get_account hget, hy⟩ (Or.inl hself)
  · rw [if_neg (Ne.symm hself)] at hget
    have hbalance : (s.withAccount tx.sender y).balance tx.recipient = s.balance tx.recipient := by
      unfold StateStore.balance
      rw [hget]
    rw [hbalance, or_iff_right hself]

omit [Crates] in
/-- What the sender has paid fits back on its balance. -/
theorem TransferEnds.takes_iff {y : Account} {r : Except StorageError Unit}
    (hcovers : tx.amount ≤ y.balance)
    (h : ReceiveEnds ((s.withAccount tx.sender x).withAccount tx.sender
      (y.with_balance (y.balance - tx.amount))) tx.recipient tx.amount r s') :
    r = .ok () ↔ s.Takes tx := by
  have hle := BitVec.le_def.mp hcovers
  have hlt := y.balance.isLt
  have hy : (y.with_balance (y.balance - tx.amount)).balance.toNat + tx.amount.toNat < 2 ^ 128 := by
    unfold Account.with_balance
    rw [U128.toNat_sub hcovers]
    omega
  rw [receive_ok_iff h hy]
  unfold StateStore.Takes
  by_cases hself : tx.recipient = tx.sender
  · exact iff_of_true (Or.inl hself) (Or.inl hself)
  · have hget := s.get_account_withAccount tx.sender tx.recipient x
    rw [if_neg (Ne.symm hself)] at hget
    unfold StateStore.balance
    rw [hget]

omit [Crates] in
/-- A transfer after the fee ends in an error exactly when the recipient's balance cannot take
the amount. -/
theorem TransferEnds.ok_iff (h : TransferEnds (s.withAccount tx.sender x) tx x r s') :
    (∃ v, r = .ok v) ↔ tx.amount = 0 ∨ x.balance < tx.amount ∨ s.Takes tx := by
  cases h with
  | nothing hamount => simp [hamount]
  | short hamount => simp [hamount]
  | failed hamount hcovers hends =>
    refine iff_of_false (by simp) ?_
    rintro (hzero | hshort | htakes)
    · exact hamount hzero
    · exact BitVec.not_lt.mpr hcovers hshort
    · cases (TransferEnds.takes_iff hcovers hends).mpr htakes
  | moved hamount hcovers hends =>
    exact iff_of_true ⟨_, rfl⟩ (Or.inr (Or.inr ((TransferEnds.takes_iff hcovers hends).mp rfl)))

theorem DispatchEnds.ok_iff (h : DispatchEnds (s.withAccount tx.sender x) tx x r s') :
    (∃ v, r = .ok v) ↔ s.AcceptsWith tx x.balance tx.payload := by
  cases h with
  | transfer hpayload hends =>
    rw [hpayload]
    exact hends.ok_iff
  | foreign hpayload hfirst =>
    rw [hpayload]
    exact iff_of_true ⟨_, rfl⟩ fun h => absurd h hfirst
  | undecoded hpayload hdecode =>
    refine iff_of_false (by simp) ?_
    rw [hpayload]
    intro h
    obtain ⟨op, hok, -⟩ := h rfl
    cases hdecode.symm.trans hok
  | @staked rest op r s' hpayload hdecode hends =>
    rw [hends.ok_iff, passes_withAccount, hpayload]
    constructor
    · exact fun hpasses _ => ⟨op, hdecode, hpasses⟩
    · intro h
      obtain ⟨op', hdecode', hpasses⟩ := h rfl
      cases hdecode.symm.trans hdecode'
      exact hpasses

/-- A call that charges returns a result exactly when the handler accepts. -/
theorem execute_ok_iff (hcharges : s.Charges tx) :
    (∃ v, (BlockExecutor.execute s tx).1 = .ok v) ↔ s.Accepts tx := by
  have hends := execute_ends s tx
  generalize (BlockExecutor.execute s tx).1 = r, (BlockExecutor.execute s tx).2 = s' at hends ⊢
  cases hends with
  | unsigned hverify => cases hverify.symm.trans hcharges.1
  | unread hread =>
    have hnonce := hcharges.2.1
    unfold StateStore.nonce at hnonce
    rw [hread] at hnonce
    cases hnonce
  | uncharged hverify hread hnot => exact absurd hcharges hnot
  | charged _ hread hends =>
    rw [hends.ok_iff]
    have hbalance := StateStore.balance_of_get_account hread
    constructor
    · exact fun haccepts => ⟨_, hbalance, haccepts⟩
    · rintro ⟨balance, hok, haccepts⟩
      cases hbalance.symm.trans hok
      exact haccepts

end Handlers

/-! ## What is left behind -/

/-- Everything that can be read from the stores is the same. -/
structure SameState (s s' : StateStore B) : Prop where
  accounts : ∀ a, s'.get_account a = s.get_account a
  records : ∀ v, s'.validator_record v = s.validator_record v
  delegations : ∀ d v, s'.delegation d v = s.delegation d v
  root : s'.state_root = s.state_root

theorem sameState_refl (s : StateStore B) : SameState s s :=
  ⟨fun _ => rfl, fun _ => rfl, fun _ _ => rfl, rfl⟩

theorem SameState.nonce {s s' : StateStore B} (h : SameState s s') (a : Address) :
    s'.nonce a = s.nonce a := by
  unfold StateStore.nonce
  rw [h.accounts]

variable [LawfulStore B]

/-- A transaction that errors has no effect if and only if it is not charged or its handler
accepts it. -/
theorem failed_execution_has_no_effect_iff (s : StateStore B) (tx : Transaction) :
    (∀ e, (BlockExecutor.execute s tx).1 = .error e →
        SameState s (BlockExecutor.execute s tx).2) ↔
      (s.Charges tx → s.Accepts tx) := by
  constructor
  · intro hsame hcharges
    rw [← execute_ok_iff hcharges]
    rcases hresult : (BlockExecutor.execute s tx).1 with e | v
    · -- The nonce of the sender has moved.
      have hnonce := (hsame e hresult).nonce tx.sender
      rw [nonce_execute_of_charges hcharges, if_pos rfl, hcharges.2.1] at hnonce
      have hsucc := congrArg UInt64.toBitVec (Except.ok.inj hnonce)
      simp at hsucc
    · exact ⟨v, rfl⟩
  · intro haccepts e herror
    by_cases hcharges : s.Charges tx
    · obtain ⟨v, hok⟩ := (execute_ok_iff hcharges).mpr (haccepts hcharges)
      cases hok.symm.trans herror
    · rw [execute_of_not_charges hcharges]
      exact sameState_refl s

end Pemrix

namespace Pemrix.Concrete

/-- The transfer with another amount than the signed one. -/
def tampered : Transaction := { transfer with amount := 6 }

/-- It errs before the charge. -/
theorem tampered_leaves_no_trace :
    let s : StateStore InMemoryBackend := ⟨⟨paying, ∅⟩⟩
    (BlockExecutor.execute s tampered).1 = .error .InvalidSignature ∧
      SameState s (BlockExecutor.execute s tampered).2 := by
  intro s
  have herror : (BlockExecutor.execute s tampered).1 = .error .InvalidSignature := by
    decide +kernel
  have hunsigned : ¬ s.Charges tampered := by
    intro hcharges
    exact absurd hcharges.1 (by decide +kernel)
  exact ⟨herror, (failed_execution_has_no_effect_iff s tampered).mpr
    (fun hcharges => absurd hcharges hunsigned) _ herror⟩

end Pemrix.Concrete

namespace Pemrix.SmallStake

open Concrete (payer paying)

/-- The payer has less than the stake. The registration errs, and the fee is gone. -/
theorem refused_registration_pays_its_fee :
    let s : StateStore InMemoryBackend := ⟨⟨paying, ∅⟩⟩
    (BlockExecutor.execute s register).1 = .error .InsufficientBalance ∧
      s.get_account payer = .ok (some ⟨100, 0⟩) ∧
      (BlockExecutor.execute s register).2.get_account payer = .ok (some ⟨99, 1⟩) ∧
      ¬ ∀ e, (BlockExecutor.execute s register).1 = .error e →
        SameState s (BlockExecutor.execute s register).2 := by
  intro s
  have herror : (BlockExecutor.execute s register).1 = .error .InsufficientBalance := by
    decide +kernel
  have hbefore : s.get_account payer = .ok (some ⟨100, 0⟩) := by decide +kernel
  have hafter : (BlockExecutor.execute s register).2.get_account payer = .ok (some ⟨99, 1⟩) := by
    decide +kernel
  refine ⟨herror, hbefore, hafter, ?_⟩
  intro hsame
  have haccount := (hsame _ herror).accounts payer
  rw [hbefore, hafter] at haccount
  cases haccount

end Pemrix.SmallStake
