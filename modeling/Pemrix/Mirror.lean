-- The RPC state against the consensus store. Both replay loops take one check on the
-- whole amount where the block executor takes the fee first, and the services write the
-- account of a staker back as it was before the stake moved. A run in which no
-- transaction comes to one of these points is mirrored.
import Pemrix.Rpc
import Pemrix.Replay

open Std

namespace Pemrix

/-- The RPC state holds the balances, nonces and records of the store. -/
structure Mirrors [Crates] (s : StateStore InMemoryBackend) (rpc : RpcState) : Prop where
  balance : ∀ a, s.balance a = .ok (rpc.account a).balance
  nonce : ∀ a, s.nonce a = .ok (rpc.account a).nonce
  validators : ∀ v, s.validator_record v = .ok (rpc.get_validator v)
  delegations : ∀ d v, s.delegation d v = .ok (rpc.get_delegation d v)

/-- A payload that is no staking operation, or one that moves nothing. -/
def MovesNoStake [Crates] (payload : Bytes) : Prop :=
  ∀ op, StakingExecutor.decode payload = .ok op → ∃ validator, op = .Undelegate validator 0

/-- The sender has the amount and the fee, and its nonce has a successor. -/
def Covered [Crates] (s : StateStore InMemoryBackend) (tx : Transaction) : Prop :=
  tx.nonce.toNat < 2 ^ 64 - 1 ∧
    ∃ balance, s.balance tx.sender = .ok balance ∧
      tx.amount.toNat + tx.fee.toNat ≤ balance.toNat

/-- A payload comes with no amount for another account, and moves no stake. -/
def QuietPayload [Crates] (tx : Transaction) : Prop :=
  tx.payload = [] ∨ (tx.amount = 0 ∨ tx.recipient = tx.sender) ∧ MovesNoStake tx.payload

/-- Each transaction of a run meets a condition on the store before it. -/
def RunMeets [Crates] (P : StateStore InMemoryBackend → Transaction → Prop)
    (s : StateStore InMemoryBackend) : List Transaction → Prop
  | [] => True
  | tx :: txs => P s tx ∧ RunMeets P (BlockExecutor.execute s tx).2 txs

/-- The executor ends with an `Ok` result. -/
def Succeeds [Crates] (s : StateStore InMemoryBackend) (tx : Transaction) : Prop :=
  ∃ r, (BlockExecutor.execute s tx).1 = .ok r

/-! ## The same view -/

namespace Ledger

/-- The accounts as they are read, and the records. An account with no entry reads as the
default one, so a map may have more entries. -/
structure SameView (L : Ledger) (rpc : RpcState) : Prop where
  accounts : ∀ a, rpc.account a = L.account a
  validators : rpc.validators = L.validators
  delegations : rpc.delegations = L.delegations

end Ledger

namespace RpcState

theorem account_set_account (s : RpcState) (a b : Address) (x : Account) :
    (s.set_account a x).account b = if a = b then x else s.account b :=
  Ledger.account_setAccount ⟨s.accounts, ∅, ∅⟩ a b x

end RpcState

variable [Crates]

theorem mirrors_of_sameView [LawfulRecords] {s : StateStore InMemoryBackend} {L : Ledger}
    {rpc : RpcState} (hr : Represents s L) (h : L.SameView rpc) : Mirrors s rpc := by
  refine ⟨?_, ?_, ?_, ?_⟩
  · intro a
    rw [hr.balance, h.accounts]
  · intro a
    rw [hr.nonce, h.accounts]
  · intro v
    rw [hr.validator_record]
    unfold RpcState.get_validator
    rw [h.validators]
  · intro d v
    rw [hr.delegation]
    unfold RpcState.get_delegation
    rw [h.delegations]

theorem Represents.charges_iff {s : StateStore InMemoryBackend} {L : Ledger} (hr : Represents s L)
    (tx : Transaction) : s.Charges tx ↔ L.Charges tx := by
  unfold StateStore.Charges Ledger.Charges
  rw [hr.nonce, hr.balance]
  simp

/-! ## One transaction -/

omit [Crates] in
theorem U128.saturating_add_zero (x : U128) : saturating_add x 0 = x := by
  have hx := x.isLt
  rw [saturating_add_of_lt (by simpa using hx)]
  simp

omit [Crates] in
/-- A transfer that is covered and goes through: the sender pays, and then the recipient has
the amount on top. -/
theorem Ledger.account_transfer (L : Ledger) {sender recipient : Address} {amount : Balance}
    {r : ExecutionResult} (hcovers : amount ≤ (L.account sender).balance)
    (hok : (L.transfer sender recipient amount).1 = .ok r) (a : Address) :
    let paid := L.setBalance sender ((L.account sender).balance - amount)
    (L.transfer sender recipient amount).2.1.account a =
      if recipient = a then
        { paid.account a with balance := U128.saturating_add (paid.account a).balance amount }
      else paid.account a := by
  intro paid
  unfold transfer at hok ⊢
  by_cases hzero : amount = 0
  · subst hzero
    have hpaid : ∀ b, paid.account b = L.account b := by
      intro b
      rw [account_setBalance]
      split
      · rename_i hb
        subst hb
        simp
      · rfl
    rw [if_pos rfl, hpaid, U128.saturating_add_zero]
    split
    · rfl
    · rfl
  · rw [if_neg hzero, if_neg (BitVec.not_lt.mpr hcovers)] at hok ⊢
    dsimp only at hok ⊢
    rcases hadd : U128.checked_add (paid.account recipient).balance amount with _ | balance
    · rw [hadd] at hok
      cases hok
    · dsimp only
      rw [account_setBalance]
      by_cases ha : recipient = a
      · subst ha
        rw [if_pos rfl, if_pos rfl]
        unfold U128.checked_add at hadd
        split at hadd
        · rename_i hlt
          rw [U128.saturating_add_of_lt hlt, Option.some.inj hadd]
        · cases hadd
      · rw [if_neg ha, if_neg ha]

namespace RpcState

/-- The replay leaves a transaction that the executor does not charge. -/
theorem replay_of_not_charges {L : Ledger} {rpc : RpcState} (h : L.SameView rpc)
    (staking : RpcState → RpcState) {tx : Transaction}
    (hverify : BlockExecutor.verify_signature tx = .ok ()) (hnot : ¬ L.Charges tx) :
    rpc.replay staking tx = rpc := by
  unfold replay
  rw [h.accounts]
  by_cases hnonce : (L.account tx.sender).nonce ≠ tx.nonce
  · rw [if_pos hnonce]
  · rw [if_neg hnonce]
    -- The fee alone is not covered, so the total is not.
    have hfee : ¬ tx.fee ≤ (L.account tx.sender).balance :=
      fun hfee => hnot ⟨hverify, not_not.mp hnonce, hfee⟩
    have htotal : (L.account tx.sender).balance < U128.saturating_add tx.amount tx.fee := by
      rw [BitVec.lt_def, U128.toNat_saturating_add]
      rw [BitVec.le_def] at hfee
      have hbound := tx.fee.isLt
      omega
    rw [if_pos htotal]

omit [Crates] in
/-- The replay of a transaction whose amount and fee are covered. The account of the sender is
the one that was read before the staking, without the total. -/
theorem account_replay {L : Ledger} {rpc : RpcState} (h : L.SameView rpc)
    {staking : RpcState → RpcState} {tx : Transaction}
    (hkeep : ∀ a, tx.sender ≠ a → (staking rpc).account a = rpc.account a)
    (hnonce : (L.account tx.sender).nonce = tx.nonce) (hmax : tx.nonce.toNat < 2 ^ 64 - 1)
    (hcovers : tx.amount.toNat + tx.fee.toNat ≤ (L.account tx.sender).balance.toNat) (a : Address) :
    let paid := (L.charge tx).setBalance tx.sender
      (((L.charge tx).account tx.sender).balance - tx.amount)
    (rpc.replay staking tx).account a =
      if tx.recipient = a then
        { paid.account a with balance := U128.saturating_add (paid.account a).balance tx.amount }
      else paid.account a := by
  intro paid
  have hbound := (L.account tx.sender).balance.isLt
  have htotal : U128.saturating_add tx.amount tx.fee = tx.amount + tx.fee :=
    U128.saturating_add_of_lt (by omega)
  have hsum : (tx.amount + tx.fee).toNat = tx.amount.toNat + tx.fee.toNat :=
    U128.toNat_add (by omega)
  have hle : tx.amount + tx.fee ≤ (L.account tx.sender).balance := by
    rw [BitVec.le_def, hsum]
    exact hcovers
  have hbalance : U128.saturating_sub (L.account tx.sender).balance (tx.amount + tx.fee) =
      (L.account tx.sender).balance - tx.fee - tx.amount := by
    rw [U128.saturating_sub_of_le hle]
    bv_omega
  have hnext : saturating_add_u64 tx.nonce 1 = tx.nonce + 1 := by
    unfold saturating_add_u64
    rw [UInt64.toNat_one, if_pos (by omega)]
  have hpaid : ∀ b, paid.account b =
      if tx.sender = b then
        ⟨(L.account tx.sender).balance - tx.fee - tx.amount, tx.nonce + 1⟩
      else L.account b := by
    intro b
    have hcharge : ∀ c, (L.charge tx).account c =
        if tx.sender = c then ⟨(L.account tx.sender).balance - tx.fee, tx.nonce + 1⟩
        else L.account c := by
      intro c
      unfold Ledger.charge
      rw [Ledger.account_setAccount, hnonce]
    rw [Ledger.account_setBalance, hcharge, hcharge, if_pos rfl]
    by_cases hb : tx.sender = b
    · rw [if_pos hb, if_pos hb]
    · rw [if_neg hb, if_neg hb, if_neg hb]
  unfold replay
  rw [h.accounts, if_neg (not_not.mpr hnonce), htotal, if_neg (BitVec.not_lt.mpr hle)]
  dsimp only
  rw [hbalance, hnonce, hnext]
  have hfirst : ∀ b, ((staking rpc).set_account tx.sender
      ⟨(L.account tx.sender).balance - tx.fee - tx.amount, tx.nonce + 1⟩).account b =
        paid.account b := by
    intro b
    rw [account_set_account, hpaid]
    by_cases hb : tx.sender = b
    · rw [if_pos hb, if_pos hb]
    · rw [if_neg hb, if_neg hb, hkeep b hb, h.accounts]
  rw [account_set_account, hfirst]
  by_cases ha : tx.recipient = a
  · rw [if_pos ha, if_pos ha, ha]
  · rw [if_neg ha, if_neg ha, hfirst]

omit [Crates] in
/-- With no amount for another account the replay comes to the charge alone. -/
theorem account_replay_charge {L : Ledger} {rpc : RpcState} (h : L.SameView rpc)
    {staking : RpcState → RpcState} {tx : Transaction}
    (hkeep : ∀ a, tx.sender ≠ a → (staking rpc).account a = rpc.account a)
    (hnonce : (L.account tx.sender).nonce = tx.nonce) (hmax : tx.nonce.toNat < 2 ^ 64 - 1)
    (hcovers : tx.amount.toNat + tx.fee.toNat ≤ (L.account tx.sender).balance.toNat)
    (hown : tx.amount = 0 ∨ tx.recipient = tx.sender) (a : Address) :
    (rpc.replay staking tx).account a = (L.charge tx).account a := by
  rw [account_replay h hkeep hnonce hmax hcovers, Ledger.account_setBalance]
  rcases hown with hzero | hself
  · rw [hzero, U128.saturating_add_zero]
    have hpaid : (if tx.sender = a then
        { (L.charge tx).account tx.sender with
          balance := ((L.charge tx).account tx.sender).balance - 0 }
        else (L.charge tx).account a) = (L.charge tx).account a := by
      split
      · rename_i ha
        rw [ha]
        simp
      · rfl
    rw [hpaid]
    split
    · rfl
    · rfl
  · rw [hself]
    by_cases ha : tx.sender = a
    · have hcharged : ((L.charge tx).account tx.sender).balance =
          (L.account tx.sender).balance - tx.fee := by rw [L.account_charge]
      have hfee : tx.fee ≤ (L.account tx.sender).balance := by
        rw [BitVec.le_def]
        omega
      have hcb := U128.toNat_sub hfee
      have hamount : tx.amount ≤ (L.account tx.sender).balance - tx.fee := by
        rw [BitVec.le_def, hcb]
        omega
      have hback : U128.saturating_add ((L.account tx.sender).balance - tx.fee - tx.amount)
          tx.amount = (L.account tx.sender).balance - tx.fee := by
        have hsub := U128.toNat_sub hamount
        have hbound := ((L.account tx.sender).balance - tx.fee).isLt
        rw [BitVec.le_def] at hamount
        rw [U128.saturating_add_of_lt (by omega)]
        bv_omega
      rw [if_pos ha, if_pos ha, hcharged, hback, ← hcharged, ha]
    · rw [if_neg ha, if_neg ha]

omit [Crates] in
/-- The replay writes no record itself. -/
theorem replay_records {L : Ledger} {rpc : RpcState} (h : L.SameView rpc)
    (staking : RpcState → RpcState) {tx : Transaction}
    (hnonce : (L.account tx.sender).nonce = tx.nonce)
    (hcovers : tx.amount.toNat + tx.fee.toNat ≤ (L.account tx.sender).balance.toNat) :
    (rpc.replay staking tx).validators = (staking rpc).validators ∧
      (rpc.replay staking tx).delegations = (staking rpc).delegations := by
  have hnot : ¬ (L.account tx.sender).balance < U128.saturating_add tx.amount tx.fee := by
    rw [BitVec.lt_def, U128.toNat_saturating_add]
    omega
  unfold replay
  rw [h.accounts, if_neg (not_not.mpr hnonce), if_neg hnot]
  exact ⟨rfl, rfl⟩

/-- A native transfer that is covered. -/
theorem replay_native {L : Ledger} {rpc : RpcState} (h : L.SameView rpc)
    {staking : RpcState → RpcState} (hstaking : staking rpc = rpc) {tx : Transaction}
    (hcharges : L.Charges tx) (hmax : tx.nonce.toNat < 2 ^ 64 - 1)
    (hcovers : tx.amount.toNat + tx.fee.toNat ≤ (L.account tx.sender).balance.toNat)
    (hnil : tx.payload = []) {r : ExecutionResult} (hok : ((L.charge tx).dispatch tx).1 = .ok r) :
    ((L.charge tx).dispatch tx).2.1.SameView (rpc.replay staking tx) := by
  have hdispatch : (L.charge tx).dispatch tx =
      (L.charge tx).transfer tx.sender tx.recipient tx.amount := by
    unfold Ledger.dispatch
    rw [hnil]
  rw [hdispatch] at hok ⊢
  have hamount : tx.amount ≤ ((L.charge tx).account tx.sender).balance := by
    rw [L.account_charge, BitVec.le_def, U128.toNat_sub hcharges.2.2]
    omega
  obtain ⟨hvalidators, hdelegations⟩ := replay_records h staking hcharges.2.1 hcovers
  have hleaves := (L.charge tx).transfer_leaves_records tx.sender tx.amount tx.recipient
  refine ⟨?_, ?_, ?_⟩
  · intro a
    rw [Ledger.account_transfer _ hamount hok,
      account_replay h (fun _ _ => by rw [hstaking]) hcharges.2.1 hmax hcovers]
  · rw [hvalidators, hstaking, hleaves.validators]
    exact h.validators
  · rw [hdelegations, hstaking, hleaves.delegations]
    exact h.delegations

omit [Crates] in
/-- The replay of staking writes the account of the sender only. -/
theorem account_replay_staking (s : RpcState) (sender : Address) (op : StakingOperation)
    {a : Address}
    (ha : sender ≠ a) : (s.replay_staking sender op).account a = s.account a := by
  have hset : ∀ (t : RpcState) x, (t.set_account sender x).account a = t.account a := by
    intro t x
    rw [account_set_account, if_neg ha]
  cases op with
  | RegisterValidator consensus_pubkey commission_bps self_stake => exact hset _ _
  | Delegate validator amount =>
    unfold replay_staking
    dsimp only
    split
    · exact hset _ _
    · exact hset _ _
  | Undelegate validator amount =>
    unfold replay_staking
    dsimp only
    rw [hset]
    cases s.get_validator validator with
    | none =>
      dsimp only
      split
      · split
        · rfl
        · rfl
      · rfl
    | some record =>
      dsimp only
      split
      · split
        · rfl
        · rfl
      · rfl

omit [Crates] in
/-- An undelegation of nothing, of a delegation and a record that are there. -/
theorem replay_undelegate_zero {s : RpcState} {L : Ledger}
    (hvalidators : s.validators = L.validators)
    (hdelegations : s.delegations = L.delegations) {sender validator : Address}
    {delegation : Delegation} {record : ValidatorRecord}
    (hd : L.delegations[(sender, validator)]? = some delegation)
    (hr : L.validators[validator]? = some record) :
    let L' := (L.setValidator validator
      { record with delegated_stake := U128.saturating_sub record.delegated_stake 0 }).setOrDelete
        sender validator { delegation with amount := delegation.amount - 0 }
    (s.replay_staking sender (.Undelegate validator 0)).validators = L'.validators ∧
      (s.replay_staking sender (.Undelegate validator 0)).delegations = L'.delegations := by
  intro L'
  have hleft : U128.saturating_sub delegation.amount 0 = delegation.amount - 0 :=
    U128.saturating_sub_of_le (BitVec.le_def.mpr (Nat.zero_le _))
  have hgetd : ∀ r, (s.set_validator validator r).get_delegation sender validator =
      some delegation := by
    intro r
    rw [← hdelegations] at hd
    exact hd
  have hgetr : s.get_validator validator = some record := by
    rw [← hvalidators] at hr
    exact hr
  unfold replay_staking
  dsimp only
  rw [hgetr]
  dsimp only
  rw [hgetd]
  dsimp only
  rw [hleft]
  unfold L' Ledger.setOrDelete Ledger.setValidator
  dsimp only
  rw [← hvalidators]
  split
  · unfold Ledger.deleteDelegation
    rw [← hdelegations]
    exact ⟨rfl, rfl⟩
  · unfold Ledger.setDelegation
    rw [← hdelegations]
    exact ⟨rfl, rfl⟩

/-- A payload that moves no stake, with no amount for another account. -/
theorem replay_quiet {L : Ledger} {rpc : RpcState} (h : L.SameView rpc) {tx : Transaction}
    (hcharges : L.Charges tx) (hmax : tx.nonce.toNat < 2 ^ 64 - 1)
    (hcovers : tx.amount.toNat + tx.fee.toNat ≤ (L.account tx.sender).balance.toNat)
    (hsome : tx.payload ≠ []) (hown : tx.amount = 0 ∨ tx.recipient = tx.sender)
    (hquiet : MovesNoStake tx.payload) {r : ExecutionResult}
    (hok : ((L.charge tx).dispatch tx).1 = .ok r) :
    ((L.charge tx).dispatch tx).2.1.SameView (rpc.replay (replay_payload tx) tx) := by
  obtain ⟨hvalidators, hdelegations⟩ :=
    replay_records h (replay_payload tx) hcharges.2.1 hcovers
  rcases hdecode : StakingExecutor.decode tx.payload with e | op
  · -- No operation: the executor takes the fee and refuses the payload.
    have hstaking : replay_payload tx rpc = rpc := by
      unfold replay_payload
      rw [hdecode]
    have hdispatch : ((L.charge tx).dispatch tx).2.1 = L.charge tx := by
      unfold Ledger.dispatch Ledger.stakePayload
      rw [hdecode]
      rcases hpayload : tx.payload with _ | ⟨first, rest⟩
      · exact absurd hpayload hsome
      · dsimp only
        split
        · rfl
        · rfl
    rw [hdispatch]
    refine ⟨?_, ?_, ?_⟩
    · intro a
      exact account_replay_charge h (fun _ _ => by rw [hstaking]) hcharges.2.1 hmax hcovers hown a
    · rw [hvalidators, hstaking, h.validators]
      rfl
    · rw [hdelegations, hstaking, h.delegations]
      rfl
  · -- An undelegation of 0: the delegation and the record are written as they are.
    obtain ⟨validator, rfl⟩ := hquiet op hdecode
    have hstaking : replay_payload tx rpc =
        rpc.replay_staking tx.sender (.Undelegate validator 0) := by
      unfold replay_payload
      rw [hdecode]
    have hdispatch : (L.charge tx).dispatch tx =
        (L.charge tx).undelegate tx.sender validator 0 := by
      rcases (L.charge tx).dispatch_cases tx with ⟨op', hop', he⟩ | ⟨⟨e, he⟩, -⟩
      · rw [hdecode] at hop'
        rw [he, ← Except.ok.inj hop']
        rfl
      · rw [hdecode] at he
        cases he
    rw [hdispatch] at hok ⊢
    rcases (L.charge tx).undelegate_cases tx.sender validator 0 with
      ⟨e, he⟩ | ⟨delegation, record, hd, hr, -, he⟩
    · rw [he] at hok
      cases hok
    obtain ⟨hsv, hsd⟩ := replay_undelegate_zero (L := L.charge tx) h.validators h.delegations hd hr
    rw [he]
    dsimp only
    refine ⟨?_, ?_, ?_⟩
    · intro a
      have hkeep : ∀ b, tx.sender ≠ b → (replay_payload tx rpc).account b = rpc.account b := by
        intro b hb
        rw [hstaking]
        exact account_replay_staking rpc tx.sender _ hb
      rw [account_replay_charge h hkeep hcharges.2.1 hmax hcovers hown a, Ledger.account_setBalance,
        Ledger.setOrDelete_account, Ledger.setOrDelete_account]
      split
      · rename_i ha
        rw [← ha]
        show _ = ({ (L.charge tx).account tx.sender with
          balance := ((L.charge tx).account tx.sender).balance + 0 } : Account)
        simp
      · rfl
    · rw [hvalidators, hstaking, hsv]
      rfl
    · rw [hdelegations, hstaking, hsd]
      rfl

end RpcState

/-! ## Whole runs -/

theorem Ledger.verify_of_ok {L : Ledger} {tx : Transaction} {r : ExecutionResult}
    (hok : (L.execute tx).1 = .ok r) : BlockExecutor.verify_signature tx = .ok () := by
  unfold execute at hok
  rcases hverify : BlockExecutor.verify_signature tx with e | u
  · rw [hverify] at hok
    cases hok
  · rfl

/-- One transaction, if the replay follows those that are charged. -/
theorem execute_sameView {L : Ledger} {rpc : RpcState} (h : L.SameView rpc)
    {staking : RpcState → RpcState} {tx : Transaction} {r : ExecutionResult}
    (hok : (L.execute tx).1 = .ok r)
    (hcharged : L.Charges tx → ((L.charge tx).dispatch tx).1 = .ok r →
      ((L.charge tx).dispatch tx).2.1.SameView (rpc.replay staking tx)) :
    (L.execute tx).2.1.SameView (rpc.replay staking tx) := by
  have hverify := Ledger.verify_of_ok hok
  rcases L.execute_cases tx with ⟨hnot, _, -, he⟩ | ⟨hcharges, he⟩
  · rw [he, RpcState.replay_of_not_charges h staking hverify hnot]
    exact h
  · rw [he] at hok ⊢
    exact hcharged hcharges hok

variable [LawfulRecords]

omit [LawfulRecords] in
theorem Covered.of_represents {s : StateStore InMemoryBackend} {L : Ledger} (hr : Represents s L)
    {tx : Transaction} (h : Covered s tx) :
    tx.nonce.toNat < 2 ^ 64 - 1 ∧
      tx.amount.toNat + tx.fee.toNat ≤ (L.account tx.sender).balance.toNat := by
  obtain ⟨hmax, balance, hbalance, hcovers⟩ := h
  rw [hr.balance] at hbalance
  rw [Except.ok.inj hbalance]
  exact ⟨hmax, hcovers⟩

/-- What one transaction of a run preserves, for the services. -/
theorem services_step {s : StateStore InMemoryBackend} {L : Ledger} {rpc : RpcState}
    (hr : Represents s L) (h : L.SameView rpc) {tx : Transaction} (hok : Succeeds s tx)
    (hf : s.Charges tx → Covered s tx ∧ QuietPayload tx) :
    (L.execute tx).2.1.SameView (Services.ingest_transaction rpc tx) := by
  obtain ⟨r, hok⟩ := hok
  rw [(execute_of_represents hr tx).1] at hok
  refine execute_sameView h hok ?_
  intro hcharges hdispatch
  obtain ⟨hcovered, hquiet⟩ := hf ((hr.charges_iff tx).mpr hcharges)
  obtain ⟨hmax, hcovers⟩ := hcovered.of_represents hr
  by_cases hnil : tx.payload = []
  · have hstaking : RpcState.replay_payload tx rpc = rpc := by
      unfold RpcState.replay_payload StakingExecutor.decode
      rw [hnil]
      rfl
    exact RpcState.replay_native h hstaking hcharges hmax hcovers hnil hdispatch
  · obtain ⟨hown, hmoves⟩ := hquiet.resolve_left hnil
    exact RpcState.replay_quiet h hcharges hmax hcovers hnil hown hmoves hdispatch

/-- What one transfer of a run preserves, for the testnet. -/
theorem testnet_step {s : StateStore InMemoryBackend} {L : Ledger} {rpc : RpcState}
    (hr : Represents s L) (h : L.SameView rpc) {tx : Transaction} (hok : Succeeds s tx)
    (hnil : tx.payload = []) (hf : s.Charges tx → Covered s tx) :
    (L.execute tx).2.1.SameView (Testnet.ingest_transaction rpc tx) := by
  obtain ⟨r, hok⟩ := hok
  rw [(execute_of_represents hr tx).1] at hok
  refine execute_sameView h hok ?_
  intro hcharges hdispatch
  obtain ⟨hmax, hcovers⟩ := (hf ((hr.charges_iff tx).mpr hcharges)).of_represents hr
  exact RpcState.replay_native h rfl hcharges hmax hcovers hnil hdispatch

/-- What a whole run preserves. -/
theorem run_sameView (ingest : RpcState → Transaction → RpcState)
    {P : StateStore InMemoryBackend → Transaction → Prop}
    (hstep : ∀ {s L rpc tx}, Represents s L → L.SameView rpc → P s tx →
      (L.execute tx).2.1.SameView (ingest rpc tx))
    (txs : List Transaction) {s : StateStore InMemoryBackend} {L : Ledger} {rpc : RpcState}
    (hr : Represents s L) (h : L.SameView rpc) (hrun : RunMeets P s txs) :
    ∃ L', Represents (runTransactions s txs) L' ∧ L'.SameView (txs.foldl ingest rpc) := by
  induction txs generalizing s L rpc with
  | nil => exact ⟨L, hr, h⟩
  | cons tx txs ih =>
    obtain ⟨hfirst, hrest⟩ := hrun
    exact ih (execute_of_represents hr tx).2.1 (hstep hr h hfirst) hrest

omit [LawfulRecords] in
theorem account_store (rpc : RpcState) (block : Block) (a : Address) :
    (rpc.store block).account a = rpc.account a := by
  unfold RpcState.account RpcState.get_account
  rw [(rpc.store_frame block).1]

omit [LawfulRecords] in
theorem sameView_store {L : Ledger} {rpc : RpcState} (h : L.SameView rpc) (block : Block) :
    L.SameView (rpc.store block) := by
  obtain ⟨-, hvalidators, hdelegations, -⟩ := rpc.store_frame block
  exact ⟨fun a => (account_store rpc block a).trans (h.accounts a), hvalidators.trans h.validators,
    hdelegations.trans h.delegations⟩

omit [LawfulRecords] in
theorem runMeets_append (P : StateStore InMemoryBackend → Transaction → Prop)
    (s : StateStore InMemoryBackend) (txs more : List Transaction) :
    RunMeets P s (txs ++ more) ↔ RunMeets P s txs ∧ RunMeets P (runTransactions s txs) more := by
  induction txs generalizing s with
  | nil => simp [RunMeets, runTransactions]
  | cons tx txs ih =>
    simp only [List.cons_append, RunMeets, runTransactions, ih, and_assoc]

/-- The transactions of some blocks, in order. -/
def transactions_of (blocks : List Block) : List Transaction :=
  blocks.flatMap fun block => block.body.transactions

theorem run_blocks_sameView (ingest : RpcState → Transaction → RpcState)
    {P : StateStore InMemoryBackend → Transaction → Prop}
    (hstep : ∀ {s L rpc tx}, Represents s L → L.SameView rpc → P s tx →
      (L.execute tx).2.1.SameView (ingest rpc tx))
    (blocks : List Block) {s : StateStore InMemoryBackend} {L : Ledger} {rpc : RpcState}
    (hr : Represents s L) (h : L.SameView rpc) (hrun : RunMeets P s (transactions_of blocks)) :
    ∃ L', Represents (runTransactions s (transactions_of blocks)) L' ∧
      L'.SameView (blocks.foldl
        (fun rpc block => (block.body.transactions.foldl ingest rpc).store block) rpc) := by
  induction blocks generalizing s L rpc with
  | nil => exact ⟨L, hr, h⟩
  | cons block blocks ih =>
    have hsplit : transactions_of (block :: blocks) =
        block.body.transactions ++ transactions_of blocks := rfl
    rw [hsplit, runMeets_append] at hrun
    obtain ⟨L', hr', h'⟩ := run_sameView ingest hstep block.body.transactions hr h hrun.1
    rw [hsplit, runTransactions_append]
    exact ih hr' (sameView_store h' block) hrun.2

omit [Crates] [LawfulRecords] in
theorem sameView_genesis (allocations : ExtTreeMap Address Account) :
    Ledger.SameView ⟨allocations, ∅, ∅⟩ (.from_genesis allocations) :=
  ⟨fun _ => rfl, rfl, rfl⟩

/-- The services mirror the consensus store after every run of blocks from the same
allocations in which each transaction ends with an `Ok` result, and each one that is charged
is covered and has a quiet payload. -/
theorem services_mirror_in_every_followed_run (allocations : ExtTreeMap Address Account)
    (blocks : List Block)
    (hrun : RunMeets (fun s tx => Succeeds s tx ∧ (s.Charges tx → Covered s tx ∧ QuietPayload tx))
      ⟨⟨allocations, ∅⟩⟩ (transactions_of blocks)) :
    Mirrors (runTransactions ⟨⟨allocations, ∅⟩⟩ (transactions_of blocks))
      (blocks.foldl Services.ingest_block (.from_genesis allocations)) := by
  obtain ⟨L, hr, h⟩ := run_blocks_sameView Services.ingest_transaction
    (fun hr h hp => services_step hr h hp.1 hp.2) blocks (represents_of_accounts allocations)
    (sameView_genesis allocations) hrun
  exact mirrors_of_sameView hr h

end Pemrix

namespace Pemrix.Concrete

/-- A block with the signed transfer. -/
def transfer_block : Block := ⟨⟨1, 0, default, default, default, payer.bytes⟩, ⟨[transfer]⟩⟩

theorem transfer_covered : Covered ⟨⟨paying, ∅⟩⟩ transfer :=
  ⟨by decide, 100, by decide +kernel, by decide⟩

theorem transfer_succeeds : Succeeds ⟨⟨paying, ∅⟩⟩ transfer :=
  ⟨⟨true, 21000, "ok"⟩, by decide +kernel⟩

/-- The payer can pay the transfer and its fee. -/
theorem services_mirror_a_transfer :
    RunMeets (fun s tx => Succeeds s tx ∧ (s.Charges tx → Covered s tx ∧ QuietPayload tx))
        ⟨⟨paying, ∅⟩⟩ (transactions_of [transfer_block]) ∧
      Mirrors (runTransactions ⟨⟨paying, ∅⟩⟩ (transactions_of [transfer_block]))
        ([transfer_block].foldl Services.ingest_block (.from_genesis paying)) := by
  have hrun : RunMeets
      (fun s tx => Succeeds s tx ∧ (s.Charges tx → Covered s tx ∧ QuietPayload tx))
      ⟨⟨paying, ∅⟩⟩ (transactions_of [transfer_block]) :=
    ⟨⟨transfer_succeeds, fun _ => ⟨transfer_covered, Or.inl rfl⟩⟩, trivial⟩
  exact ⟨hrun, services_mirror_in_every_followed_run paying [transfer_block] hrun⟩

end Pemrix.Concrete

namespace Pemrix.Registration

open Concrete (payer)

/-- The registration moves the stake out of the account in the consensus store. The services
write the account back as it was before. -/
theorem services_keep_the_stake :
    let s := runTransactions (⟨⟨staking, ∅⟩⟩ : StateStore InMemoryBackend) [register]
    let block : Block := ⟨⟨1, 0, default, default, default, payer.bytes⟩, ⟨[register]⟩⟩
    let rpc := Services.ingest_block (.from_genesis staking) block
    RunMeets Succeeds ⟨⟨staking, ∅⟩⟩ (transactions_of [block]) ∧
      s.balance payer = .ok 100 ∧ (rpc.account payer).balance = 100000000000100 ∧
      ¬ Mirrors s rpc := by
  intro s block rpc
  have hbalance : s.balance payer = .ok 100 := by decide +kernel
  have hrpc : (rpc.account payer).balance = 100000000000100 := by decide +kernel
  refine ⟨⟨⟨⟨true, 50000, "validator registered"⟩, by decide +kernel⟩, trivial⟩, hbalance, hrpc, ?_⟩
  intro hmirrors
  have hsame := hmirrors.balance payer
  rw [hbalance, hrpc] at hsame
  cases hsame

end Pemrix.Registration
