-- The conservation law: balances and stakes together only shrink by the fees
-- that are paid, and no `u128` operation on the way overflows or saturates.
import Pemrix.StakeRuns

open Std

namespace Pemrix

namespace Ledger

/-! ## The supply of a ledger -/

/-- The sum of all account balances. -/
def balances (L : Ledger) : Nat := L.accounts.sumBy fun _ x => x.balance.toNat

/-- The stake in all validator records. -/
def stakes (L : Ledger) : Nat :=
  L.validators.sumBy fun _ r => r.self_stake.toNat + r.delegated_stake.toNat

def supply (L : Ledger) : Nat := L.balances + L.stakes

/-- The records agree, and the supply is a `u128`. -/
structure Sound (L : Ledger) : Prop where
  consistent : L.Consistent
  fits : L.supply < 2 ^ 128

variable {L : Ledger} (sender validator : Address) (amount : Balance)

theorem at0_accounts (a : Address) :
    L.accounts.at0 (fun _ x => x.balance.toNat) a = (L.account a).balance.toNat := by
  unfold ExtTreeMap.at0 account
  cases L.accounts[a]? with
  | none => rfl
  | some x => rfl

theorem balances_setAccount (a : Address) (x : Account) :
    (L.setAccount a x).balances + (L.account a).balance.toNat = L.balances + x.balance.toNat := by
  have h := ExtTreeMap.sumBy_insert (fun _ x => x.balance.toNat) L.accounts a x
  rwa [at0_accounts] at h

theorem balances_setBalance (a : Address) (b : Balance) :
    (L.setBalance a b).balances + (L.account a).balance.toNat = L.balances + b.toNat :=
  balances_setAccount a _

theorem balance_le_balances (a : Address) : (L.account a).balance.toNat ≤ L.balances := by
  have h := ExtTreeMap.at0_le_sumBy (fun _ x => x.balance.toNat) L.accounts a
  rwa [at0_accounts] at h

@[simp] theorem stakes_setAccount (a : Address) (x : Account) :
    (L.setAccount a x).stakes = L.stakes := rfl

@[simp] theorem stakes_setBalance (a : Address) (b : Balance) :
    (L.setBalance a b).stakes = L.stakes := rfl

@[simp] theorem balances_setValidator (v : Address) (r : ValidatorRecord) :
    (L.setValidator v r).balances = L.balances := rfl

@[simp] theorem supply_setDelegation (d v : Address) (x : Delegation) :
    (L.setDelegation d v x).supply = L.supply := rfl

theorem stakes_setValidator_of_none {v : Address} (h : L.validators[v]? = none)
    (r : ValidatorRecord) :
    (L.setValidator v r).stakes = L.stakes + (r.self_stake.toNat + r.delegated_stake.toNat) := by
  have hs := ExtTreeMap.sumBy_insert
    (fun _ r => r.self_stake.toNat + r.delegated_stake.toNat) L.validators v r
  rwa [ExtTreeMap.at0_of_none h, Nat.add_zero] at hs

/-- A record takes the place of an old one. -/
theorem stakes_setValidator {v : Address} {old : ValidatorRecord}
    (h : L.validators[v]? = some old) (r : ValidatorRecord) :
    (L.setValidator v r).stakes + (old.self_stake.toNat + old.delegated_stake.toNat) =
      L.stakes + (r.self_stake.toNat + r.delegated_stake.toNat) := by
  have hs := ExtTreeMap.sumBy_insert
    (fun _ r => r.self_stake.toNat + r.delegated_stake.toNat) L.validators v r
  rwa [ExtTreeMap.at0_of_some h] at hs

theorem stakes_setValidator_of_some {v : Address} {old : ValidatorRecord}
    (h : L.validators[v]? = some old) (t : Balance) :
    (L.setValidator v { old with delegated_stake := t }).stakes + old.delegated_stake.toNat =
      L.stakes + t.toNat := by
  have hs := stakes_setValidator h { old with delegated_stake := t }
  dsimp only at hs
  omega

theorem stake_le_stakes {v : Address} {r : ValidatorRecord} (h : L.validators[v]? = some r) :
    r.self_stake.toNat + r.delegated_stake.toNat ≤ L.stakes := by
  have hs := ExtTreeMap.at0_le_sumBy
    (fun _ r => r.self_stake.toNat + r.delegated_stake.toNat) L.validators v
  rwa [ExtTreeMap.at0_of_some h] at hs

/-! ## What an outcome conserves -/

/-- The outcome keeps the supply and all nonces, and its operations are exact. -/
structure Conserves (L : Ledger) (out : Outcome ExecutionResult) : Prop where
  supply : out.2.1.supply = L.supply
  nonce : ∀ a, (out.2.1.account a).nonce = (L.account a).nonce
  exact : ∀ op ∈ out.2.2, op.Exact

theorem conserves_of_same {r : Except VmError ExecutionResult} : L.Conserves (r, L, []) :=
  ⟨rfl, fun _ => rfl, by simp⟩

theorem nonce_setBalance (a b : Address) (x : Balance) :
    ((L.setBalance a x).account b).nonce = (L.account b).nonce := by
  rw [account_setBalance]
  split
  · rename_i h
    rw [h]
  · rfl

theorem register_conserves (consensus_pubkey : Bytes) (commission_bps : UInt16)
    (self_stake : Balance) :
    L.Conserves (L.register sender consensus_pubkey commission_bps self_stake) := by
  rcases L.register_cases sender consensus_pubkey commission_bps self_stake with
    ⟨e, he⟩ | ⟨hnone, hb, he⟩
  · rw [he]
    exact conserves_of_same
  · rw [he]
    refine ⟨?_, fun a => nonce_setBalance _ a _, ?_⟩
    · have hbal := balances_setBalance (L := L) sender ((L.account sender).balance - self_stake)
      have hst := stakes_setValidator_of_none
        (L := L.setBalance sender ((L.account sender).balance - self_stake)) hnone
        (.new sender consensus_pubkey self_stake commission_bps)
      have hle := BitVec.le_def.mp hb
      rw [U128.toNat_sub hb] at hbal
      have hnew : (ValidatorRecord.new sender consensus_pubkey self_stake
        commission_bps).delegated_stake.toNat = 0 := rfl
      have hself : (ValidatorRecord.new sender consensus_pubkey self_stake
        commission_bps).self_stake = self_stake := rfl
      rw [hnew, hself, stakes_setBalance] at hst
      unfold supply
      rw [balances_setValidator, hst]
      omega
    · intro op hop
      rw [List.mem_singleton] at hop
      subst hop
      exact hb

theorem delegateFits_of_supply (h : L.supply < 2 ^ 128) :
    L.DelegateFits sender validator amount := by
  intro r hr _ hb
  have hst := stake_le_stakes hr
  have hbal := balance_le_balances (L := L) sender
  have hle := BitVec.le_def.mp hb
  unfold supply at h
  omega

theorem delegate_supply (h : L.supply < 2 ^ 128) :
    (L.delegate sender validator amount).2.1.supply = L.supply := by
  rcases L.delegate_cases sender validator amount with
    ⟨e, he⟩ | ⟨record, hrecord, hactive, -, hb, he⟩
  · rw [he]
  · rw [he]
    have hfit := delegateFits_of_supply sender validator amount h record hrecord hactive hb
    have hbal := balances_setBalance (L := L) sender ((L.account sender).balance - amount)
    have hst := stakes_setValidator_of_some
      (L := L.setBalance sender ((L.account sender).balance - amount)) hrecord
      (record.delegated_stake + amount)
    have hle := BitVec.le_def.mp hb
    rw [U128.toNat_sub hb] at hbal
    rw [U128.toNat_add hfit, stakes_setBalance] at hst
    rw [supply_setDelegation]
    unfold supply
    rw [balances_setValidator]
    omega

theorem delegate_conserves (h : L.Sound) : L.Conserves (L.delegate sender validator amount) := by
  refine ⟨delegate_supply sender validator amount h.fits, ?_, ?_⟩
  · intro a
    rcases L.delegate_cases sender validator amount with ⟨e, he⟩ | ⟨record, -, -, -, -, he⟩
    · rw [he]
    · rw [he]
      exact nonce_setBalance _ a _
  · rcases L.delegate_cases sender validator amount with
      ⟨e, he⟩ | ⟨record, hrecord, hactive, -, hb, he⟩
    · rw [he]
      simp
    · rw [he]
      have hfit := delegateFits_of_supply sender validator amount h.fits record hrecord hactive hb
      have hdel := h.consistent.amount_le (d := sender) hrecord
      intro op hop
      simp only [List.mem_cons, List.not_mem_nil, or_false] at hop
      rcases hop with rfl | rfl | rfl
      · exact hb
      · exact hfit
      · show (L.delegation sender validator).amount.toNat + amount.toNat < 2 ^ 128
        omega

@[simp] theorem setOrDelete_accounts (d v : Address) (x : Delegation) :
    (L.setOrDelete d v x).accounts = L.accounts := by
  unfold setOrDelete
  split
  · rfl
  · rfl

@[simp] theorem setOrDelete_account (d v : Address) (x : Delegation) (a : Address) :
    (L.setOrDelete d v x).account a = L.account a := by
  rw [account, setOrDelete_accounts, account]

/-- The supply after an undelegation that goes through, with the sums as the code takes
them. -/
theorem undelegate_sums {x : Delegation} {record : ValidatorRecord}
    (hx : L.delegations[(sender, validator)]? = some x)
    (hrecord : L.validators[validator]? = some record) (hb : amount ≤ x.amount) :
    (L.undelegate sender validator amount).2.1.supply +
      ((L.account sender).balance.toNat + record.delegated_stake.toNat) =
      L.supply + (((L.account sender).balance + amount).toNat +
        (U128.saturating_sub record.delegated_stake amount).toNat) := by
  rcases L.undelegate_cases sender validator amount with
    ⟨e, he⟩ | ⟨x', record', hx', hrecord', -, he⟩
  · have hok := (undelegate_of_some sender validator amount hx hrecord hb).1
    rw [he] at hok
    cases hok
  · cases hx.symm.trans hx'
    cases hrecord.symm.trans hrecord'
    rw [he]
    -- The middle of the outcome: the record and the delegation have changed, the accounts not.
    generalize hM : (L.setValidator validator { record with
      delegated_stake := U128.saturating_sub record.delegated_stake amount }).setOrDelete sender
      validator { x with amount := x.amount - amount } = M
    have haccount : M.account sender = L.account sender := by
      rw [← hM, setOrDelete_account]
      rfl
    have hbalances : M.balances = L.balances := by
      rw [← hM, balances, setOrDelete_accounts]
      rfl
    have hstakes : M.stakes + record.delegated_stake.toNat =
        L.stakes + (U128.saturating_sub record.delegated_stake amount).toNat := by
      rw [← hM, stakes, setOrDelete_validators]
      exact stakes_setValidator_of_some hrecord _
    have hbal := balances_setBalance (L := M) sender ((L.account sender).balance + amount)
    rw [haccount, hbalances] at hbal
    dsimp only
    unfold supply
    rw [stakes_setBalance]
    omega

/-- An undelegation keeps the supply exactly when the delegated stake covers it. -/
theorem undelegate_supply_iff {x : Delegation} {record : ValidatorRecord}
    (h : L.supply < 2 ^ 128) (hx : L.delegations[(sender, validator)]? = some x)
    (hrecord : L.validators[validator]? = some record) (hb : amount ≤ x.amount) :
    (L.undelegate sender validator amount).2.1.supply = L.supply ↔
      amount ≤ record.delegated_stake := by
  have hsums := undelegate_sums sender validator amount hx hrecord hb
  have hstakes := stake_le_stakes hrecord
  have hbalance := balance_le_balances (L := L) sender
  unfold supply at h
  constructor
  · intro hsame
    by_contra hmore
    -- Even a balance that wraps does not make up for what the stake lacks.
    have hmore := BitVec.not_le.mp hmore
    have hlt := BitVec.lt_def.mp hmore
    have hzero : (U128.saturating_sub record.delegated_stake amount).toNat = 0 := by
      rw [U128.saturating_sub, if_pos hmore]
      rfl
    have hamount := amount.isLt
    rw [hsame, hzero, BitVec.toNat_add] at hsums
    omega
  · intro hle
    have hle' := BitVec.le_def.mp hle
    rw [U128.saturating_sub_of_le hle, U128.toNat_sub hle, U128.toNat_add (by omega)] at hsums
    omega

theorem undelegate_conserves (h : L.Sound) :
    L.Conserves (L.undelegate sender validator amount) := by
  rcases L.undelegate_cases sender validator amount with
    ⟨e, he⟩ | ⟨x, record, hx, hrecord, hb, he⟩
  · rw [he]
    exact conserves_of_same
  · have hdel := h.consistent.amount_le (d := sender) hrecord
    rw [delegation_of_some hx] at hdel
    have hstake : amount ≤ record.delegated_stake :=
      BitVec.le_def.mpr (Nat.le_trans (BitVec.le_def.mp hb) hdel)
    have hle := BitVec.le_def.mp hstake
    have hstakes := stake_le_stakes hrecord
    have hbalance := balance_le_balances (L := L) sender
    have hfits := h.fits
    refine ⟨(undelegate_supply_iff sender validator amount hfits hx hrecord hb).mpr hstake, ?_, ?_⟩
    · intro a
      rw [he, nonce_setBalance, setOrDelete_account]
      rfl
    · rw [he]
      intro op hop
      simp only [List.mem_cons, List.not_mem_nil, or_false] at hop
      unfold supply at hfits
      rcases hop with rfl | rfl | rfl
      · exact hstake
      · exact hb
      · show (L.account sender).balance.toNat + amount.toNat < 2 ^ 128
        omega

theorem stake_conserves (h : L.Sound) (op : StakingOperation) :
    L.Conserves (L.stake sender op) := by
  cases op with
  | RegisterValidator consensus_pubkey commission_bps self_stake =>
    exact register_conserves sender _ _ _
  | Delegate v amount => exact delegate_conserves sender v amount h
  | Undelegate v amount => exact undelegate_conserves sender v amount h

/-- What a sender has fits on top of any balance of the others. -/
theorem Sound.recipient_fits (h : L.Sound) (recipient : Address)
    (hb : amount ≤ (L.account sender).balance) :
    ((L.setBalance sender ((L.account sender).balance - amount)).account
      recipient).balance.toNat + amount.toNat < 2 ^ 128 := by
  have hle := BitVec.le_def.mp hb
  have hbal := balances_setBalance (L := L) sender ((L.account sender).balance - amount)
  rw [U128.toNat_sub hb] at hbal
  have hfits := h.fits
  unfold supply at hfits
  have hrecipient := balance_le_balances
    (L := L.setBalance sender ((L.account sender).balance - amount)) recipient
  omega

theorem transfer_conserves (h : L.Sound) (recipient : Address) :
    L.Conserves (L.transfer sender recipient amount) := by
  unfold transfer
  split
  · exact conserves_of_same
  · split
    · exact conserves_of_same
    · rename_i hb
      have hb := BitVec.not_lt.mp hb
      have hle := BitVec.le_def.mp hb
      have hadd := h.recipient_fits sender amount recipient hb
      have hbal := balances_setBalance (L := L) sender ((L.account sender).balance - amount)
      rw [U128.toNat_sub hb] at hbal
      generalize hM : L.setBalance sender ((L.account sender).balance - amount) = M at hbal hadd
      simp only [U128.checked_add, if_pos hadd]
      refine ⟨?_, ?_, ?_⟩
      · have hbal2 :=
          balances_setBalance (L := M) recipient ((M.account recipient).balance + amount)
        rw [U128.toNat_add hadd] at hbal2
        have hstakes : M.stakes = L.stakes := by rw [← hM, stakes_setBalance]
        dsimp only
        unfold supply
        rw [stakes_setBalance]
        omega
      · intro a
        rw [nonce_setBalance, ← hM, nonce_setBalance]
      · intro op hop
        simp only [List.mem_cons, List.not_mem_nil, or_false] at hop
        rcases hop with rfl | rfl
        · exact hb
        · exact hadd

variable [Crates]

theorem dispatch_conserves (h : L.Sound) (tx : Transaction) : L.Conserves (L.dispatch tx) := by
  unfold dispatch
  split
  · exact transfer_conserves _ _ h _
  · split
    · unfold stakePayload
      split
      · exact conserves_of_same
      · exact stake_conserves _ h _
    · exact conserves_of_same

omit [Crates] in
theorem charge_supply (tx : Transaction) (hfee : tx.fee ≤ (L.account tx.sender).balance) :
    (L.charge tx).supply + tx.fee.toNat = L.supply := by
  have hbal := balances_setAccount (L := L) tx.sender
    ⟨(L.account tx.sender).balance - tx.fee, (L.account tx.sender).nonce + 1⟩
  have hle := BitVec.le_def.mp hfee
  simp only [U128.toNat_sub hfee] at hbal
  unfold supply charge
  rw [stakes_setAccount]
  omega

omit [Crates] in
theorem Sound.charge (h : L.Sound) {tx : Transaction}
    (hfee : tx.fee ≤ (L.account tx.sender).balance) : (L.charge tx).Sound := by
  have hcharge := charge_supply tx hfee
  have hfits := h.fits
  exact ⟨h.consistent.of_same_records rfl rfl, by omega⟩

/-- One call of the block executor: the fee leaves the supply exactly when the nonce of the
sender moves, and every operation is exact. -/
theorem execute_conserves (h : L.Sound) (tx : Transaction) :
    (if ((L.execute tx).2.1.account tx.sender).nonce ≠ (L.account tx.sender).nonce
      then (L.execute tx).2.1.supply + tx.fee.toNat = L.supply
      else (L.execute tx).2.1.supply = L.supply) ∧
    (∀ op ∈ (L.execute tx).2.2, op.Exact) ∧ (L.execute tx).2.1.Sound := by
  rcases L.execute_cases tx with ⟨-, r, -, he⟩ | ⟨⟨-, -, hfee⟩, he⟩
  · rw [he]
    simp only [ne_eq, not_true, if_false]
    exact ⟨trivial, by simp, h⟩
  · have hcharge := charge_supply tx hfee
    have hsound := h.charge hfee
    have hcon := dispatch_conserves hsound tx
    have hnonce : ((L.charge tx).account tx.sender).nonce ≠ (L.account tx.sender).nonce := by
      simp [account_charge]
    rw [he]
    simp only [hcon.nonce, hcon.supply]
    rw [if_pos hnonce]
    refine ⟨hcharge, ?_, ?_⟩
    · intro op hop
      rcases List.mem_cons.mp hop with rfl | hop
      · exact hfee
      · exact hcon.exact op hop
    · refine ⟨?_, by rw [hcon.supply]; exact hsound.fits⟩
      rcases (L.charge tx).dispatch_cases tx with ⟨op, -, hd⟩ | ⟨-, hd⟩
      · rw [hd]
        exact stake_consistent _ hsound.consistent op fun v amount _ =>
          delegateFits_of_supply _ v amount hsound.fits
      · exact hsound.consistent.of_same_records hd.validators hd.delegations

end Ledger

/-! ## The store -/

section Store

variable [Crates]

/-- The sum of all account balances and of the stake in all validator records. -/
def StateStore.supply (s : StateStore InMemoryBackend) : Nat :=
  s.backend.accounts.sumBy (fun _ x => x.balance.toNat) +
    match s.validator_records with
    | .ok records => (records.map fun r => r.2.self_stake.toNat + r.2.delegated_stake.toNat).sum
    | .error _ => 0

def runBlock (s : StateStore InMemoryBackend) : List Transaction → StateStore InMemoryBackend
  | [] => s
  | tx :: txs => runBlock (BlockExecutor.execute s tx).2 txs

variable [LawfulRecords] {s : StateStore InMemoryBackend} {L : Ledger}

theorem supply_of_represents (h : Represents s L) : s.supply = L.supply := by
  unfold StateStore.supply
  rw [h.validator_records, h.accounts]
  rfl

/-- What a whole run preserves. -/
theorem runBlock_sound (txs : List Transaction) (h : Represents s L) (hL : L.Sound) :
    ∃ L', Represents (runBlock s txs) L' ∧ L'.Sound := by
  induction txs generalizing s L with
  | nil => exact ⟨L, h, hL⟩
  | cons tx txs ih =>
    exact ih (execute_of_represents h tx).2.1 (Ledger.execute_conserves hL tx).2.2

/-- In every run from accounts whose balances are a `u128` in sum, a transaction lowers the
supply by its fee if it moves the nonce of its sender and leaves it otherwise, and no `u128`
operation overflows, underflows or saturates. -/
theorem supply_only_shrinks_by_the_fees (accounts : ExtTreeMap Address Account)
    (hgenesis : accounts.sumBy (fun _ x => x.balance.toNat) < 2 ^ 128) (txs : List Transaction)
    (tx : Transaction) :
    let s := runBlock ⟨⟨accounts, ∅⟩⟩ txs
    let s' := (BlockExecutor.execute s tx).2
    (if s'.nonce tx.sender ≠ s.nonce tx.sender then s'.supply + tx.fee.toNat = s.supply
      else s'.supply = s.supply) ∧
    ∀ op ∈ BlockExecutor.operations s tx, op.Exact := by
  intro s s'
  have hsound : Ledger.Sound ⟨accounts, ∅, ∅⟩ := by
    refine ⟨Ledger.consistent_of_accounts accounts, ?_⟩
    simpa [Ledger.supply, Ledger.balances, Ledger.stakes] using hgenesis
  obtain ⟨L, hr, hL⟩ := runBlock_sound txs (represents_of_accounts accounts) hsound
  obtain ⟨-, hr', hops⟩ := execute_of_represents hr tx
  obtain ⟨hsupply, hexact, -⟩ := Ledger.execute_conserves hL tx
  refine ⟨?_, ?_⟩
  · rw [hr'.nonce, hr.nonce, supply_of_represents hr', supply_of_represents hr]
    simpa only [ne_eq, Except.ok.injEq] using hsupply
  · rw [hops]
    exact hexact

end Store

end Pemrix

/-! ## One transfer -/

namespace Pemrix.Concrete

def paying : ExtTreeMap Address Account := (∅ : ExtTreeMap Address Account).insert payer ⟨100, 0⟩

/-- The signed transfer moves the nonce of its sender, and the supply goes from 100 to 99. -/
theorem transfer_burns_its_fee :
    let s := runBlock ⟨⟨paying, ∅⟩⟩ []
    let s' := (BlockExecutor.execute s transfer).2
    s.supply = 100 ∧ s'.nonce payer = .ok 1 ∧
      (if s'.nonce transfer.sender ≠ s.nonce transfer.sender
        then s'.supply + transfer.fee.toNat = s.supply else s'.supply = s.supply) ∧
      ∀ op ∈ BlockExecutor.operations s transfer, op.Exact :=
  ⟨by decide +kernel, by decide +kernel,
    supply_only_shrinks_by_the_fees paying (by decide +kernel) [] transfer⟩

end Pemrix.Concrete
