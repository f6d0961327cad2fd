-- Transactions that commute. On a ledger whose sums fit, an execution is a list of
-- writes, and what the sender has decides which ones: what is paid to an address and
-- what is staked with a validator is added, and nobody reads how much is there.
import Pemrix.Supply
import Pemrix.Footprints
import Pemrix.Authorised

open Std Footprints

namespace Pemrix

/-! ## Independent transactions -/

section Independent

variable [Crates]

/-- The transaction is a `RegisterValidator`. -/
def Registers (tx : Transaction) : Prop :=
  ∃ op, StakingExecutor.decode tx.payload = .ok op ∧ op.target = none

/-- The transaction is a `Delegate` or an `Undelegate` that names the validator. -/
def Restakes (tx : Transaction) (v : Address) : Prop :=
  ∃ op, StakingExecutor.decode tx.payload = .ok op ∧ op.target = some v

/-- No sender has a part in the other transaction. -/
structure Independent (t t' : Transaction) : Prop where
  senders : t.sender ≠ t'.sender
  recipient : t'.sender ≠ t.recipient
  recipient' : t.sender ≠ t'.recipient
  registered : ¬ (Registers t ∧ Restakes t' t.sender)
  registered' : ¬ (Registers t' ∧ Restakes t t'.sender)

theorem Independent.symm {t t' : Transaction} (h : Independent t t') : Independent t' t :=
  ⟨h.senders.symm, h.recipient', h.recipient, h.registered', h.registered⟩

end Independent

/-! ## The writes of an execution -/

inductive LedgerWrite where
  | account (a : Address) (x : Account)
  | credit (a : Address) (amount : Balance)
  | record (v : Address) (r : ValidatorRecord)
  | stake (v : Address) (change : Balance)
  | delegation (d v : Address) (x : Option Delegation)

/-- The account of an entry with the amount on top. -/
def Account.credited (amount : Balance) (x : Option Account) : Option Account :=
  some { x.getD default with balance := (x.getD default).balance + amount }

/-- The record with the change on top of its delegated stake, as a `u128`. -/
def ValidatorRecord.restaked (change : Balance) (r : ValidatorRecord) : ValidatorRecord :=
  { r with delegated_stake := r.delegated_stake + change }

namespace Ledger

def write (L : Ledger) : LedgerWrite → Ledger
  | .account a x => { L with accounts := L.accounts.alter a fun _ => some x }
  | .credit a amount => { L with accounts := L.accounts.alter a (Account.credited amount) }
  | .record v r => { L with validators := L.validators.alter v fun _ => some r }
  | .stake v change =>
    { L with validators := L.validators.alter v (Option.map (ValidatorRecord.restaked change)) }
  | .delegation d v x => { L with delegations := L.delegations.alter (d, v) fun _ => x }

variable (L : Ledger)

theorem write_account (a : Address) (x : Account) : L.write (.account a x) = L.setAccount a x := by
  rw [write, setAccount, alter_const]

theorem write_credit (a : Address) (amount : Balance) :
    L.write (.credit a amount) = L.setBalance a ((L.account a).balance + amount) := by
  rw [write, setBalance, setAccount]
  congr 1
  apply ExtTreeMap.ext_getElem?
  intro k
  rw [ExtTreeMap.getElem?_alter, ExtTreeMap.getElem?_insert]
  rfl

theorem write_record (v : Address) (r : ValidatorRecord) :
    L.write (.record v r) = L.setValidator v r := by
  rw [write, setValidator, alter_const]

variable {L} in
theorem write_stake {v : Address} {r : ValidatorRecord} (h : L.validators[v]? = some r)
    (change : Balance) :
    L.write (.stake v change) =
      L.setValidator v { r with delegated_stake := r.delegated_stake + change } := by
  rw [write, setValidator]
  congr 1
  apply ExtTreeMap.ext_getElem?
  intro k
  rw [ExtTreeMap.getElem?_alter, ExtTreeMap.getElem?_insert, h]
  rfl

theorem write_delegation (d v : Address) (x : Delegation) :
    L.write (.delegation d v (some x)) = L.setDelegation d v x := by
  rw [write, setDelegation, alter_const]

theorem write_left (d v : Address) (x : Delegation) :
    L.write (.delegation d v (if x.amount = 0 then none else some x)) = L.setOrDelete d v x := by
  rw [write, setOrDelete]
  split
  · rw [alter_none, deleteDelegation]
  · rw [alter_const, setDelegation]

/-! ## What a transaction sees and owns -/

variable [Crates] {L}

/-- The address whose record an operation of the sender reads. -/
def subject (sender : Address) (op : StakingOperation) : Address := op.target.getD sender

/-- The second ledger has the same for the sender: its account, its delegations, and whether
the validator is there and is active. -/
structure Sees (tx : Transaction) (L L' : Ledger) : Prop where
  account : L'.account tx.sender = L.account tx.sender
  status : ∀ op, StakingExecutor.decode tx.payload = .ok op →
    L'.validators[subject tx.sender op]?.map (·.status) =
      L.validators[subject tx.sender op]?.map (·.status)
  delegations : ∀ v : Address,
    L'.delegations[(tx.sender, v)]? = L.delegations[(tx.sender, v)]?

/-- The writes that an execution of the transaction may do. -/
def Owns (tx : Transaction) : LedgerWrite → Prop
  | .account a _ => a = tx.sender
  | .credit a _ => a = tx.recipient
  | .record v _ => v = tx.sender ∧ Registers tx
  | .stake v _ => Restakes tx v
  | .delegation d _ _ => d = tx.sender

/-- The executor on ledgers whose records agree and whose sums fit. -/
def machine :
    Footprints.Machine Ledger Transaction (Except VmError ExecutionResult) LedgerWrite where
  run L tx := ((L.execute tx).1, (L.execute tx).2.1)
  write := write
  Inv := Sound
  Sees := Sees
  Owns := Owns

variable {t t' : Transaction}

/-- What one transaction writes, the other one does not see. -/
theorem sees_write (h : Independent t t') (L : Ledger) (w : LedgerWrite) (hw : Owns t w) :
    Sees t' L (L.write w) := by
  cases w with
  | account a x =>
    have hne : a ≠ t'.sender := fun ha => h.senders (hw.symm.trans ha)
    refine ⟨?_, fun _ _ => rfl, fun _ => rfl⟩
    rw [write_account, account_setAccount, if_neg hne]
  | credit a amount =>
    have hne : a ≠ t'.sender := fun ha => h.recipient (ha.symm.trans hw)
    refine ⟨?_, fun _ _ => rfl, fun _ => rfl⟩
    rw [write_credit, account_setBalance, if_neg hne]
  | record v r =>
    obtain ⟨rfl, hreg⟩ := hw
    refine ⟨rfl, ?_, fun _ => rfl⟩
    intro op hop
    have hne : t.sender ≠ subject t'.sender op := by
      intro heq
      unfold subject at heq
      cases htarget : op.target with
      | none =>
        rw [htarget] at heq
        exact h.senders heq
      | some v =>
        rw [htarget, Option.getD_some] at heq
        exact h.registered ⟨hreg, op, hop, heq ▸ htarget⟩
    rw [write, getElem?_alter_of_ne _ hne]
  | stake v change =>
    refine ⟨rfl, ?_, fun _ => rfl⟩
    intro op _
    rw [write]
    by_cases hv : v = subject t'.sender op
    · rw [hv, ExtTreeMap.getElem?_alter_self, Option.map_map]
      rfl
    · rw [getElem?_alter_of_ne _ hv]
  | delegation d v x =>
    refine ⟨rfl, fun _ _ => rfl, ?_⟩
    intro w
    have hne : (d, v) ≠ (t'.sender, w) := by
      rintro ⟨⟩
      exact h.senders hw.symm
    rw [write, getElem?_alter_of_ne _ hne]

omit [Crates] in
theorem credited_comm (amount amount' : Balance) (x : Option Account) :
    Account.credited amount' (Account.credited amount x) =
      Account.credited amount (Account.credited amount' x) := by
  unfold Account.credited
  simp only [Option.getD_some, add_right_comm]

omit [Crates] in
theorem restaked_comm (change change' : Balance) (x : Option ValidatorRecord) :
    (x.map (ValidatorRecord.restaked change)).map (ValidatorRecord.restaked change') =
      (x.map (ValidatorRecord.restaked change')).map (ValidatorRecord.restaked change) := by
  cases x with
  | none => rfl
  | some r =>
    unfold ValidatorRecord.restaked
    simp only [Option.map_some, add_right_comm]

/-- What two independent transactions write can be swapped. -/
theorem write_comm (h : Independent t t') (L : Ledger) (v w : LedgerWrite) (hv : Owns t v)
    (hw : Owns t' w) : (L.write v).write w = (L.write w).write v := by
  cases v with
  | account a x =>
    cases w with
    | account b y =>
      have hne : a ≠ b := by
        rw [hv, hw]
        exact h.senders
      simp only [write, alter_comm_of_ne _ hne]
    | credit b amount =>
      have hne : a ≠ b := by
        rw [hv, hw]
        exact h.recipient'
      simp only [write, alter_comm_of_ne _ hne]
    | record | stake | delegation => rfl
  | credit a amount =>
    cases w with
    | account b y =>
      have hne : a ≠ b := by
        rw [hv, hw]
        exact h.recipient.symm
      simp only [write, alter_comm_of_ne _ hne]
    | credit b amount' =>
      simp only [write, alter_comm _ (credited_comm amount amount')]
    | record | stake | delegation => rfl
  | record a r =>
    cases w with
    | record b r' =>
      have hne : a ≠ b := by
        rw [hv.1, hw.1]
        exact h.senders
      simp only [write, alter_comm_of_ne _ hne]
    | stake b change =>
      have hne : a ≠ b := by
        rintro rfl
        exact h.registered ⟨hv.2, hv.1 ▸ hw⟩
      simp only [write, alter_comm_of_ne _ hne]
    | account | credit | delegation => rfl
  | stake a change =>
    cases w with
    | record b r' =>
      have hne : a ≠ b := by
        rintro rfl
        exact h.registered' ⟨hw.2, hw.1 ▸ hv⟩
      simp only [write, alter_comm_of_ne _ hne]
    | stake b change' =>
      simp only [write, alter_comm _ (restaked_comm change change')]
    | account | credit | delegation => rfl
  | delegation d a x =>
    cases w with
    | delegation d' b y =>
      have hne : (d, a) ≠ (d', b) := by
        rintro ⟨⟩
        exact h.senders (hv.symm.trans hw)
      simp only [write, alter_comm_of_ne _ hne]
    | account | credit | record | stake => rfl

theorem machine_independent (h : Independent t t') : machine.Independent t t' :=
  ⟨sees_write h, sees_write h.symm, fun L v w => write_comm h L v w⟩

/-! ## What an execution does -/

/-- On all ledgers that look to the transaction as this one, the code has one result and does
one list of writes. -/
def Local (tx : Transaction) (code : Ledger → Outcome ExecutionResult) (L : Ledger) : Prop :=
  ∃ (r : Except VmError ExecutionResult) (ws : List LedgerWrite), (∀ w ∈ ws, Owns tx w) ∧
    ∀ L' : Ledger, L'.Sound → Sees tx L L' →
      (code L').1 = r ∧ (code L').2.1 = ws.foldl write L'

variable {tx : Transaction} {L' : Ledger}

theorem Sees.delegation (h : Sees tx L L') (v : Address) :
    L'.delegation tx.sender v = L.delegation tx.sender v := by
  unfold Ledger.delegation
  rw [h.delegations v]

/-- The record that the operation reads is there in both ledgers or in none. -/
theorem Sees.isSome (h : Sees tx L L') {op : StakingOperation}
    (hop : StakingExecutor.decode tx.payload = .ok op) :
    L'.validators[subject tx.sender op]?.isSome = L.validators[subject tx.sender op]?.isSome := by
  have hstatus := congrArg Option.isSome (h.status op hop)
  rwa [Option.isSome_map, Option.isSome_map] at hstatus

theorem Sees.none (h : Sees tx L L') {op : StakingOperation}
    (hop : StakingExecutor.decode tx.payload = .ok op)
    (hnone : L.validators[subject tx.sender op]? = none) :
    L'.validators[subject tx.sender op]? = none := by
  have hsome := h.isSome hop
  rw [hnone] at hsome
  exact Option.not_isSome_iff_eq_none.mp (by simp [hsome])

theorem Sees.some (h : Sees tx L L') {op : StakingOperation}
    (hop : StakingExecutor.decode tx.payload = .ok op) {r : ValidatorRecord}
    (hr : L.validators[subject tx.sender op]? = some r) :
    ∃ r', L'.validators[subject tx.sender op]? = some r' ∧ r'.status = r.status := by
  have hstatus := h.status op hop
  rw [hr] at hstatus
  exact Option.map_eq_some_iff.mp hstatus

/-- Code that refuses leaves the ledger. -/
theorem local_of_refused {code : Ledger → Outcome ExecutionResult}
    {r : Except VmError ExecutionResult}
    (h : ∀ L' : Ledger, L'.Sound → Sees tx L L' → code L' = (r, L', [])) : Local tx code L := by
  refine ⟨r, [], by simp, ?_⟩
  intro L' hL' hsees
  rw [h L' hL' hsees]
  exact ⟨rfl, rfl⟩

theorem register_local {consensus_pubkey : Bytes} {commission_bps : UInt16} {self_stake : Balance}
    (hop : StakingExecutor.decode tx.payload =
      .ok (.RegisterValidator consensus_pubkey commission_bps self_stake)) (L : Ledger) :
    Local tx (fun L => L.register tx.sender consensus_pubkey commission_bps self_stake) L := by
  have hsome : ∀ {L' : Ledger}, Sees tx L L' →
      L'.validators[tx.sender]?.isSome = L.validators[tx.sender]?.isSome :=
    fun hsees => hsees.isSome hop
  by_cases hgo : consensus_pubkey = [] ∨ commission_bps > 10000 ∨
      self_stake < StakingExecutor.MIN_SELF_STAKE ∨ L.validators[tx.sender]?.isSome
  · apply local_of_refused
    intro L' _ hsees
    rw [← hsome hsees] at hgo
    rw [register, if_pos hgo]
  by_cases hb : (L.account tx.sender).balance < self_stake
  · apply local_of_refused
    intro L' _ hsees
    rw [← hsome hsees] at hgo
    rw [register, if_neg hgo, hsees.account, if_pos hb]
  · refine ⟨.ok ⟨true, 50000, "validator registered"⟩, [.account tx.sender
        { L.account tx.sender with balance := (L.account tx.sender).balance - self_stake },
      .record tx.sender (.new tx.sender consensus_pubkey self_stake commission_bps)], ?_, ?_⟩
    · intro w hw
      simp only [List.mem_cons, List.not_mem_nil, or_false] at hw
      rcases hw with rfl | rfl
      · rfl
      · exact ⟨rfl, _, hop, rfl⟩
    · intro L' _ hsees
      rw [← hsome hsees] at hgo
      simp only [List.foldl_cons, List.foldl_nil, write_account, write_record]
      rw [register, if_neg hgo, setBalance, hsees.account, if_neg hb]
      exact ⟨rfl, rfl⟩

theorem delegate_local {validator : Address} {amount : Balance}
    (hop : StakingExecutor.decode tx.payload = .ok (.Delegate validator amount)) (L : Ledger) :
    Local tx (fun L => L.delegate tx.sender validator amount) L := by
  by_cases hmin : amount < StakingExecutor.MIN_DELEGATION
  · apply local_of_refused
    intro L' _ _
    rw [delegate, if_pos hmin]
  cases hr : L.validators[validator]? with
  | none =>
    apply local_of_refused
    intro L' _ hsees
    have hnone : L'.validators[validator]? = none := hsees.none hop hr
    rw [delegate, if_neg hmin, hnone]
  | some r =>
    have hsome : ∀ {L' : Ledger}, Sees tx L L' →
        ∃ r', L'.validators[validator]? = some r' ∧ r'.status = r.status :=
      fun hsees => hsees.some hop hr
    by_cases hactive : r.status ≠ .Active
    · apply local_of_refused
      intro L' _ hsees
      obtain ⟨r', hr', hstatus⟩ := hsome hsees
      rw [← hstatus] at hactive
      rw [delegate, if_neg hmin, hr']
      exact if_pos hactive
    by_cases hb : (L.account tx.sender).balance < amount
    · apply local_of_refused
      intro L' _ hsees
      obtain ⟨r', hr', hstatus⟩ := hsome hsees
      rw [← hstatus] at hactive
      rw [delegate, if_neg hmin, hr', hsees.account]
      exact (if_neg hactive).trans (if_pos hb)
    · refine ⟨.ok ⟨true, 30000, "delegated"⟩, [.account tx.sender
          { L.account tx.sender with balance := (L.account tx.sender).balance - amount },
        .stake validator amount, .delegation tx.sender validator (some
          { L.delegation tx.sender validator with
            amount := (L.delegation tx.sender validator).amount + amount })], ?_, ?_⟩
      · intro w hw
        simp only [List.mem_cons, List.not_mem_nil, or_false] at hw
        rcases hw with rfl | rfl | rfl
        · rfl
        · exact ⟨_, hop, rfl⟩
        · rfl
      · intro L' _ hsees
        obtain ⟨r', hr', hstatus⟩ := hsome hsees
        rw [← hstatus] at hactive
        simp only [List.foldl_cons, List.foldl_nil, write_account, write_delegation]
        rw [write_stake (L := L'.setAccount _ _) hr', delegate, if_neg hmin, hr', setBalance,
          hsees.account, hsees.delegation]
        dsimp only
        rw [if_neg hactive, if_neg hb]
        exact ⟨rfl, rfl⟩

theorem undelegate_local {validator : Address} {amount : Balance}
    (hop : StakingExecutor.decode tx.payload = .ok (.Undelegate validator amount)) (L : Ledger) :
    Local tx (fun L => L.undelegate tx.sender validator amount) L := by
  cases hd : L.delegations[(tx.sender, validator)]? with
  | none =>
    apply local_of_refused
    intro L' _ hsees
    rw [undelegate, hsees.delegations, hd]
  | some x =>
    by_cases hb : x.amount < amount
    · apply local_of_refused
      intro L' _ hsees
      rw [undelegate, hsees.delegations, hd]
      exact if_pos hb
    cases hr : L.validators[validator]? with
    | none =>
      apply local_of_refused
      intro L' _ hsees
      have hnone : L'.validators[validator]? = none := hsees.none hop hr
      rw [undelegate, hsees.delegations, hd, hnone]
      exact if_neg hb
    | some r =>
      refine ⟨.ok ⟨true, 30000, "undelegated"⟩, [.stake validator (-amount),
        .delegation tx.sender validator
          (if ({ x with amount := x.amount - amount } : Delegation).amount = 0 then none
            else some { x with amount := x.amount - amount }),
        .account tx.sender
          { L.account tx.sender with balance := (L.account tx.sender).balance + amount }], ?_, ?_⟩
      · intro w hw
        simp only [List.mem_cons, List.not_mem_nil, or_false] at hw
        rcases hw with rfl | rfl | rfl
        · exact ⟨_, hop, rfl⟩
        · rfl
        · rfl
      · intro L' hL' hsees
        obtain ⟨r', hr', -⟩ : ∃ r', L'.validators[validator]? = some r' ∧ r'.status = r.status :=
          hsees.some hop hr
        have hd' := (hsees.delegations validator).trans hd
        -- The delegated stake covers each delegation, so nothing saturates.
        have hstake : amount ≤ r'.delegated_stake := by
          have hle := hL'.consistent.amount_le (d := tx.sender) hr'
          rw [delegation_of_some hd'] at hle
          exact BitVec.le_def.mpr (Nat.le_trans (BitVec.le_def.mp (BitVec.not_lt.mp hb)) hle)
        simp only [List.foldl_cons, List.foldl_nil, write_account]
        rw [write_stake hr', ← sub_eq_add_neg, undelegate, hd', hr', ← hsees.account]
        dsimp only
        rw [if_neg hb, U128.saturating_sub_of_le hstake, setBalance, setOrDelete_account,
          ← write_left]
        exact ⟨rfl, rfl⟩

theorem transfer_local (tx : Transaction) (L : Ledger) :
    Local tx (fun L => L.transfer tx.sender tx.recipient tx.amount) L := by
  by_cases hzero : tx.amount = 0
  · apply local_of_refused
    intro L' _ _
    rw [transfer, if_pos hzero]
  by_cases hb : (L.account tx.sender).balance < tx.amount
  · apply local_of_refused
    intro L' _ hsees
    rw [transfer, if_neg hzero, hsees.account, if_pos hb]
  · refine ⟨.ok ⟨true, 21000, "ok"⟩, [.account tx.sender
        { L.account tx.sender with balance := (L.account tx.sender).balance - tx.amount },
      .credit tx.recipient tx.amount], ?_, ?_⟩
    · intro w hw
      simp only [List.mem_cons, List.not_mem_nil, or_false] at hw
      rcases hw with rfl | rfl
      · rfl
      · rfl
    · intro L' hL' hsees
      rw [← hsees.account] at hb ⊢
      have hadd := hL'.recipient_fits tx.sender tx.amount tx.recipient (BitVec.not_lt.mp hb)
      simp only [List.foldl_cons, List.foldl_nil, write_account, write_credit]
      rw [transfer, if_neg hzero, if_neg hb]
      simp only [U128.checked_add, if_pos hadd]
      exact ⟨trivial, rfl⟩

theorem stake_local {op : StakingOperation} (hop : StakingExecutor.decode tx.payload = .ok op)
    (L : Ledger) : Local tx (fun L => L.stake tx.sender op) L := by
  cases op with
  | RegisterValidator consensus_pubkey commission_bps self_stake => exact register_local hop L
  | Delegate validator amount => exact delegate_local hop L
  | Undelegate validator amount => exact undelegate_local hop L

theorem dispatch_local (tx : Transaction) (L : Ledger) : Local tx (fun L => L.dispatch tx) L := by
  unfold dispatch
  cases hp : tx.payload with
  | nil => exact transfer_local tx L
  | cons first rest =>
    dsimp only
    by_cases hfirst : first = 1
    · simp only [if_pos hfirst]
      unfold stakePayload
      cases hop : StakingExecutor.decode tx.payload with
      | error e => exact local_of_refused fun _ _ _ => rfl
      | ok op => exact stake_local hop L
    · simp only [if_neg hfirst]
      exact local_of_refused fun _ _ _ => rfl

theorem Sees.charge (h : Sees tx L L') : Sees tx (L.charge tx) (L'.charge tx) := by
  refine ⟨?_, h.status, h.delegations⟩
  rw [account_charge, account_charge, h.account]

theorem execute_local (tx : Transaction) (L : Ledger) : Local tx (fun L => L.execute tx) L := by
  by_cases hgo : L.Charges tx
  · obtain ⟨r, ws, howns, hacts⟩ := dispatch_local tx (L.charge tx)
    refine ⟨r, .account tx.sender
      ⟨(L.account tx.sender).balance - tx.fee, (L.account tx.sender).nonce + 1⟩ :: ws, ?_, ?_⟩
    · intro w hw
      rcases List.mem_cons.mp hw with rfl | hw
      · rfl
      · exact howns w hw
    · intro L' hL' hsees
      have hgo' : L'.Charges tx := by
        unfold Charges
        rw [hsees.account]
        exact hgo
      have hrun := hacts (L'.charge tx) (hL'.charge hgo'.2.2) hsees.charge
      dsimp only
      rcases L'.execute_cases tx with ⟨hno, -⟩ | ⟨-, he⟩
      · exact absurd hgo' hno
      · rw [he, List.foldl_cons, write_account, ← hsees.account]
        exact hrun
  · unfold execute
    cases hv : BlockExecutor.verify_signature tx with
    | error e => exact local_of_refused fun _ _ _ => rfl
    | ok u =>
      dsimp only
      by_cases hn : (L.account tx.sender).nonce ≠ tx.nonce
      · apply local_of_refused
        intro L' _ hsees
        rw [hsees.account, if_pos hn]
      · have hb : (L.account tx.sender).balance < tx.fee := by
          by_contra hb
          exact hgo ⟨hv, not_not.mp hn, BitVec.not_lt.mp hb⟩
        apply local_of_refused
        intro L' _ hsees
        rw [hsees.account, if_neg hn, if_pos hb]

theorem machine_local : machine.IsLocal := by
  refine ⟨fun tx L => ⟨rfl, fun _ _ => rfl, fun _ => rfl⟩, ?_, ?_, ?_⟩
  · intro tx L L' L'' h h'
    refine ⟨h'.account.trans h.account, ?_, ?_⟩
    · intro op hop
      exact (h'.status op hop).trans (h.status op hop)
    · intro v
      exact (h'.delegations v).trans (h.delegations v)
  · intro L tx hL
    exact (execute_conserves hL tx).2.2
  · intro tx L hL
    obtain ⟨r, ws, howns, hacts⟩ := execute_local tx L
    refine ⟨r, ws, howns, ?_⟩
    intro L' hL' hsees
    obtain ⟨hr, hws⟩ := hacts L' hL' hsees
    exact Prod.ext hr hws

/-- Independent transactions have the same results and leave the same ledger in both orders. -/
theorem execute_comm (h : Independent t t') (hL : L.Sound) :
    ((L.execute t).2.1.execute t').1 = (L.execute t').1 ∧
      ((L.execute t').2.1.execute t).1 = (L.execute t).1 ∧
      ((L.execute t).2.1.execute t').2.1 = ((L.execute t').2.1.execute t).2.1 :=
  machine_local.commute (machine_independent h) hL

end Ledger

end Pemrix

/-! ## The store -/

namespace Pemrix

variable [Crates] {s s' : StateStore InMemoryBackend} {L : Ledger}

/-- A ledger has one store. -/
theorem Represents.unique (h : Represents s L) (h' : Represents s' L) : s = s' := by
  obtain ⟨⟨accounts, raw⟩⟩ := s
  obtain ⟨⟨accounts', raw'⟩⟩ := s'
  have haccounts : accounts = accounts' := h.accounts.trans h'.accounts.symm
  have hraw : raw = raw' := by
    apply ExtTreeMap.ext_getElem?
    intro k
    by_cases hkey : RecordKey k
    · rcases hkey with ⟨a, rfl⟩ | ⟨d, v, rfl⟩
      · exact (h.validators a).trans (h'.validators a).symm
      · exact (h.delegations d v).trans (h'.delegations d v).symm
    · have hnone : raw[k]? = none := not_not.mp (mt (h.keys k) hkey)
      have hnone' : raw'[k]? = none := not_not.mp (mt (h'.keys k) hkey)
      rw [hnone, hnone']
  rw [haccounts, hraw]

variable [LawfulRecords]

/-- After every run from accounts whose balances are a `u128` in sum, two independent
transactions have the same results and leave the same store in both orders. -/
theorem independent_transactions_commute (accounts : ExtTreeMap Address Account)
    (hgenesis : accounts.sumBy (fun _ x => x.balance.toNat) < 2 ^ 128) (txs : List Transaction)
    (t t' : Transaction) (h : Independent t t') :
    let s := runBlock ⟨⟨accounts, ∅⟩⟩ txs
    let first := BlockExecutor.execute s t
    let first' := BlockExecutor.execute s t'
    first.1 = (BlockExecutor.execute first'.2 t).1 ∧
      (BlockExecutor.execute first.2 t').1 = first'.1 ∧
      (BlockExecutor.execute first.2 t').2 = (BlockExecutor.execute first'.2 t).2 := by
  intro s first first'
  have hsound : Ledger.Sound ⟨accounts, ∅, ∅⟩ := by
    refine ⟨Ledger.consistent_of_accounts accounts, ?_⟩
    simpa [Ledger.supply, Ledger.balances, Ledger.stakes] using hgenesis
  obtain ⟨L, hr, hL⟩ := runBlock_sound txs (represents_of_accounts accounts) hsound
  obtain ⟨hresult, hstore, -⟩ := execute_of_represents hr t
  obtain ⟨hresult', hstore', -⟩ := execute_of_represents hr t'
  obtain ⟨hsecond', hlast', -⟩ := execute_of_represents hstore t'
  obtain ⟨hsecond, hlast, -⟩ := execute_of_represents hstore' t
  obtain ⟨hr', hr, hL'⟩ := Ledger.execute_comm h hL
  refine ⟨?_, ?_, ?_⟩
  · exact hresult.trans (hr.symm.trans hsecond.symm)
  · exact hsecond'.trans (hr'.trans hresult'.symm)
  · refine hlast'.unique ?_
    rw [hL']
    exact hlast

end Pemrix

/-! ## Two transfers to one address -/

namespace Pemrix.TwoPayers

open Concrete (addr payer transfer)

/-- Another Ed25519 public key. -/
def key : Bytes :=
  [61, 64, 23, 195, 232, 67, 137, 90, 146, 183, 10, 167, 77, 27, 126, 188, 156, 152, 44, 207, 46,
    196, 150, 140, 192, 205, 85, 241, 42, 244, 102, 12]

/-- The address of the key. -/
def other : Address :=
  ⟨#v[16, 39, 224, 53, 178, 107, 96, 93, 198, 212, 183, 141, 7, 220, 41, 102, 15, 204, 52, 152,
    181, 152, 162, 229, 124, 78, 107, 27, 103, 58, 30, 149]⟩

/-- The hash that the signature of `second` covers. -/
def signed_hash : Bytes :=
  [86, 192, 123, 205, 162, 63, 137, 119, 66, 125, 208, 110, 243, 122, 208, 58, 173, 186, 99, 72,
    230, 240, 149, 31, 177, 38, 52, 199, 48, 5, 251, 61]

/-- The signature of the key over the hash. -/
def signature : Bytes :=
  [109, 139, 121, 62, 197, 15, 133, 203, 70, 18, 74, 111, 102, 56, 155, 230, 253, 129, 230, 90,
    235, 13, 76, 189, 92, 183, 196, 123, 6, 204, 53, 201, 124, 142, 73, 152, 145, 14, 107, 158, 84,
    248, 15, 229, 169, 38, 23, 142, 159, 194, 2, 5, 152, 45, 180, 176, 169, 1, 49, 148, 148, 236,
    6, 3]

/-- A transfer of 7 with a fee of 2, to the address that `transfer` pays too. -/
def second : Transaction :=
  { sender := other, recipient := addr 9, amount := 7, nonce := 0, fee := 2, public_key := key,
    signature, payload := [] }

scoped instance : Crates :=
  crates [(Concrete.key, Concrete.signed_hash, Concrete.signature), (key, signed_hash, signature)]

scoped instance : LawfulRecords :=
  lawful_crates [(Concrete.key, Concrete.signed_hash, Concrete.signature),
    (key, signed_hash, signature)]

def accounts : ExtTreeMap Address Account :=
  ((∅ : ExtTreeMap Address Account).insert payer ⟨100, 0⟩).insert other ⟨50, 0⟩

theorem independent : Independent transfer second := by
  have hdecode : StakingExecutor.decode ([] : Bytes) = .error .InvalidContract := by
    decide +kernel
  refine ⟨by decide +kernel, by decide +kernel, by decide +kernel, ?_, ?_⟩
  · rintro ⟨⟨op, hop, -⟩, -⟩
    cases hdecode.symm.trans hop
  · rintro ⟨⟨op, hop, -⟩, -⟩
    cases hdecode.symm.trans hop

/-- Both transfers go through, and the address has 12 in both orders. -/
theorem transfers_commute :
    let s := runBlock ⟨⟨accounts, ∅⟩⟩ []
    let first := BlockExecutor.execute s transfer
    let first' := BlockExecutor.execute s second
    (BlockExecutor.execute first.2 second).2.balance (addr 9) = .ok 12 ∧
      first.1 = (BlockExecutor.execute first'.2 transfer).1 ∧
      (BlockExecutor.execute first.2 second).1 = first'.1 ∧
      (BlockExecutor.execute first.2 second).2 = (BlockExecutor.execute first'.2 transfer).2 :=
  ⟨by decide +kernel,
    independent_transactions_commute accounts (by decide +kernel) [] transfer second independent⟩

end Pemrix.TwoPayers
