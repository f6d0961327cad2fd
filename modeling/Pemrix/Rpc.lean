-- The state behind the RPC server (`RpcState` of `pemrix-rpc`) and the two loops
-- that replay finalized blocks into it: `ingest_block` of the testnet, and the one
-- of the shared services, which also replays staking.
import Pemrix.Vm

open Std

namespace Pemrix

/-- The derived order of the bytes. The source keeps hashes in hash maps. -/
instance : Ord Hash := ⟨compareOn Hash.bytes⟩

instance : TransOrd Hash := inferInstanceAs (TransCmp (compareOn Hash.bytes))

instance : LawfulEqOrd Hash where
  eq_of_compare {a b} h := by
    have hb : a.bytes = b.bytes := LawfulEqOrd.eq_of_compare h
    cases a; cases b
    cases hb
    rfl

/-- The method `u64::saturating_add`. -/
def saturating_add_u64 (a b : UInt64) : UInt64 :=
  if a.toNat + b.toNat < 2 ^ 64 then a + b else UInt64.ofNat (2 ^ 64 - 1)

/-! ## The state -/

structure RpcState where
  accounts : ExtTreeMap Address Account
  blocks : ExtTreeMap UInt64 Block
  blocks_by_hash : ExtTreeMap Hash Block
  transactions : ExtTreeMap Hash Transaction
  pending : List Transaction
  height : UInt64
  validators : ExtTreeMap Address ValidatorRecord
  delegations : ExtTreeMap (Address × Address) Delegation

namespace RpcState

def new : RpcState := ⟨∅, ∅, ∅, ∅, [], 0, ∅, ∅⟩

def get_account (s : RpcState) (address : Address) : Option Account := s.accounts[address]?

def set_account (s : RpcState) (address : Address) (account : Account) : RpcState :=
  { s with accounts := s.accounts.insert address account }

def get_validator (s : RpcState) (address : Address) : Option ValidatorRecord :=
  s.validators[address]?

def set_validator (s : RpcState) (address : Address) (record : ValidatorRecord) : RpcState :=
  { s with validators := s.validators.insert address record }

def get_delegation (s : RpcState) (delegator validator : Address) : Option Delegation :=
  s.delegations[(delegator, validator)]?

def set_delegation (s : RpcState) (delegator validator : Address) (delegation : Delegation) :
    RpcState :=
  { s with delegations := s.delegations.insert (delegator, validator) delegation }

def delete_delegation (s : RpcState) (delegator validator : Address) : RpcState :=
  { s with delegations := s.delegations.erase (delegator, validator) }

def store_transaction (s : RpcState) (hash : Hash) (transaction : Transaction) : RpcState :=
  { s with transactions := s.transactions.insert hash transaction }

def get_transaction (s : RpcState) (hash : Hash) : Option Transaction := s.transactions[hash]?

def submit_transaction (s : RpcState) (transaction : Transaction) : RpcState :=
  { s with pending := s.pending ++ [transaction] }

def pending_transactions (s : RpcState) : List Transaction := s.pending

def store_block [Crates] (s : RpcState) (block : Block) : RpcState :=
  { s with
    blocks := s.blocks.insert block.header.height block
    blocks_by_hash := s.blocks_by_hash.insert block.hash block
    height := if block.header.height > s.height then block.header.height else s.height }

/-- The state that serves a chain with some genesis allocations. -/
def from_genesis (allocations : ExtTreeMap Address Account) : RpcState :=
  { new with accounts := allocations }

/-! ## Replaying a block -/

/-- What `get_account(..).unwrap_or_default()` gives. -/
def account (s : RpcState) (address : Address) : Account := (s.get_account address).getD default

/-- One turn of the loop over the transactions of a block. The services replay staking between
the reads and the writes of the accounts. -/
def replay (staking : RpcState → RpcState) (s : RpcState) (tx : Transaction) : RpcState :=
  let sender := s.account tx.sender
  let total := U128.saturating_add tx.amount tx.fee
  if sender.nonce ≠ tx.nonce then s
  else if sender.balance < total then s
  else
    let sender : Account :=
      { balance := U128.saturating_sub sender.balance total
        nonce := saturating_add_u64 sender.nonce 1 }
    let s := staking s
    let s := s.set_account tx.sender sender
    let recipient := s.account tx.recipient
    s.set_account tx.recipient
      { recipient with balance := U128.saturating_add recipient.balance tx.amount }

/-- The function `replay_staking` of the services. -/
def replay_staking (s : RpcState) (sender : Address) : StakingOperation → RpcState
  | .RegisterValidator consensus_pubkey commission_bps self_stake =>
    let account := s.account sender
    let s := s.set_account sender
      { account with balance := U128.saturating_sub account.balance self_stake }
    s.set_validator sender (.new sender consensus_pubkey self_stake commission_bps)
  | .Delegate validator amount =>
    let account := s.account sender
    let s := s.set_account sender
      { account with balance := U128.saturating_sub account.balance amount }
    let s := match s.get_validator validator with
      | some record => s.set_validator validator
          { record with delegated_stake := U128.saturating_add record.delegated_stake amount }
      | none => s
    let delegation := (s.get_delegation sender validator).getD default
    s.set_delegation sender validator
      { delegation with amount := U128.saturating_add delegation.amount amount }
  | .Undelegate validator amount =>
    let s := match s.get_validator validator with
      | some record => s.set_validator validator
          { record with delegated_stake := U128.saturating_sub record.delegated_stake amount }
      | none => s
    let s := match s.get_delegation sender validator with
      | some delegation =>
        let left := U128.saturating_sub delegation.amount amount
        if left = 0 then s.delete_delegation sender validator
        else s.set_delegation sender validator { delegation with amount := left }
      | none => s
    let account := s.account sender
    s.set_account sender { account with balance := U128.saturating_add account.balance amount }

variable [Crates]

/-- Staking side effects of a payload that the VM recognizes. -/
def replay_payload (tx : Transaction) (s : RpcState) : RpcState :=
  match StakingExecutor.decode tx.payload with
  | .ok op => s.replay_staking tx.sender op
  | .error _ => s

/-- The end of both `ingest_block`s: the block and its transactions are stored. -/
def store (s : RpcState) (block : Block) : RpcState :=
  block.body.transactions.foldl (fun s tx => s.store_transaction tx.hash tx) (s.store_block block)

/-- Storing a block leaves the accounts, the records and what is pending. -/
theorem store_frame (s : RpcState) (block : Block) :
    (s.store block).accounts = s.accounts ∧ (s.store block).validators = s.validators ∧
      (s.store block).delegations = s.delegations ∧ (s.store block).pending = s.pending := by
  have hfold : ∀ (txs : List Transaction) (s : RpcState),
      let s' := txs.foldl (fun s tx => s.store_transaction tx.hash tx) s
      s'.accounts = s.accounts ∧ s'.validators = s.validators ∧ s'.delegations = s.delegations ∧
        s'.pending = s.pending := by
    intro txs
    induction txs with
    | nil => exact fun _ => ⟨rfl, rfl, rfl, rfl⟩
    | cons tx txs ih => exact fun s => ih (s.store_transaction tx.hash tx)
  exact hfold block.body.transactions (s.store_block block)

end RpcState

namespace Testnet

variable [Crates]

omit [Crates] in
def ingest_transaction (s : RpcState) (tx : Transaction) : RpcState := s.replay id tx

omit [Crates] in
/-- The testnet replays into the accounts only. -/
theorem ingest_transaction_frame (s : RpcState) (tx : Transaction) :
    ∃ accounts, ingest_transaction s tx = { s with accounts } := by
  unfold ingest_transaction RpcState.replay
  dsimp only
  split
  · exact ⟨s.accounts, rfl⟩
  split
  · exact ⟨s.accounts, rfl⟩
  · exact ⟨_, rfl⟩

omit [Crates] in
theorem foldl_ingest_frame (txs : List Transaction) (s : RpcState) :
    ∃ accounts, txs.foldl ingest_transaction s = { s with accounts } := by
  induction txs generalizing s with
  | nil => exact ⟨s.accounts, rfl⟩
  | cons tx txs ih =>
    obtain ⟨first, hfirst⟩ := ingest_transaction_frame s tx
    obtain ⟨rest, hrest⟩ := ih { s with accounts := first }
    rw [List.foldl_cons, hfirst]
    exact ⟨rest, hrest⟩

/-- The function `ingest_block` of `testnet.rs`, as far as it goes to the RPC state. -/
def ingest_block (s : RpcState) (block : Block) : RpcState :=
  (block.body.transactions.foldl ingest_transaction s).store block

end Testnet

namespace Services

variable [Crates]

def ingest_transaction (s : RpcState) (tx : Transaction) : RpcState :=
  s.replay (RpcState.replay_payload tx) tx

/-- The function `ingest_block` of `services.rs`, as far as it goes to the RPC state. -/
def ingest_block (s : RpcState) (block : Block) : RpcState :=
  (block.body.transactions.foldl ingest_transaction s).store block

end Services

end Pemrix
