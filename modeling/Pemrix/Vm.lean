-- The executors of `pemrix-vm`: the staking operations and the block executor
-- that consensus runs for each transaction. An executor changes the store also
-- when it ends with an error, so each one is a function from a machine to a
-- result and a new machine. The machine notes each `u128` operation on the way.
import Pemrix.Storage

open Std

namespace Pemrix

inductive VmError where
  | InsufficientBalance
  | InvalidNonce
  | OutOfGas
  | InvalidContract
  | InvalidSignature
  | Storage
  | UnknownOperation
  | Execution (message : String)
  deriving DecidableEq

def VmError.to_string : VmError → String
  | .InsufficientBalance => "insufficient balance"
  | .InvalidNonce => "invalid nonce"
  | .OutOfGas => "out of gas"
  | .InvalidContract => "invalid contract"
  | .InvalidSignature => "invalid signature"
  | .Storage => "storage error"
  | .UnknownOperation => "unknown operation"
  | .Execution message => "execution error: " ++ message

structure ExecutionResult where
  success : Bool
  gas_used : UInt64
  message : String
  deriving DecidableEq

/-! ## The machine -/

/-- One `u128` operation with its operands. -/
inductive ArithOp where
  | add (a b : U128)
  | sub (a b : U128)
  | checked_add (a b : U128)
  | saturating_sub (a b : U128)
  deriving DecidableEq

/-- The operation gives the exact result: no overflow, no underflow, no saturation. A debug
build panics at an `add` or a `sub` that is not exact. -/
def ArithOp.Exact : ArithOp → Prop
  | .add a b | .checked_add a b => a.toNat + b.toNat < 2 ^ 128
  | .sub a b | .saturating_sub a b => b ≤ a

structure Machine (B : Type) where
  store : StateStore B
  ops : List ArithOp

/-- Code that may fail with `ε` and runs on a machine. -/
abbrev Exec (B ε : Type) := ExceptT ε (StateM (Machine B))

namespace Exec

variable {B ε α : Type}

def read (f : StateStore B → Except StorageError α) : Exec B StorageError α :=
  ExceptT.mk fun m => (f m.store, m)

def write (f : StateStore B → Except StorageError Unit × StateStore B) :
    Exec B StorageError Unit :=
  ExceptT.mk fun m => ((f m.store).1, { m with store := (f m.store).2 })

/-- Note an operation. -/
def note (op : ArithOp) : Exec B ε Unit :=
  ExceptT.mk fun m => (.ok (), { m with ops := m.ops ++ [op] })

/-- What `.map_err(|_| VmError::Storage)?` does at a call of the store. -/
def or_storage (x : Exec B StorageError α) : Exec B VmError α :=
  x.adapt fun _ => .Storage

def add (a b : U128) : Exec B ε U128 := do
  note (.add a b)
  return a + b

def sub (a b : U128) : Exec B ε U128 := do
  note (.sub a b)
  return a - b

def saturating_sub (a b : U128) : Exec B ε U128 := do
  note (.saturating_sub a b)
  return U128.saturating_sub a b

def checked_add (a b : U128) : Exec B ε (Option U128) := do
  note (.checked_add a b)
  return U128.checked_add a b

end Exec

open Exec

variable {B : Type} [StateBackend B]

/-- Move `amount` to an address without touching the sender or the fee. -/
def StateStore.transfer_amount_only (address : Address) (amount : Balance) :
    Exec B StorageError Unit := do
  let recipient := (← read (·.get_account address)).getD default
  match ← checked_add recipient.balance amount with
  | none => throw (.Backend "balance overflow")
  | some balance => write (·.set_account address { recipient with balance })

/-! ## Staking operations -/

namespace StakingExecutor

def MIN_SELF_STAKE : Balance := 10000

def MIN_DELEGATION : Balance := 1

variable [Crates]

omit [StateBackend B] in
def decode (payload : Bytes) : Except VmError StakingOperation :=
  if payload.length < 2 ∨ payload.head? ≠ some 1 then .error .InvalidContract
  else
    match Pemrix.decode (payload.drop 1) with
    | some op => .ok op
    | none => .error .InvalidContract

def register (sender : Address) (consensus_pubkey : Bytes) (commission_bps : UInt16)
    (self_stake : Balance) : Exec B VmError ExecutionResult := do
  if consensus_pubkey.isEmpty then throw .InvalidContract
  if commission_bps > 10000 then throw .InvalidContract
  if self_stake < MIN_SELF_STAKE then throw .InvalidContract
  if (← or_storage (read (·.validator_record sender))).isSome then throw .InvalidContract
  let balance ← or_storage (read (·.balance sender))
  if balance < self_stake then throw .InsufficientBalance
  let account := (← or_storage (read (·.get_account sender))).getD default
  let rest ← sub account.balance self_stake
  or_storage (write (·.set_account sender { account with balance := rest }))
  let record := ValidatorRecord.new sender consensus_pubkey self_stake commission_bps
  or_storage (write (·.set_validator_record sender record))
  return ⟨true, 50000, "validator registered"⟩

def delegate (sender validator : Address) (amount : Balance) : Exec B VmError ExecutionResult := do
  if amount < MIN_DELEGATION then throw .InvalidContract
  let some record ← or_storage (read (·.validator_record validator)) | throw .InvalidContract
  if record.status ≠ .Active then throw .InvalidContract
  let balance ← or_storage (read (·.balance sender))
  if balance < amount then throw .InsufficientBalance
  let account := (← or_storage (read (·.get_account sender))).getD default
  let rest ← sub account.balance amount
  or_storage (write (·.set_account sender { account with balance := rest }))
  let delegated_stake ← add record.delegated_stake amount
  or_storage (write (·.set_validator_record validator { record with delegated_stake }))
  let delegation := (← or_storage (read (·.delegation sender validator))).getD default
  let total ← add delegation.amount amount
  or_storage (write (·.set_delegation sender validator { delegation with amount := total }))
  return ⟨true, 30000, "delegated"⟩

def undelegate (sender validator : Address) (amount : Balance) :
    Exec B VmError ExecutionResult := do
  let some delegation ← or_storage (read (·.delegation sender validator)) | throw .InvalidContract
  if delegation.amount < amount then throw .InsufficientBalance
  let some record ← or_storage (read (·.validator_record validator)) | throw .InvalidContract
  let delegated_stake ← saturating_sub record.delegated_stake amount
  or_storage (write (·.set_validator_record validator { record with delegated_stake }))
  let left ← sub delegation.amount amount
  if left = 0 then
    or_storage (write (·.delete_delegation sender validator))
  else
    or_storage (write (·.set_delegation sender validator { delegation with amount := left }))
  let account := (← or_storage (read (·.get_account sender))).getD default
  let balance ← add account.balance amount
  or_storage (write (·.set_account sender { account with balance }))
  return ⟨true, 30000, "undelegated"⟩

/-- The handler of each operation. -/
def handle (sender : Address) : StakingOperation → Exec B VmError ExecutionResult
  | .RegisterValidator consensus_pubkey commission_bps self_stake =>
    register sender consensus_pubkey commission_bps self_stake
  | .Delegate validator amount => delegate sender validator amount
  | .Undelegate validator amount => undelegate sender validator amount

def run (transaction : Transaction) : Exec B VmError ExecutionResult :=
  match decode transaction.payload with
  | .error e => throw e
  | .ok op => handle transaction.sender op

end StakingExecutor

/-! ## The block executor -/

namespace BlockExecutor

variable [Crates]

omit [StateBackend B] in
def verify_signature (transaction : Transaction) : Except VmError Unit :=
  if transaction.public_key.length ≠ 32 then .error .InvalidSignature
  else if transaction.signature.length ≠ 64 then .error .InvalidSignature
  else if (Hash.hash_bytes transaction.public_key).as_bytes ≠ transaction.sender.as_bytes then
    .error .InvalidSignature
  else if Crates.ed25519_verify transaction.public_key transaction.signing_hash.as_bytes
      transaction.signature then .ok ()
  else .error .InvalidSignature

/-- Deduct the fee and advance the nonce. -/
def charge (transaction : Transaction) : Exec B VmError Unit := do
  let sender := (← or_storage (read (·.get_account transaction.sender))).getD default
  let balance ← sub sender.balance transaction.fee
  or_storage (write (·.set_account transaction.sender
    { balance, nonce := sender.nonce + 1 }))

/-- Move the transfer amount from the sender to the recipient. The fee is already paid. -/
def native_transfer (transaction : Transaction) : Exec B VmError ExecutionResult := do
  if transaction.amount > 0 then
    let sender := (← or_storage (read (·.get_account transaction.sender))).getD default
    if sender.balance < transaction.amount then
      return ⟨false, 0, "insufficient balance for transfer"⟩
    let balance ← sub sender.balance transaction.amount
    or_storage (write (·.set_account transaction.sender { sender with balance }))
    or_storage (StateStore.transfer_amount_only transaction.recipient transaction.amount)
    return ⟨true, 21000, "ok"⟩
  else
    return ⟨true, 21000, "ok"⟩

/-- Dispatch on the first byte of the payload. -/
def dispatch (transaction : Transaction) : Exec B VmError ExecutionResult :=
  match transaction.payload with
  | [] => native_transfer transaction
  | first :: _ =>
    if first = 1 then StakingExecutor.run transaction
    else return ⟨false, 0, "invalid contract"⟩

def run (transaction : Transaction) : Exec B VmError ExecutionResult := do
  if let .error e := verify_signature transaction then throw e
  let sender_nonce ← or_storage (read (·.nonce transaction.sender))
  if sender_nonce ≠ transaction.nonce then return ⟨false, 0, "invalid nonce"⟩
  let sender_balance ← or_storage (read (·.balance transaction.sender))
  if sender_balance < transaction.fee then
    return ⟨false, 0, "insufficient balance for fee"⟩
  charge transaction
  dispatch transaction

end BlockExecutor

/-! ## One call of an executor -/

variable [Crates]

def StakingExecutor.execute (state : StateStore B) (transaction : Transaction) :
    Except VmError ExecutionResult × StateStore B :=
  let (r, m) := (StakingExecutor.run transaction).run ⟨state, []⟩
  (r, m.store)

/-- The `u128` operations that `StakingExecutor.execute` does on the way. -/
def StakingExecutor.operations (state : StateStore B) (transaction : Transaction) : List ArithOp :=
  ((StakingExecutor.run transaction).run ⟨state, []⟩).2.ops

def BlockExecutor.execute (state : StateStore B) (transaction : Transaction) :
    Except VmError ExecutionResult × StateStore B :=
  let (r, m) := (BlockExecutor.run transaction).run ⟨state, []⟩
  (r, m.store)

/-- The `u128` operations that `BlockExecutor.execute` does on the way. -/
def BlockExecutor.operations (state : StateStore B) (transaction : Transaction) : List ArithOp :=
  ((BlockExecutor.run transaction).run ⟨state, []⟩).2.ops

end Pemrix
