-- The state store (`pemrix-storage`). `StateBackend` is the trait, with the
-- in-memory backend as an instance, and `StateStore` keeps accounts, validator
-- records and delegations on top of any backend.
import Pemrix.Primitives

open Std

namespace Pemrix

inductive StorageError where
  | NotFound
  | Backend (message : String)
  | Serialization
  | StateRootMismatch
  deriving DecidableEq

abbrev RawEntry := Bytes × Bytes

/-- A storage backend. A method with `&mut self` gives its result and the new backend. -/
class StateBackend (B : Type) where
  get_account : B → Address → Except StorageError (Option Account)
  put_account : B → Address → Account → Except StorageError Unit × B
  delete_account : B → Address → Except StorageError Unit × B
  get_raw : B → Bytes → Except StorageError (Option Bytes)
  put_raw : B → Bytes → Bytes → Except StorageError Unit × B
  delete_raw : B → Bytes → Except StorageError Unit × B
  iter_raw_prefix : B → Bytes → Except StorageError (List RawEntry)
  state_root : B → Except StorageError Hash

/-! ## The in-memory backend -/

structure InMemoryBackend where
  accounts : ExtTreeMap Address Account
  raw : ExtTreeMap Bytes Bytes
  deriving DecidableEq

namespace InMemoryBackend

def new : InMemoryBackend := ⟨∅, ∅⟩

/-- The entries from the first key `≥ prefix` on, as long as they start with it. -/
def entries_with (b : InMemoryBackend) (pre : Bytes) : List RawEntry :=
  (b.raw.toList.dropWhile (fun e => compare e.1 pre = .lt)).takeWhile
    (fun e => pre.isPrefixOf e.1)

def hex_digit (n : Nat) : Char := if n < 10 then Char.ofNat (48 + n) else Char.ofNat (87 + n)

/-- What `hex::encode` gives: two lower-case digits for each byte. -/
def hex_encode (bytes : Bytes) : String :=
  String.ofList (bytes.flatMap fun b => [hex_digit (b.toNat / 16), hex_digit (b.toNat % 16)])

/-- The prefix `b"acc:"`. -/
def ACCOUNT_PREFIX : Bytes := [97, 99, 99, 58]

variable [Crates]

/-- All accounts and raw entries under their hex keys, as `state_root` collects them. -/
def snapshot (b : InMemoryBackend) : ExtTreeMap String Bytes :=
  let accounts := b.accounts.toList.foldl
    (fun m e => m.insert (hex_encode (ACCOUNT_PREFIX ++ e.1.as_bytes)) (encode e.2)) ∅
  b.raw.toList.foldl (fun m e => m.insert (hex_encode e.1) e.2) accounts

instance : StateBackend InMemoryBackend where
  get_account b address := .ok b.accounts[address]?
  put_account b address account :=
    (.ok (), { b with accounts := b.accounts.insert address account })
  delete_account b address := (.ok (), { b with accounts := b.accounts.erase address })
  get_raw b key := .ok b.raw[key]?
  put_raw b key value := (.ok (), { b with raw := b.raw.insert key value })
  delete_raw b key := (.ok (), { b with raw := b.raw.erase key })
  iter_raw_prefix b pre := .ok (b.entries_with pre)
  state_root b := .ok (Hash.hash_bytes (encode b.snapshot))

end InMemoryBackend

/-! ## The state store -/

structure StateStore (B : Type) where
  backend : B
  deriving DecidableEq

/-- The prefix `b"val:"`. -/
def VALIDATOR_PREFIX : Bytes := [118, 97, 108, 58]

def validator_key (address : Address) : Bytes := VALIDATOR_PREFIX ++ address.as_bytes

/-- The prefix `b"dlg:"`. -/
def DELEGATION_PREFIX : Bytes := [100, 108, 103, 58]

def delegation_key (delegator validator : Address) : Bytes :=
  DELEGATION_PREFIX ++ delegator.as_bytes ++ validator.as_bytes

/-- Thirty-two bytes as an array, `key[prefix.len()..].try_into()`. -/
def try_into (bytes : Bytes) : Option Bytes32 :=
  if h : bytes.toArray.size = 32 then some ⟨bytes.toArray, h⟩ else none

namespace StateStore

def new_in_memory : StateStore InMemoryBackend := ⟨InMemoryBackend.new⟩

variable {B : Type} [StateBackend B]

def get_account (s : StateStore B) (address : Address) : Except StorageError (Option Account) :=
  StateBackend.get_account s.backend address

def balance (s : StateStore B) (address : Address) : Except StorageError Balance :=
  (s.get_account address).map fun opt => opt.elim 0 (·.balance)

def nonce (s : StateStore B) (address : Address) : Except StorageError Nonce :=
  (s.get_account address).map fun opt => opt.elim 0 (·.nonce)

def set_account (s : StateStore B) (address : Address) (account : Account) :
    Except StorageError Unit × StateStore B :=
  let (r, b) := StateBackend.put_account s.backend address account
  (r, ⟨b⟩)

def state_root (s : StateStore B) : Except StorageError Hash :=
  StateBackend.state_root s.backend

/-- Read a raw entry and decode it. -/
def get_record {T : Type} [Serde T] (s : StateStore B) (key : Bytes) :
    Except StorageError (Option T) :=
  match StateBackend.get_raw s.backend key with
  | .error e => .error e
  | .ok none => .ok none
  | .ok (some bytes) =>
    match decode bytes with
    | some record => .ok (some record)
    | none => .error .Serialization

/-- Encode a record and write it under a raw key. -/
def set_record {T : Type} [Serde T] (s : StateStore B) (key : Bytes) (record : T) :
    Except StorageError Unit × StateStore B :=
  let (r, b) := StateBackend.put_raw s.backend key (encode record)
  (r, ⟨b⟩)

variable [Crates]

def validator_record (s : StateStore B) (address : Address) :
    Except StorageError (Option ValidatorRecord) :=
  s.get_record (validator_key address)

def set_validator_record (s : StateStore B) (address : Address) (record : ValidatorRecord) :
    Except StorageError Unit × StateStore B :=
  s.set_record (validator_key address) record

def delegation (s : StateStore B) (delegator validator : Address) :
    Except StorageError (Option Delegation) :=
  s.get_record (delegation_key delegator validator)

def set_delegation (s : StateStore B) (delegator validator : Address) (delegation : Delegation) :
    Except StorageError Unit × StateStore B :=
  s.set_record (delegation_key delegator validator) delegation

omit [Crates] in
def delete_delegation (s : StateStore B) (delegator validator : Address) :
    Except StorageError Unit × StateStore B :=
  let (r, b) := StateBackend.delete_raw s.backend (delegation_key delegator validator)
  (r, ⟨b⟩)

/-- The loop of `validator_records` over the raw entries: a key of another length is
skipped, and a record that does not decode ends the loop. -/
def validator_records_loop : List RawEntry → Except StorageError (List (Address × ValidatorRecord))
  | [] => .ok []
  | (key, value) :: rest =>
    if key.length ≠ VALIDATOR_PREFIX.length + 32 then validator_records_loop rest
    else
      match try_into (key.drop VALIDATOR_PREFIX.length) with
      | none => .error (.Backend "invalid validator key")
      | some bytes =>
        match decode value with
        | none => .error .Serialization
        | some record =>
          match validator_records_loop rest with
          | .error e => .error e
          | .ok records => .ok ((⟨bytes⟩, record) :: records)

def validator_records (s : StateStore B) :
    Except StorageError (List (Address × ValidatorRecord)) :=
  match StateBackend.iter_raw_prefix s.backend VALIDATOR_PREFIX with
  | .error e => .error e
  | .ok entries => validator_records_loop entries

end StateStore

end Pemrix
