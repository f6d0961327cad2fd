-- The primitive types of the chain (`pemrix-primitives`): hashes, addresses,
-- accounts, staking records, transactions and blocks. What lies outside the
-- repository (BLAKE3, Ed25519 and serde_json) comes in as the class `Crates`.
import Mathlib

open Std

namespace Pemrix

/-! ## Bytes and machine integers -/

abbrev Bytes := List UInt8

/-- A 32-byte array, `[u8; 32]`. -/
abbrev Bytes32 := Vector UInt8 32

/-- The type `u128`. Plain `+` and `-` wrap, as they do in the release build. -/
abbrev U128 := BitVec 128

abbrev Balance := U128

abbrev Nonce := UInt64

namespace U128

def MAX : U128 := BitVec.allOnes 128

def saturating_sub (a b : U128) : U128 := if a < b then 0 else a - b

def saturating_add (a b : U128) : U128 := if a.toNat + b.toNat < 2 ^ 128 then a + b else MAX

def checked_add (a b : U128) : Option U128 :=
  if a.toNat + b.toNat < 2 ^ 128 then some (a + b) else none

theorem toNat_sub {a b : U128} (h : b ≤ a) : (a - b).toNat = a.toNat - b.toNat :=
  BitVec.toNat_sub_of_le h

theorem toNat_add {a b : U128} (h : a.toNat + b.toNat < 2 ^ 128) :
    (a + b).toNat = a.toNat + b.toNat := by
  rw [BitVec.toNat_add, Nat.mod_eq_of_lt h]

theorem saturating_sub_of_le {a b : U128} (h : b ≤ a) : saturating_sub a b = a - b := by
  rw [saturating_sub, if_neg (BitVec.not_lt.mpr h)]

theorem saturating_add_of_lt {a b : U128} (h : a.toNat + b.toNat < 2 ^ 128) :
    saturating_add a b = a + b := by
  rw [saturating_add, if_pos h]

theorem toNat_max : MAX.toNat = 2 ^ 128 - 1 := by decide

theorem toNat_saturating_add (a b : U128) :
    (saturating_add a b).toNat = min (a.toNat + b.toNat) (2 ^ 128 - 1) := by
  unfold saturating_add
  split
  · rename_i h
    rw [toNat_add h]
    omega
  · rw [toNat_max]
    omega

end U128

/-! ## Hash and Address -/

structure Hash where
  bytes : Bytes32
  deriving DecidableEq

instance : Inhabited Hash := ⟨⟨Vector.replicate 32 0⟩⟩

def Hash.as_bytes (h : Hash) : Bytes := h.bytes.toList

structure Address where
  bytes : Bytes32
  deriving DecidableEq

instance : Inhabited Address := ⟨⟨Vector.replicate 32 0⟩⟩

def Address.from_public_key_hash (hash : Hash) : Address := ⟨hash.bytes⟩

def Address.as_bytes (a : Address) : Bytes := a.bytes.toList

/-- The derived `Ord` of `Address`: the bytes, from the first on. -/
instance : Ord Address := ⟨compareOn Address.bytes⟩

instance : TransOrd Address := inferInstanceAs (TransCmp (compareOn Address.bytes))

instance : LawfulEqOrd Address where
  eq_of_compare {a b} h := by
    have hb : a.bytes = b.bytes := LawfulEqOrd.eq_of_compare h
    cases a; cases b
    cases hb
    rfl

instance ordProd {α β : Type} [Ord α] [Ord β] : Ord (α × β) := lexOrd

instance transOrdProd {α β : Type} [Ord α] [Ord β] [TransOrd α] [TransOrd β] : TransOrd (α × β) :=
  inferInstanceAs (@TransOrd (α × β) lexOrd)

instance lawfulEqOrdProd {α β : Type} [Ord α] [Ord β] [LawfulEqOrd α] [LawfulEqOrd β] :
    LawfulEqOrd (α × β) :=
  inferInstanceAs (@LawfulEqOrd (α × β) lexOrd)

/-! ## Accounts and staking records -/

structure Account where
  balance : Balance
  nonce : Nonce
  deriving DecidableEq

instance : Inhabited Account := ⟨⟨0, 0⟩⟩

structure Delegation where
  amount : Balance
  unbonding : Bool
  unbond_end_height : UInt64
  deriving DecidableEq

instance : Inhabited Delegation := ⟨⟨0, false, 0⟩⟩

inductive ValidatorStatus where
  | Active
  | Jailed
  | Unbonding
  deriving DecidableEq

structure ValidatorRecord where
  address : Address
  consensus_pubkey : Bytes
  self_stake : Balance
  delegated_stake : Balance
  commission_bps : UInt16
  status : ValidatorStatus
  jailed_until : UInt64
  pending_rewards : Balance
  deriving DecidableEq

/-- A new active record, with no delegation yet. -/
def ValidatorRecord.new (address : Address) (consensus_pubkey : Bytes) (self_stake : Balance)
    (commission_bps : UInt16) : ValidatorRecord :=
  { address, consensus_pubkey, self_stake, delegated_stake := 0, commission_bps,
    status := .Active, jailed_until := 0, pending_rewards := 0 }

def ValidatorRecord.total_stake (r : ValidatorRecord) : Balance :=
  U128.saturating_add r.self_stake r.delegated_stake

/-! ## Transactions and blocks -/

structure Transaction where
  sender : Address
  recipient : Address
  amount : Balance
  nonce : Nonce
  fee : Balance
  public_key : Bytes
  signature : Bytes
  payload : Bytes
  deriving DecidableEq

/-- A copy of the transaction with the signature cleared: the form that is signed. -/
def Transaction.unsigned (tx : Transaction) : Transaction := { tx with signature := [] }

structure BlockHeader where
  height : UInt64
  timestamp : UInt64
  previous_hash : Hash
  state_root : Hash
  tx_root : Hash
  proposer : Bytes32
  deriving DecidableEq

structure BlockBody where
  transactions : List Transaction
  deriving DecidableEq

structure Block where
  header : BlockHeader
  body : BlockBody
  deriving DecidableEq

/-- Operations in a staking payload (`StakingOperation` of `pemrix-vm`). -/
inductive StakingOperation where
  | RegisterValidator (consensus_pubkey : Bytes) (commission_bps : UInt16) (self_stake : Balance)
  | Delegate (validator : Address) (amount : Balance)
  | Undelegate (validator : Address) (amount : Balance)
  deriving DecidableEq

/-! ## The crates outside the repository -/

/-- How serde_json writes a type. -/
class Serialize (T : Type) where
  to_vec : T → Bytes

/-- How serde_json writes a type and reads it back. -/
class Serde (T : Type) extends Serialize T where
  from_slice : Bytes → Option T

/-- The third-party functions that the modelled code calls. -/
class Crates where
  /-- The function `blake3::hash`. -/
  blake3 : Bytes → Bytes32
  /-- What `Ed25519Scheme::verify` says of a public key, a message and a signature. -/
  ed25519_verify : Bytes → Bytes → Bytes → Bool
  serde_account : Serde Account
  serde_delegation : Serde Delegation
  serde_validator_record : Serde ValidatorRecord
  serde_transaction : Serde Transaction
  serde_transactions : Serde (List Transaction)
  serde_header : Serde BlockHeader
  serde_staking : Serde StakingOperation
  /-- The string-keyed byte map that `state_root` writes. -/
  serialize_snapshot : Serialize (ExtTreeMap String Bytes)

variable [Crates]

instance : Serde Account := Crates.serde_account
instance : Serde Delegation := Crates.serde_delegation
instance : Serde ValidatorRecord := Crates.serde_validator_record
instance : Serde Transaction := Crates.serde_transaction
instance : Serde (List Transaction) := Crates.serde_transactions
instance : Serde BlockHeader := Crates.serde_header
instance : Serde StakingOperation := Crates.serde_staking
instance : Serialize (ExtTreeMap String Bytes) := Crates.serialize_snapshot

omit [Crates] in
/-- The function `encoding::encode`. -/
def encode {T : Type} [Serialize T] (value : T) : Bytes := Serialize.to_vec value

omit [Crates] in
/-- The function `encoding::decode`. The error text is dropped by every caller. -/
def decode {T : Type} [Serde T] (bytes : Bytes) : Option T := Serde.from_slice bytes

/-- Reading back what serde_json wrote gives the value again. The records kept in the
store rely on it. -/
class LawfulRecords : Prop where
  validator_record : ∀ r : ValidatorRecord, decode (encode r) = some r
  delegation : ∀ d : Delegation, decode (encode d) = some d

def Hash.hash_bytes (bytes : Bytes) : Hash := ⟨Crates.blake3 bytes⟩

/-- The hash of a block covers its header only. -/
def Block.hash (block : Block) : Hash := Hash.hash_bytes (encode block.header)

def Transaction.hash (tx : Transaction) : Hash := Hash.hash_bytes (encode tx.unsigned)

def Transaction.signing_hash (tx : Transaction) : Hash := tx.hash

end Pemrix
