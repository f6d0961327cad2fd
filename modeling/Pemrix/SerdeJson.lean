-- The crates as they are: BLAKE3, and the serde_json texts of the primitive
-- types, with the fields in the order of the declarations. The reader takes the
-- compact text that the writer gives.
import Pemrix.Codec
import Pemrix.Blake3
import Pemrix.Vm

open Std

namespace Pemrix

namespace SerdeJson

/-! ## Numbers, byte vectors and texts -/

def text (s : String) : Bytes := s.toByteArray.data.toList

def byte : Codec UInt8 :=
  .below (2 ^ 8) UInt8.toNat UInt8.ofNat fun b => ⟨b.toNat_lt, UInt8.ofNat_toNat⟩

def number_u16 : Codec UInt16 :=
  .below (2 ^ 16) UInt16.toNat UInt16.ofNat fun n => ⟨n.toNat_lt, UInt16.ofNat_toNat⟩

def number_u64 : Codec UInt64 :=
  .below (2 ^ 64) UInt64.toNat UInt64.ofNat fun n => ⟨n.toNat_lt, UInt64.ofNat_toNat⟩

def number_u128 : Codec U128 :=
  .below (2 ^ 128) BitVec.toNat (BitVec.ofNat 128) fun n =>
    ⟨n.isLt, BitVec.eq_of_toNat_eq (by rw [BitVec.toNat_ofNat, Nat.mod_eq_of_lt n.isLt])⟩

/-- The format of `u128_string`: the number as a text. -/
def u128_string : Codec U128 := (number_u128.before (text "\"")).after (text "\"")

theorem byte_starts (b : UInt8) (s : Bytes) : byte.write b ≠ 93 :: s ∧ byte.write b ≠ [] := by
  refine ⟨fun h => ?_, Codec.digits_ne_nil b.toNat⟩
  have hmem : (93 : UInt8) ∈ byte.write b := by
    rw [h]
    exact List.mem_cons_self
  exact absurd (Codec.digit_of_mem_digits hmem).2 (by decide)

/-- A `Vec<u8>`: an array of numbers. -/
def byte_vec : Codec Bytes := .sequence 91 93 byte byte_starts

theorem try_into_toList (v : Bytes32) : try_into v.toList = some v := by
  unfold try_into
  rw [dif_pos (by rw [List.size_toArray, Vector.length_toList])]
  rfl

/-- A `[u8; 32]`: an array of numbers too. -/
def byte_array : Codec Bytes32 := byte_vec.via Vector.toList try_into try_into_toList

/-- No value goes on with a closing brace. -/
theorem ends_brace : Codec.Ends (text "\x7d") ∧ text "\x7d" ≠ [] := by decide +kernel

def hash : Codec Hash :=
  (((Codec.hex 32).before (text "\"")).after (text "\"")).via Hash.bytes (some ⟨·⟩) fun _ => rfl

def address : Codec Address :=
  (((Codec.hex 32).before (text "\"")).after (text "\"px")).via Address.bytes
    (some ⟨·⟩) fun _ => rfl

def bool : Codec Bool :=
  .word (fun b => text (if b then "true" else "false")) [true, false] (by decide)
    (by decide +kernel)

def status_text : ValidatorStatus → Bytes
  | .Active => text "\"Active\""
  | .Jailed => text "\"Jailed\""
  | .Unbonding => text "\"Unbonding\""

def status : Codec ValidatorStatus :=
  .word status_text [.Active, .Jailed, .Unbonding] (by intro a; cases a <;> decide)
    (by intro a b; cases a <;> cases b <;> decide +kernel)

/-! ## Records -/

def account : Codec Account :=
  (((number_u128.both (text ",\"nonce\":") number_u64).before (text "\x7d")).after
    (text "\x7b\"balance\":")).via
    (fun a => (a.balance, a.nonce)) (fun (balance, nonce) => some ⟨balance, nonce⟩) fun _ => rfl

def delegation : Codec Delegation :=
  (((number_u128.both (text ",\"unbonding\":")
      (bool.both (text ",\"unbond_end_height\":") number_u64)).before (text "\x7d")).after
    (text "\x7b\"amount\":")).via
    (fun d => (d.amount, d.unbonding, d.unbond_end_height))
    (fun (amount, unbonding, height) => some ⟨amount, unbonding, height⟩) fun _ => rfl

def validator_record : Codec ValidatorRecord :=
  (((address.both (text ",\"consensus_pubkey\":")
      (byte_vec.both (text ",\"self_stake\":")
      (number_u128.both (text ",\"delegated_stake\":")
      (number_u128.both (text ",\"commission_bps\":")
      (number_u16.both (text ",\"status\":")
      (status.both (text ",\"jailed_until\":")
      (number_u64.both (text ",\"pending_rewards\":") number_u128))))))).before (text "\x7d")).after
    (text "\x7b\"address\":")).via
    (fun r => (r.address, r.consensus_pubkey, r.self_stake, r.delegated_stake, r.commission_bps,
      r.status, r.jailed_until, r.pending_rewards))
    (fun (address, key, self, delegated, commission, status, jailed, rewards) =>
      some ⟨address, key, self, delegated, commission, status, jailed, rewards⟩) fun _ => rfl

def transaction : Codec Transaction :=
  (((address.both (text ",\"recipient\":")
      (address.both (text ",\"amount\":")
      (number_u128.both (text ",\"nonce\":")
      (number_u64.both (text ",\"fee\":")
      (number_u128.both (text ",\"public_key\":")
      (byte_vec.both (text ",\"signature\":")
      (byte_vec.both (text ",\"payload\":") byte_vec))))))).before (text "\x7d")).after
    (text "\x7b\"sender\":")).via
    (fun t =>
      (t.sender, t.recipient, t.amount, t.nonce, t.fee, t.public_key, t.signature, t.payload))
    (fun (sender, recipient, amount, nonce, fee, key, signature, payload) =>
      some ⟨sender, recipient, amount, nonce, fee, key, signature, payload⟩) fun _ => rfl

theorem transaction_starts (tx : Transaction) (s : Bytes) :
    transaction.write tx ≠ 93 :: s ∧ transaction.write tx ≠ [] := by
  constructor
  · intro h
    cases h
  · intro h
    cases h

def transactions : Codec (List Transaction) := .sequence 91 93 transaction transaction_starts

def header : Codec BlockHeader :=
  (((number_u64.both (text ",\"timestamp\":")
      (number_u64.both (text ",\"previous_hash\":")
      (hash.both (text ",\"state_root\":")
      (hash.both (text ",\"tx_root\":")
      (hash.both (text ",\"proposer\":") byte_array))))).before (text "\x7d")).after
    (text "\x7b\"height\":")).via
    (fun h => (h.height, h.timestamp, h.previous_hash, h.state_root, h.tx_root, h.proposer))
    (fun (height, timestamp, previous_hash, state_root, tx_root, proposer) =>
      some ⟨height, timestamp, previous_hash, state_root, tx_root, proposer⟩) fun _ => rfl

-- The variants of a staking operation are told apart by the field `kind`.

def register : Codec (Bytes × UInt16 × Balance) :=
  ((byte_vec.both (text ",\"commission_bps\":")
    (number_u16.both (text ",\"self_stake\":") u128_string)).before (text "\x7d")).after
    (text "\x7b\"kind\":\"RegisterValidator\",\"consensus_pubkey\":")

def stake_move (start : Bytes) : Codec (Address × Balance) :=
  ((address.both (text ",\"amount\":") u128_string).before (text "\x7d")).after start

def DELEGATE : Bytes := text "\x7b\"kind\":\"Delegate\",\"validator\":"

def UNDELEGATE : Bytes := text "\x7b\"kind\":\"Undelegate\",\"validator\":"

def delegate_or_undelegate : Codec (Address × Balance ⊕ Address × Balance) :=
  .either (stake_move DELEGATE) (stake_move UNDELEGATE) fun p s => by
    show (stake_move DELEGATE).read ((UNDELEGATE ++ _) ++ s) = none
    rw [List.append_assoc]
    exact Codec.read_after_eq_none (by decide +kernel) _ _

def staking : Codec StakingOperation :=
  (Codec.either register delegate_or_undelegate fun p s => by
      cases p with
      | inl p =>
        show register.read ((DELEGATE ++ _) ++ s) = none
        rw [List.append_assoc]
        exact Codec.read_after_eq_none (by decide +kernel) _ _
      | inr p =>
        show register.read ((UNDELEGATE ++ _) ++ s) = none
        rw [List.append_assoc]
        exact Codec.read_after_eq_none (by decide +kernel) _ _).via
    (fun
      | .RegisterValidator key commission self => .inl (key, commission, self)
      | .Delegate validator amount => .inr (.inl (validator, amount))
      | .Undelegate validator amount => .inr (.inr (validator, amount)))
    (fun
      | .inl (key, commission, self) => some (.RegisterValidator key commission self)
      | .inr (.inl (validator, amount)) => some (.Delegate validator amount)
      | .inr (.inr (validator, amount)) => some (.Undelegate validator amount))
    fun op => by cases op <;> rfl

/-! ## The snapshot -/

/-- A byte of a text as serde_json writes it. -/
def escape (b : UInt8) : Bytes :=
  if b = 34 ∨ b = 92 then [92, b]
  else if b = 8 then text "\\b"
  else if b = 9 then text "\\t"
  else if b = 10 then text "\\n"
  else if b = 12 then text "\\f"
  else if b = 13 then text "\\r"
  else if b < 32 then text "\\u00" ++ Codec.write_hex [b]
  else [b]

def entry (e : String × Bytes) : Bytes :=
  text "\"" ++ (text e.1).flatMap escape ++ text "\":" ++ byte_vec.write e.2

/-- A map with text keys: an object, its keys in order. -/
def snapshot (m : ExtTreeMap String Bytes) : Bytes :=
  text "\x7b" ++ List.intercalate (text ",") (m.toList.map entry) ++ text "\x7d"

end SerdeJson

/-! ## The instance -/

@[reducible] def Codec.serde {T : Type} (c : Codec T) : Serde T where
  to_vec := c.write
  from_slice := c.read_all

/-- The crates. The verifier knows the signatures in the list: a public key, a message and
its signature. -/
@[reducible] def crates (signed : List (Bytes × Bytes × Bytes)) : Crates where
  blake3 := Blake3.hash
  ed25519_verify key message signature := (key, message, signature) ∈ signed
  serde_account := Codec.serde SerdeJson.account
  serde_delegation := Codec.serde SerdeJson.delegation
  serde_validator_record := Codec.serde SerdeJson.validator_record
  serde_transaction := Codec.serde SerdeJson.transaction
  serde_transactions := Codec.serde SerdeJson.transactions
  serde_header := Codec.serde SerdeJson.header
  serde_staking := Codec.serde SerdeJson.staking
  serialize_snapshot := ⟨SerdeJson.snapshot⟩

theorem lawful_crates (signed : List (Bytes × Bytes × Bytes)) : @LawfulRecords (crates signed) :=
  @LawfulRecords.mk (crates signed) (Codec.read_all_write SerdeJson.validator_record)
    (Codec.read_all_write SerdeJson.delegation)

/-! ## One signed transfer -/

namespace Concrete

/-- An address with one byte in all places. -/
def addr (n : UInt8) : Address := ⟨Vector.replicate 32 n⟩

/-- An Ed25519 public key. -/
def key : Bytes :=
  [215, 90, 152, 1, 130, 177, 10, 183, 213, 75, 254, 211, 201, 100, 7, 58, 14, 225, 114, 243,
    218, 166, 35, 37, 175, 2, 26, 104, 247, 7, 81, 26]

/-- The address of the key. -/
def payer : Address :=
  ⟨#v[108, 49, 4, 18, 104, 244, 113, 96, 156, 121, 245, 242, 219, 204, 56, 228, 164, 171, 47, 77,
    65, 97, 9, 164, 224, 159, 207, 80, 253, 15, 0, 98]⟩

/-- The hash that the signature of `transfer` covers. -/
def signed_hash : Bytes :=
  [230, 244, 142, 72, 27, 169, 208, 78, 19, 134, 143, 215, 4, 157, 76, 184, 67, 50, 156, 161,
    89, 171, 156, 200, 44, 49, 11, 120, 136, 173, 17, 51]

/-- The signature of the key over the hash. -/
def signature : Bytes :=
  [165, 224, 209, 175, 126, 245, 111, 63, 22, 163, 249, 121, 114, 225, 69, 184, 44, 134, 182,
    85, 98, 93, 178, 19, 121, 229, 185, 190, 215, 38, 59, 68, 147, 127, 20, 248, 9, 178, 104,
    190, 130, 58, 8, 108, 65, 209, 32, 39, 205, 131, 127, 16, 15, 143, 123, 186, 255, 182, 101,
    109, 63, 211, 198, 2]

/-- A transfer of 5 with a fee of 1. -/
def transfer : Transaction :=
  { sender := payer, recipient := addr 9, amount := 5, nonce := 0, fee := 1, public_key := key,
    signature, payload := [] }

scoped instance : Crates := crates [(key, signed_hash, signature)]

scoped instance : LawfulRecords := lawful_crates [(key, signed_hash, signature)]

example : BlockExecutor.verify_signature transfer = .ok () := by decide +kernel

end Concrete

end Pemrix

/-! ## One signed registration -/

namespace Pemrix.Registration

open Concrete (key payer)

/-- The hash that the signature of `register` covers. -/
def signed_hash : Bytes :=
  [133, 208, 241, 145, 240, 153, 2, 61, 67, 182, 112, 16, 185, 33, 101, 49, 18, 5, 202, 246,
    95, 157, 125, 106, 193, 183, 227, 197, 210, 182, 93, 134]

/-- The signature of the key over the hash. -/
def signature : Bytes :=
  [191, 186, 169, 21, 233, 221, 80, 109, 102, 18, 31, 103, 182, 246, 171, 189, 39, 171, 235,
    85, 92, 73, 118, 0, 151, 41, 150, 231, 138, 251, 3, 194, 32, 215, 134, 155, 86, 246, 9, 47,
    146, 235, 39, 0, 178, 220, 183, 106, 216, 174, 222, 128, 21, 150, 250, 1, 199, 38, 165, 67,
    84, 100, 52, 10]

/-- The payload of a registration with the least stake of an active validator. -/
def payload : Bytes :=
  1 :: SerdeJson.staking.write (.RegisterValidator [7] 500 100000000000000)

/-- A registration with a fee of 1. -/
def register : Transaction :=
  { sender := payer, recipient := payer, amount := 0, nonce := 0, fee := 1, public_key := key,
    signature, payload }

/-- The payer can just pay the stake and the fee. -/
def staking : ExtTreeMap Address Account :=
  (∅ : ExtTreeMap Address Account).insert payer ⟨100000000000101, 0⟩

scoped instance : Crates := crates [(key, signed_hash, signature)]

scoped instance : LawfulRecords := lawful_crates [(key, signed_hash, signature)]

example : BlockExecutor.verify_signature register = .ok () := by decide +kernel

end Pemrix.Registration

namespace Pemrix.SmallStake

open Concrete (key payer)

/-- The hash that the signature of `register` covers. -/
def signed_hash : Bytes :=
  [220, 1, 137, 103, 65, 95, 175, 247, 247, 65, 8, 140, 65, 199, 118, 245, 153, 107, 42, 105,
    58, 85, 104, 228, 73, 17, 105, 52, 63, 10, 60, 133]

/-- The signature of the key over the hash. -/
def signature : Bytes :=
  [203, 62, 56, 90, 237, 227, 142, 25, 90, 31, 86, 138, 147, 35, 119, 36, 58, 254, 20, 195, 205,
    111, 234, 112, 168, 52, 139, 57, 106, 213, 213, 10, 184, 58, 199, 164, 72, 35, 201, 103, 186,
    162, 176, 83, 103, 125, 239, 194, 150, 240, 255, 151, 61, 212, 130, 64, 151, 190, 221, 158,
    35, 177, 45, 8]

/-- The payload of a registration with the least stake that the executor takes. -/
def payload : Bytes := 1 :: SerdeJson.staking.write (.RegisterValidator [7] 5000 10000)

/-- A registration with a fee of 1. -/
def register : Transaction :=
  { sender := payer, recipient := payer, amount := 0, nonce := 0, fee := 1, public_key := key,
    signature, payload }

scoped instance : Crates := crates [(key, signed_hash, signature)]

scoped instance : LawfulRecords := lawful_crates [(key, signed_hash, signature)]

example : BlockExecutor.verify_signature register = .ok () := by decide +kernel

end Pemrix.SmallStake
