-- The three ways into the pending list: the REST server, the gRPC service and the
-- faucet. The gRPC messages have no place for a key or a signature, and the service
-- checks neither.
import Pemrix.Rpc
import Pemrix.TextForms
import Pemrix.SerdeJson

open Std

namespace Pemrix

/-- The constructor `Transaction::transfer`. -/
def Transaction.transfer (sender recipient : Address) (amount : Balance) (nonce : Nonce)
    (fee : Balance) : Transaction :=
  { sender, recipient, amount, nonce, fee, public_key := [], signature := [], payload := [] }

/-! ## The REST server -/

inductive StatusCode where
  | OK
  | BAD_REQUEST
  | PAYMENT_REQUIRED
  | NOT_FOUND
  | CONFLICT
  | TOO_MANY_REQUESTS
  | INTERNAL_SERVER_ERROR
  deriving DecidableEq

/-- The payload is the transaction that is shown, `none` for `null`. -/
structure TransactionResponse where
  hash : Hash
  status : String
  payload : Option Transaction
  deriving DecidableEq

/-- What `serde_json::to_value(&tx).unwrap_or_default()` shows: the numbers of a value go up to
`u64::MAX` only. -/
def to_value (tx : Transaction) : Option Transaction :=
  if tx.amount.toNat < 2 ^ 64 ∧ tx.fee.toNat < 2 ^ 64 then some tx else none

namespace RpcServer

def transaction_handler (state : RpcState) (hash : String) :
    Except StatusCode TransactionResponse :=
  match Hash.from_str hash with
  | .error _ => .error .BAD_REQUEST
  | .ok hash =>
    match state.get_transaction hash with
    | none => .error .NOT_FOUND
    | some tx => .ok { hash, status := "confirmed", payload := to_value tx }

variable [Crates]

def validate_transaction (state : RpcState) (tx : Transaction) : Except StatusCode Hash :=
  if tx.public_key.length ≠ 32 ∨ tx.signature.length ≠ 64 then .error .BAD_REQUEST
  else
    let derived_address := Address.from_public_key_hash (Hash.hash_bytes tx.public_key)
    if derived_address ≠ tx.sender then .error .BAD_REQUEST
    else if ¬ Crates.ed25519_verify tx.public_key tx.signing_hash.as_bytes tx.signature then
      .error .BAD_REQUEST
    else
      let total := U128.saturating_add tx.amount tx.fee
      match state.get_account tx.sender with
      | some account =>
        if account.balance < total then .error .PAYMENT_REQUIRED
        else if account.nonce ≠ tx.nonce then .error .CONFLICT
        else .ok tx.hash
      | none => .error .PAYMENT_REQUIRED

def send_transaction_handler (state : RpcState) (tx : Transaction) :
    Except StatusCode TransactionResponse × RpcState :=
  match validate_transaction state tx with
  | .error e => (.error e, state)
  | .ok hash =>
    (.ok { hash, status := "pending", payload := none },
      (state.store_transaction hash tx).submit_transaction tx)

end RpcServer

/-! ## The gRPC service -/

inductive Code where
  | InvalidArgument
  | NotFound
  deriving DecidableEq

structure Status where
  code : Code
  message : String
  deriving DecidableEq

/-- The message `Transaction` of the protocol. -/
structure ProtoTransaction where
  sender : String
  recipient : String
  amount : String
  nonce : UInt64
  fee : String
  payload : Bytes
  deriving DecidableEq

namespace GrpcService

structure TransactionResponse where
  hash : String
  status : String
  transaction : Option ProtoTransaction
  deriving DecidableEq

structure SendTransactionResponse where
  hash : String
  status : String
  deriving DecidableEq

def parse_hash (s : String) : Except Status Hash :=
  (Hash.from_str s).mapError fun e => ⟨.InvalidArgument, "invalid hash: " ++ e⟩

def parse_address (s : String) : Except Status Address :=
  (Address.from_str s).mapError fun e => ⟨.InvalidArgument, "invalid address: " ++ e⟩

/-- An amount, with the name of its field in the error. -/
def parse_amount (field s : String) : Except Status U128 :=
  (U128.from_str s).mapError fun e => ⟨.InvalidArgument, "invalid " ++ field ++ ": " ++ e.to_string⟩

def transaction_to_proto (tx : Transaction) : ProtoTransaction where
  sender := tx.sender.to_string
  recipient := tx.recipient.to_string
  amount := U128.to_string tx.amount
  nonce := tx.nonce
  fee := U128.to_string tx.fee
  payload := tx.payload

def proto_to_transaction (proto : ProtoTransaction) : Except Status Transaction := do
  return {
    sender := ← parse_address proto.sender
    recipient := ← parse_address proto.recipient
    amount := ← parse_amount "amount" proto.amount
    nonce := proto.nonce
    fee := ← parse_amount "fee" proto.fee
    public_key := []
    signature := []
    payload := proto.payload }

def get_transaction (state : RpcState) (hash : String) : Except Status TransactionResponse := do
  let hash ← parse_hash hash
  match state.get_transaction hash with
  | none => throw ⟨.NotFound, "transaction " ++ hash.to_string ++ " not found"⟩
  | some tx =>
    return {
      hash := hash.to_string
      status := "confirmed"
      transaction := some (transaction_to_proto tx) }

variable [Crates]

def send_transaction (state : RpcState) (transaction : Option ProtoTransaction) :
    Except Status SendTransactionResponse × RpcState :=
  match transaction with
  | none => (.error ⟨.InvalidArgument, "transaction is required"⟩, state)
  | some proto_tx =>
    match proto_to_transaction proto_tx with
    | .error e => (.error e, state)
    | .ok tx =>
      let hash := tx.hash
      (.ok { hash := hash.to_string, status := "pending" },
        (state.store_transaction hash tx).submit_transaction tx)

end GrpcService

/-! ## The faucet -/

/-- The submitter into a local state. -/
structure LocalSubmitter where
  faucet_address : Address

namespace LocalSubmitter

def nonce (submitter : LocalSubmitter) (state : RpcState) : UInt64 :=
  match state.get_account submitter.faucet_address with
  | some account => account.nonce
  | none => 0

def submit [Crates] (state : RpcState) (transaction : Transaction) : Hash × RpcState :=
  let hash := transaction.hash
  (hash, (state.store_transaction hash transaction).submit_transaction transaction)

end LocalSubmitter

/-- The faucet, with the signing function of its secret key. -/
structure FaucetState where
  max_amount : U128
  cooldown_seconds : UInt64
  public_key : Bytes
  sign : Bytes → Option Bytes
  faucet_address : Address
  submitter : LocalSubmitter

structure FaucetResponse where
  success : Bool
  tx_hash : String
  message : String
  deriving DecidableEq

namespace FaucetService

/-- When an address last got tokens, in nanoseconds. -/
abbrev Cooldowns := ExtTreeMap Address Nat

variable [Crates]

/-- The transfer that the faucet signs. -/
def drip (faucet : FaucetState) (state : RpcState) (recipient : Address) (amount : U128) :
    Option Transaction :=
  let nonce := faucet.submitter.nonce state
  let tx := Transaction.transfer faucet.faucet_address recipient amount nonce 0
  let tx := { tx with public_key := faucet.public_key }
  (faucet.sign tx.signing_hash.as_bytes).map fun signature => { tx with signature }

/-- A request at the time `now`, whose tokens are sent at the time `sent`. -/
def request_handler (faucet : FaucetState) (state : RpcState) (cooldowns : Cooldowns)
    (address amount : String) (now sent : Nat) :
    Except StatusCode (StatusCode × FaucetResponse) × RpcState × Cooldowns :=
  match Address.from_str address with
  | .error _ => (.error .BAD_REQUEST, state, cooldowns)
  | .ok recipient =>
    match U128.from_str amount with
    | .error _ => (.error .BAD_REQUEST, state, cooldowns)
    | .ok amount =>
      if amount > faucet.max_amount then
        (.ok (.BAD_REQUEST, ⟨false, "", "amount exceeds maximum"⟩), state, cooldowns)
      else if cooldowns[recipient]?.any fun last =>
          now - last < faucet.cooldown_seconds.toNat * 10 ^ 9 then
        (.ok (.TOO_MANY_REQUESTS, ⟨false, "", "address is on cooldown"⟩), state, cooldowns)
      else
        match drip faucet state recipient amount with
        | none => (.error .INTERNAL_SERVER_ERROR, state, cooldowns)
        | some tx =>
          let (hash, state) := LocalSubmitter.submit state tx
          (.ok (.OK, ⟨true, hash.to_string, "tokens sent"⟩), state, cooldowns.insert recipient sent)

end FaucetService

/-! ## Two paths for one transaction -/

namespace GrpcService

/-- What is left of a transaction on its way through the protocol. -/
def stripped (tx : Transaction) : Transaction := { tx with public_key := [], signature := [] }

theorem proto_to_transaction_to_proto (tx : Transaction) :
    proto_to_transaction (transaction_to_proto tx) = .ok (stripped tx) := by
  unfold proto_to_transaction transaction_to_proto parse_address parse_amount
  simp only [Address.from_str_to_string, U128.from_str_to_string]
  rfl

variable [Crates]

theorem send_transaction_to_proto (s : RpcState) (tx : Transaction) :
    send_transaction s (some (transaction_to_proto tx)) =
      (.ok { hash := (stripped tx).hash.to_string, status := "pending" },
        (s.store_transaction (stripped tx).hash (stripped tx)).submit_transaction
          (stripped tx)) := by
  unfold send_transaction
  simp only [proto_to_transaction_to_proto]

/-- No block executor takes what the service appends. -/
theorem stripped_not_signed (tx : Transaction) :
    BlockExecutor.verify_signature (stripped tx) = .error .InvalidSignature := by
  have hkey : (stripped tx).public_key.length ≠ 32 := Nat.zero_ne_add_one 31
  unfold BlockExecutor.verify_signature
  rw [if_pos hkey]

end GrpcService

namespace RpcServer

variable [Crates]

theorem public_key_of_validate {s : RpcState} {tx : Transaction} {hash : Hash}
    (h : validate_transaction s tx = .ok hash) : tx.public_key.length = 32 := by
  by_contra hlen
  unfold validate_transaction at h
  rw [if_pos (Or.inl hlen)] at h
  cases h

end RpcServer

section Paths

open GrpcService (transaction_to_proto proto_to_transaction stripped)

variable [Crates]

/-- The two front ends do the same with a transaction: they append the same, they return the same
hash, and the gRPC service rejects what the REST server rejects. -/
structure PathsAgree (s : RpcState) (tx : Transaction) : Prop where
  pending : (GrpcService.send_transaction s (some (transaction_to_proto tx))).2.pending =
    (RpcServer.send_transaction_handler s tx).2.pending
  hash : ∀ r, (RpcServer.send_transaction_handler s tx).1 = .ok r →
    ∃ g, (GrpcService.send_transaction s (some (transaction_to_proto tx))).1 = .ok g ∧
      g.hash = r.hash.to_string
  rejected : (∃ e, (GrpcService.send_transaction s (some (transaction_to_proto tx))).1 = .error e) ↔
    ∃ e, RpcServer.validate_transaction s tx = .error e

theorem not_pathsAgree (s : RpcState) (tx : Transaction) : ¬ PathsAgree s tx := by
  rintro ⟨hpending, -, hrejected⟩
  rw [GrpcService.send_transaction_to_proto] at hpending hrejected
  rcases hvalid : RpcServer.validate_transaction s tx with e | hash
  · -- The REST server rejects it, and the gRPC service never does.
    obtain ⟨e', he'⟩ := hrejected.mpr ⟨e, hvalid⟩
    cases he'
  · -- The REST server takes it, so it has a key, and the gRPC service drops the key.
    have hkey := RpcServer.public_key_of_validate hvalid
    unfold RpcServer.send_transaction_handler at hpending
    rw [hvalid] at hpending
    have htx : stripped tx = tx := by
      simpa [RpcState.submit_transaction, RpcState.store_transaction] using hpending
    rw [← htx] at hkey
    cases hkey

/-- The front ends agree on no transaction in no state. The way through the protocol keeps a
transaction only if it has no key and no signature, and what the gRPC service appends is never
signed. -/
theorem paths_never_agree (s : RpcState) (tx : Transaction) :
    ¬ PathsAgree s tx ∧
      (proto_to_transaction (transaction_to_proto tx) = .ok tx ↔
        tx.public_key = [] ∧ tx.signature = []) ∧
      ∃ sent, (GrpcService.send_transaction s (some (transaction_to_proto tx))).2.pending =
          s.pending ++ [sent] ∧
        BlockExecutor.verify_signature sent = .error .InvalidSignature := by
  refine ⟨not_pathsAgree s tx, ?_, stripped tx, ?_, GrpcService.stripped_not_signed tx⟩
  · rw [GrpcService.proto_to_transaction_to_proto]
    constructor
    · intro h
      have htx : stripped tx = tx := Except.ok.inj h
      rw [← htx]
      exact ⟨rfl, rfl⟩
    · rintro ⟨hkey, hsignature⟩
      obtain ⟨sender, recipient, amount, nonce, fee, key, signature, payload⟩ := tx
      cases hkey
      cases hsignature
      rfl
  · rw [GrpcService.send_transaction_to_proto]
    rfl

end Paths

end Pemrix

namespace Pemrix.Concrete

/-- A state in which the payer has enough for the transfer. -/
def funded : RpcState :=
  RpcState.from_genesis ((∅ : ExtTreeMap Address Account).insert payer ⟨100, 0⟩)

theorem transfer_validates :
    RpcServer.validate_transaction funded transfer = .ok transfer.hash := by
  decide +kernel

/-- A signed transfer that the REST server takes: the gRPC service appends another transaction. -/
theorem transfer_paths_differ :
    RpcServer.validate_transaction funded transfer = .ok transfer.hash ∧
      ¬ PathsAgree funded transfer :=
  ⟨transfer_validates, not_pathsAgree funded transfer⟩

end Pemrix.Concrete
