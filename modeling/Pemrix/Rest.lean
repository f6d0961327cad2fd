-- The REST server down to the bytes: the routes, the path parameters and the JSON
-- texts of the requests and the responses. What a response shows of a block or a
-- transaction is a JSON value, and that has no numbers from `2^64` on.
import Pemrix.Canonical
import Pemrix.FrontEnds
import Pemrix.Hybrid
import Pemrix.JsonValue
import Pemrix.Lookups

open Std
open JsonForm (struct small_below small_below_of_le small_seq small_struct small_via)
open JsonForm.Fields (first last)

namespace Pemrix

inductive Method where
  | GET
  | POST
  deriving DecidableEq

/-- The path is given by its segments. -/
structure Request where
  method : Method
  path : List String
  body : Bytes

structure Response where
  status : Nat
  body : Bytes
  deriving DecidableEq

namespace StatusCode

def as_u16 : StatusCode → Nat
  | OK => 200
  | BAD_REQUEST => 400
  | PAYMENT_REQUIRED => 402
  | NOT_FOUND => 404
  | CONFLICT => 409
  | TOO_MANY_REQUESTS => 429
  | INTERNAL_SERVER_ERROR => 500

end StatusCode

/-! ## The texts of the requests and responses -/

structure BlockResponse where
  hash : Hash
  height : UInt64
  payload : Json

namespace Forms

/-- A `serde_json::Value`. -/
def value : JsonForm Json := ⟨id, some, fun _ => rfl⟩

def balance_response : JsonForm (Address × Balance) :=
  struct (first "address" address (last "balance" u128))

def nonce_response : JsonForm (Address × Nonce) :=
  struct (first "address" address (last "nonce" u64))

def block_response : JsonForm BlockResponse :=
  (struct (first "hash" hash (first "height" u64 (last "payload" value)))).via
    (fun r => (r.hash, r.height, r.payload)) (fun p => some ⟨p.1, p.2.1, p.2.2⟩) fun _ => rfl

/-- The fields of a `TransactionResponse`, the payload as it is in the text. -/
def transaction_response : JsonForm (Hash × String × Json) :=
  struct (first "hash" hash (first "status" string (last "payload" value)))

def validator_response : JsonForm (Address × ValidatorRecord) :=
  struct (first "address" address (last "validator" validator_record))

def delegation_response : JsonForm (Address × Address × Delegation) :=
  struct (first "delegator" address (first "validator" address (last "delegation" delegation)))

def send_transaction_request : JsonForm Transaction := struct (last "transaction" transaction)

end Forms

/-! ## What a JSON value shows -/

/-- The amounts of a transaction that a JSON value has room for. -/
def Transaction.Shown (tx : Transaction) : Prop := tx.amount.toNat < 2 ^ 64 ∧ tx.fee.toNat < 2 ^ 64

instance : DecidablePred Transaction.Shown := fun tx =>
  inferInstanceAs (Decidable (tx.amount.toNat < 2 ^ 64 ∧ tx.fee.toNat < 2 ^ 64))

namespace Forms

@[simp] theorem small_u64 (n : UInt64) : (u64.to_json n).small = true :=
  small_below_of_le (by decide) n

@[simp] theorem small_u128 (n : U128) : (u128.to_json n).small = decide (n.toNat < 2 ^ 64) :=
  small_below n

@[simp] theorem small_bytes (b : Bytes) : (bytes.to_json b).small = true := by
  unfold bytes
  rw [small_seq, List.all_eq_true]
  intro x _
  exact small_below_of_le (by decide) x

@[simp] theorem small_bytes32 (b : Bytes32) : (bytes32.to_json b).small = true := by
  unfold bytes32
  rw [small_via, small_bytes]

@[simp] theorem small_hash (h : Hash) : (hash.to_json h).small = true := rfl

@[simp] theorem small_address (a : Address) : (address.to_json a).small = true := rfl

@[simp] theorem small_transaction (tx : Transaction) :
    (transaction.to_json tx).small = decide tx.Shown := by
  unfold transaction
  rw [small_via, small_struct, Bool.eq_iff_iff, decide_eq_true_eq]
  simp [Transaction.Shown]

@[simp] theorem small_header (h : BlockHeader) : (header.to_json h).small = true := by
  unfold header
  rw [small_via, small_struct]
  simp

theorem small_block (b : Block) :
    (block.to_json b).small = decide (∀ tx ∈ b.body.transactions, tx.Shown) := by
  have hbody : (body.to_json b.body).small = decide (∀ tx ∈ b.body.transactions, tx.Shown) := by
    unfold body
    rw [small_via, small_struct, Bool.eq_iff_iff, decide_eq_true_eq]
    simp
  unfold block
  rw [small_via, small_struct]
  simp [hbody]

end Forms

/-- What a transaction shows is its JSON value, if it has one. -/
theorem to_value_eq (tx : Transaction) :
    Forms.transaction.to_value_or_default tx =
      match to_value tx with
      | some tx => Forms.transaction.to_json tx
      | none => .null := by
  unfold JsonForm.to_value_or_default JsonForm.to_value to_value
  by_cases h : tx.amount.toNat < 2 ^ 64 ∧ tx.fee.toNat < 2 ^ 64
  · have hshown : tx.Shown := h
    rw [if_pos (by simpa using hshown), if_pos h]
    rfl
  · have hshown : ¬ tx.Shown := h
    rw [if_neg (by simpa using hshown), if_neg h]
    rfl

/-! ## The routes -/

/-- A result as a response. An error has no text. -/
def respond {α : Type} (f : JsonForm α) : Except StatusCode α → Response
  | .ok a => ⟨200, f.to_vec a⟩
  | .error e => ⟨e.as_u16, []⟩

/-- A number in a path. -/
def u64_from_str (s : String) : Except StatusCode UInt64 :=
  match U128.from_str s with
  | .error _ => .error .BAD_REQUEST
  | .ok n => if n.toNat < 2 ^ 64 then .ok (UInt64.ofNat n.toNat) else .error .BAD_REQUEST

theorem u64_from_str_toString (n : UInt64) : u64_from_str (toString n.toNat) = .ok n := by
  have hsize : n.toNat < 2 ^ 64 := n.toNat_lt_size
  have hfits : n.toNat < 2 ^ 128 := by omega
  have hread : U128.from_str (toString n.toNat) = .ok (BitVec.ofNat 128 n.toNat) := by
    have h := U128.from_str_to_string (BitVec.ofNat 128 n.toNat)
    rwa [U128.to_string, BitVec.toNat_ofNat, Nat.mod_eq_of_lt hfits] at h
  unfold u64_from_str
  rw [hread]
  dsimp only
  rw [BitVec.toNat_ofNat, Nat.mod_eq_of_lt hfits, if_pos hsize, UInt64.ofNat_toNat]

/-- The largest body that is read. -/
def body_limit : Nat := 2097152

namespace RpcServer

def block_raw_handler (state : RpcState) (height : String) : Except StatusCode Block := do
  (state.get_block_by_height (← u64_from_str height)).elim (.error .NOT_FOUND) .ok

variable [Crates]

def block_by_height_handler (state : RpcState) (height : String) :
    Except StatusCode BlockResponse := do
  let height ← u64_from_str height
  match state.get_block_by_height height with
  | none => throw .NOT_FOUND
  | some block => return ⟨block.hash, height, Forms.block.to_value_or_default block⟩

def block_by_hash_handler (state : RpcState) (hash : String) : Except StatusCode BlockResponse :=
  match Hash.from_str hash with
  | .error _ => .error .BAD_REQUEST
  | .ok hash =>
    match state.get_block_by_hash hash with
    | none => .error .NOT_FOUND
    | some block => .ok ⟨hash, block.header.height, Forms.block.to_value_or_default block⟩

omit [Crates] in
/-- An address in a path. -/
def parse_address (address : String) : Except StatusCode Address :=
  (Address.from_str address).mapError fun _ => .BAD_REQUEST

def balance_handler (state : RpcState) (address : String) :
    Except StatusCode (Address × Balance) := do
  let address ← parse_address address
  return (address, (state.get_account address).elim 0 (·.balance))

def nonce_handler (state : RpcState) (address : String) : Except StatusCode (Address × Nonce) := do
  let address ← parse_address address
  return (address, (state.get_account address).elim 0 (·.nonce))

def validator_handler (state : RpcState) (address : String) :
    Except StatusCode (Address × ValidatorRecord) := do
  let address ← parse_address address
  (state.get_validator address).elim (.error .NOT_FOUND) fun validator => .ok (address, validator)

def delegation_handler (state : RpcState) (delegator validator : String) :
    Except StatusCode (Address × Address × Delegation) := do
  let delegator ← parse_address delegator
  let validator ← parse_address validator
  (state.get_delegation delegator validator).elim (.error .NOT_FOUND) fun delegation =>
    .ok (delegator, validator, delegation)

/-- A `TransactionResponse` with the JSON value of its payload. -/
def wire (r : TransactionResponse) : Hash × String × Json :=
  (r.hash, r.status, r.payload.elim .null Forms.transaction.to_json)

/-- The server's answer to a request, and its state after it. -/
def router (state : RpcState) (request : Request) : Response × RpcState :=
  match request.method, request.path with
  | .GET, ["v1", "blocks", "raw", height] =>
    (respond Forms.block (block_raw_handler state height), state)
  | .GET, ["v1", "blocks", height] =>
    (respond Forms.block_response (block_by_height_handler state height), state)
  | .GET, ["v1", "blocks", "hash", hash] =>
    (respond Forms.block_response (block_by_hash_handler state hash), state)
  | .GET, ["v1", "transactions", hash] =>
    (respond Forms.transaction_response ((transaction_handler state hash).map wire), state)
  | .GET, ["v1", "accounts", address, "balance"] =>
    (respond Forms.balance_response (balance_handler state address), state)
  | .GET, ["v1", "accounts", address, "nonce"] =>
    (respond Forms.nonce_response (nonce_handler state address), state)
  | .GET, ["v1", "validators", address] =>
    (respond Forms.validator_response (validator_handler state address), state)
  | .GET, ["v1", "delegations", delegator, validator] =>
    (respond Forms.delegation_response (delegation_handler state delegator validator), state)
  | .POST, ["v1", "transactions"] =>
    if body_limit < request.body.length then (⟨413, []⟩, state)
    else
      match Json.read request.body with
      | none => (⟨400, []⟩, state)
      | some j =>
        match Forms.send_transaction_request.from_json j with
        | none => (⟨422, []⟩, state)
        | some transaction =>
          let sent := send_transaction_handler state transaction
          (respond Forms.transaction_response (sent.1.map wire), sent.2)
  | _, _ => (⟨404, []⟩, state)

end RpcServer

end Pemrix
