-- The HTTP client of the SDK against the REST server. What the client reads is what
-- the server has, and what it sends is what the server takes, but for the blocks and
-- transactions with an amount from `2^64` on: those it cannot read back.
import Pemrix.Confirmed
import Pemrix.Rest

open Std

namespace Pemrix

/-- The error of a call, with its text where the SDK writes it. -/
inductive SdkError where
  | Rpc (message : Option String)
  deriving DecidableEq

/-- A status code as a text. -/
def display_status (status : Nat) : String :=
  toString status ++ " " ++
    match status with
    | 400 => "Bad Request"
    | 402 => "Payment Required"
    | 404 => "Not Found"
    | 409 => "Conflict"
    | 413 => "Payload Too Large"
    | 422 => "Unprocessable Entity"
    | 429 => "Too Many Requests"
    | 500 => "Internal Server Error"
    | _ => "<unknown status code>"

namespace HttpClient

/-- A value out of the body of a response. -/
def json {α : Type} (f : JsonForm α) (response : Response) : Except SdkError α :=
  (f.from_slice response.body).elim (.error (.Rpc none)) .ok

/-- A value out of a JSON value. -/
def from_value {α : Type} (f : JsonForm α) (payload : Json) : Except SdkError α :=
  (f.from_json payload).elim (.error (.Rpc none)) .ok

def is_success (status : Nat) : Bool := 200 ≤ status && status < 300

/-! ## The calls, with the server as a function -/

section Calls

variable (send : Request → Response)

def get (path : List String) : Response := send ⟨.GET, path, []⟩

def balance (address : Address) : Except SdkError Balance := do
  let response ← json Forms.balance_response
    (get send ["v1", "accounts", address.to_string, "balance"])
  return response.2

def nonce (address : Address) : Except SdkError Nonce := do
  let response ← json Forms.nonce_response
    (get send ["v1", "accounts", address.to_string, "nonce"])
  return response.2

def block_by_height (height : UInt64) : Except SdkError Block :=
  let response := get send ["v1", "blocks", toString height.toNat]
  if is_success response.status then do
    let body ← json Forms.block_response response
    from_value Forms.block body.payload
  else
    .error (.Rpc (some ("block not found or server error: " ++ display_status response.status)))

def transaction (hash : Hash) : Except SdkError (Option Transaction) :=
  let response := get send ["v1", "transactions", hash.to_string]
  if is_success response.status then do
    let body ← json Forms.transaction_response response
    let transaction ← from_value Forms.transaction body.2.2
    return some transaction
  else if response.status = 404 then .ok none
  else .error (.Rpc (some ("transaction query failed: " ++ display_status response.status)))

end Calls

/-- The request of `send_transaction`. -/
def post_transaction (transaction : Transaction) : Request :=
  ⟨.POST, ["v1", "transactions"], Forms.send_transaction_request.to_vec transaction⟩

/-- The call `send_transaction`, with the server that changes its state. The status is not
looked at. -/
def send_transaction {S : Type} (send : Request → S → Response × S) (transaction : Transaction)
    (state : S) : Except SdkError Hash × S :=
  let answer := send (post_transaction transaction) state
  ((json Forms.transaction_response answer.1).map fun r => r.1, answer.2)

/-! ## Reading -/

variable [Crates]

/-- The server in a state. -/
def serve (state : RpcState) (request : Request) : Response := (RpcServer.router state request).1

omit [Crates] in
@[simp] theorem json_respond_ok {α : Type} (f : JsonForm α) (a : α) :
    json f (respond f (.ok a)) = .ok a := by
  unfold json respond
  rw [f.from_slice_to_vec]
  rfl

omit [Crates] in
theorem parse_address_to_string (a : Address) :
    RpcServer.parse_address a.to_string = .ok a := by
  unfold RpcServer.parse_address
  rw [Address.from_str_to_string]
  rfl

theorem balance_serve (s : RpcState) (a : Address) :
    balance (serve s) a = .ok ((s.get_account a).elim 0 (·.balance)) := by
  have hget : get (serve s) ["v1", "accounts", a.to_string, "balance"] =
      respond Forms.balance_response (RpcServer.balance_handler s a.to_string) := rfl
  unfold balance
  rw [hget, RpcServer.balance_handler, parse_address_to_string]
  dsimp only [bind, Except.bind, pure, Except.pure]
  rw [json_respond_ok]

theorem nonce_serve (s : RpcState) (a : Address) :
    nonce (serve s) a = .ok ((s.get_account a).elim 0 (·.nonce)) := by
  have hget : get (serve s) ["v1", "accounts", a.to_string, "nonce"] =
      respond Forms.nonce_response (RpcServer.nonce_handler s a.to_string) := rfl
  unfold nonce
  rw [hget, RpcServer.nonce_handler, parse_address_to_string]
  dsimp only [bind, Except.bind, pure, Except.pure]
  rw [json_respond_ok]

omit [Crates] in
theorem from_value_transaction (tx : Transaction) :
    from_value Forms.transaction ((to_value tx).elim .null Forms.transaction.to_json) =
      if tx.Shown then .ok tx else .error (.Rpc none) := by
  have hpayload : (to_value tx).elim .null Forms.transaction.to_json =
      Forms.transaction.to_value_or_default tx := by
    rw [to_value_eq]
    cases to_value tx with
    | none => rfl
    | some tx => rfl
  unfold from_value
  rw [hpayload, JsonForm.from_to_value_or_default _ rfl]
  by_cases h : tx.Shown
  · simp [h]
  · simp [h]

omit [Crates] in
theorem from_value_block (b : Block) :
    from_value Forms.block (Forms.block.to_value_or_default b) =
      if ∀ tx ∈ b.body.transactions, tx.Shown then .ok b else .error (.Rpc none) := by
  unfold from_value
  rw [JsonForm.from_to_value_or_default _ rfl, Forms.small_block]
  by_cases h : ∀ tx ∈ b.body.transactions, tx.Shown
  · rw [if_pos (decide_eq_true h), if_pos h]
    rfl
  · rw [if_neg (by simpa using h), if_neg h]
    rfl

theorem transaction_serve (s : RpcState) (hash : Hash) :
    transaction (serve s) hash =
      match s.get_transaction hash with
      | none => .ok none
      | some tx => if tx.Shown then .ok (some tx) else .error (.Rpc none) := by
  have hget : get (serve s) ["v1", "transactions", hash.to_string] =
      respond Forms.transaction_response
        ((RpcServer.transaction_handler s hash.to_string).map RpcServer.wire) := rfl
  unfold transaction
  rw [hget, RpcServer.transaction_handler, Hash.from_str_to_string]
  dsimp only
  cases s.get_transaction hash with
  | none => rfl
  | some tx =>
    have hsuccess : is_success 200 = true := rfl
    dsimp only [Except.map, RpcServer.wire, bind, Except.bind, pure, Except.pure]
    change (if is_success 200 = true then _ else _) = _
    rw [if_pos hsuccess, json_respond_ok]
    dsimp only
    rw [from_value_transaction]
    by_cases h : tx.Shown
    · rw [if_pos h, if_pos h]
    · rw [if_neg h, if_neg h]

theorem block_serve (s : RpcState) (height : UInt64) :
    block_by_height (serve s) height =
      match s.get_block_by_height height with
      | none => .error (.Rpc (some "block not found or server error: 404 Not Found"))
      | some b =>
        if ∀ tx ∈ b.body.transactions, tx.Shown then .ok b else .error (.Rpc none) := by
  have hget : get (serve s) ["v1", "blocks", toString height.toNat] =
      respond Forms.block_response
        (RpcServer.block_by_height_handler s (toString height.toNat)) := by
    simp only [get, serve, RpcServer.router]
  unfold block_by_height
  rw [hget, RpcServer.block_by_height_handler, u64_from_str_toString]
  dsimp only [bind, Except.bind, pure, Except.pure]
  cases s.get_block_by_height height with
  | none =>
    have hfail : is_success 404 = false := rfl
    have htext : "block not found or server error: " ++ display_status 404 =
        "block not found or server error: 404 Not Found" := by decide
    rw [← htext]
    rfl
  | some b =>
    have hsuccess : is_success 200 = true := rfl
    change (if is_success 200 = true then _ else _) = _
    rw [if_pos hsuccess, json_respond_ok]
    exact from_value_block b

/-- A transaction with a larger amount or fee has no value in the response. -/
theorem get_transaction_large {s : RpcState} {hash : Hash} {tx : Transaction}
    (htx : s.get_transaction hash = some tx) (hlarge : ¬ tx.Shown) :
    get (serve s) ["v1", "transactions", hash.to_string] =
      ⟨200, Forms.transaction_response.to_vec (hash, "confirmed", .null)⟩ := by
  have hget : get (serve s) ["v1", "transactions", hash.to_string] =
      respond Forms.transaction_response
        ((RpcServer.transaction_handler s hash.to_string).map RpcServer.wire) := rfl
  have hvalue : to_value tx = none := if_neg hlarge
  rw [hget, RpcServer.transaction_handler, Hash.from_str_to_string]
  dsimp only
  rw [htx]
  dsimp only [Except.map, RpcServer.wire]
  rw [hvalue]
  rfl

theorem get_block_large {s : RpcState} {height : UInt64} {b : Block}
    (hb : s.get_block_by_height height = some b)
    (hlarge : ¬ ∀ tx ∈ b.body.transactions, tx.Shown) :
    get (serve s) ["v1", "blocks", toString height.toNat] =
      ⟨200, Forms.block_response.to_vec ⟨b.hash, height, .null⟩⟩ := by
  have hget : get (serve s) ["v1", "blocks", toString height.toNat] =
      respond Forms.block_response
        (RpcServer.block_by_height_handler s (toString height.toNat)) := by
    simp only [get, serve, RpcServer.router]
  have hvalue : Forms.block.to_value_or_default b = .null := by
    unfold JsonForm.to_value_or_default JsonForm.to_value
    rw [Forms.small_block, if_neg (by simpa using hlarge)]
    rfl
  rw [hget, RpcServer.block_by_height_handler, u64_from_str_toString]
  dsimp only [bind, Except.bind, pure, Except.pure]
  rw [hb]
  dsimp only
  rw [hvalue]
  rfl

/-- What the client reads of the server in a state: the accounts, with 0 for the addresses that
are not there, and the transactions and blocks that are there, if every amount and fee of them is
below `2^64`. The others come as null in a response that is no error. -/
theorem client_reads_the_state (s : RpcState) :
    (∀ address, balance (serve s) address = .ok ((s.get_account address).elim 0 (·.balance)) ∧
      nonce (serve s) address = .ok ((s.get_account address).elim 0 (·.nonce))) ∧
    (∀ hash, transaction (serve s) hash =
      match s.get_transaction hash with
      | none => .ok none
      | some tx => if tx.Shown then .ok (some tx) else .error (.Rpc none)) ∧
    (∀ height, block_by_height (serve s) height =
      match s.get_block_by_height height with
      | none => .error (.Rpc (some "block not found or server error: 404 Not Found"))
      | some b =>
        if ∀ tx ∈ b.body.transactions, tx.Shown then .ok b else .error (.Rpc none)) ∧
    (∀ hash tx, s.get_transaction hash = some tx → ¬ tx.Shown →
      get (serve s) ["v1", "transactions", hash.to_string] =
        ⟨200, Forms.transaction_response.to_vec (hash, "confirmed", .null)⟩) ∧
    ∀ height b, s.get_block_by_height height = some b →
      (¬ ∀ tx ∈ b.body.transactions, tx.Shown) →
      get (serve s) ["v1", "blocks", toString height.toNat] =
        ⟨200, Forms.block_response.to_vec ⟨b.hash, height, .null⟩⟩ :=
  ⟨fun address => ⟨balance_serve s address, nonce_serve s address⟩, transaction_serve s,
    block_serve s, fun _ _ => get_transaction_large, fun _ _ => get_block_large⟩

/-! ## Sending -/

/-- The server's answer to a transaction of the client. -/
theorem router_post (s : RpcState) (tx : Transaction)
    (hsize : (post_transaction tx).body.length ≤ body_limit) :
    RpcServer.router s (post_transaction tx) =
      (respond Forms.transaction_response
        ((RpcServer.send_transaction_handler s tx).1.map RpcServer.wire),
        (RpcServer.send_transaction_handler s tx).2) := by
  have hread : Json.read (post_transaction tx).body =
      some (Forms.send_transaction_request.to_json tx) := Json.read_write _
  unfold post_transaction at hsize hread ⊢
  unfold RpcServer.router
  dsimp only at hsize hread ⊢
  rw [if_neg (Nat.not_lt.mpr hsize), hread]
  dsimp only
  rw [Forms.send_transaction_request.from_to]
  rfl

/-- The call `send_transaction` on the server in a state. -/
def send (tx : Transaction) (s : RpcState) : Except SdkError Hash × RpcState :=
  send_transaction (fun request s => RpcServer.router s request) tx s

theorem send_of_large {s : RpcState} {tx : Transaction}
    (hlarge : body_limit < (post_transaction tx).body.length) :
    send tx s = (.error (.Rpc none), s) := by
  have hroute : RpcServer.router s (post_transaction tx) = (⟨413, []⟩, s) := by
    show (if body_limit < (post_transaction tx).body.length then _ else _) = _
    rw [if_pos hlarge]
  unfold send send_transaction
  dsimp only
  rw [hroute]
  rfl

theorem send_of_refused {s : RpcState} {tx : Transaction} {e : StatusCode}
    (hsize : (post_transaction tx).body.length ≤ body_limit)
    (he : RpcServer.validate_transaction s tx = .error e) :
    send tx s = (.error (.Rpc none), s) := by
  have hsent : RpcServer.send_transaction_handler s tx = (.error e, s) := by
    unfold RpcServer.send_transaction_handler
    rw [he]
  unfold send send_transaction
  dsimp only
  rw [router_post s tx hsize, hsent]
  rfl

theorem send_of_valid {s : RpcState} {tx : Transaction} {hash : Hash}
    (hsize : (post_transaction tx).body.length ≤ body_limit)
    (hvalid : RpcServer.validate_transaction s tx = .ok hash) :
    send tx s = (.ok tx.hash, s.submitted tx) := by
  have hhash := validate_hash hvalid
  have hsent : RpcServer.send_transaction_handler s tx =
      (.ok ⟨tx.hash, "pending", none⟩, s.submitted tx) := by
    unfold RpcServer.send_transaction_handler
    rw [hvalid, hhash]
    rfl
  unfold send send_transaction
  dsimp only
  rw [router_post s tx hsize, hsent]
  dsimp only [Except.map]
  rw [json_respond_ok]
  rfl

/-- What becomes of a transaction that the client sends: one that is too long or not valid is
refused, with the state as it was. Another one is accepted under its hash, it is at the end of the
pending list, and the client can read it back if and only if its amount and its fee are below
`2^64`. -/
theorem client_sends_a_transaction (s : RpcState) (tx : Transaction) :
    (body_limit < (post_transaction tx).body.length → send tx s = (.error (.Rpc none), s)) ∧
    ((post_transaction tx).body.length ≤ body_limit →
      (∀ e, RpcServer.validate_transaction s tx = .error e →
        send tx s = (.error (.Rpc none), s)) ∧
      ∀ hash, RpcServer.validate_transaction s tx = .ok hash →
        (send tx s).1 = .ok tx.hash ∧ (send tx s).2.pending = s.pending ++ [tx] ∧
          (send tx s).2.accounts = s.accounts ∧
          (transaction (serve (send tx s).2) tx.hash = .ok (some tx) ↔ tx.Shown)) := by
  refine ⟨send_of_large, fun hsize => ⟨fun e => send_of_refused hsize, fun hash hvalid => ?_⟩⟩
  rw [send_of_valid hsize hvalid]
  refine ⟨rfl, rfl, rfl, ?_⟩
  have hget : (s.submitted tx).get_transaction tx.hash = some tx := by
    show (s.transactions.insert tx.hash tx)[tx.hash]? = some tx
    rw [ExtTreeMap.getElem?_insert_self]
  dsimp only
  rw [transaction_serve, hget]
  dsimp only
  by_cases h : tx.Shown
  · rw [if_pos h]
    exact iff_of_true rfl h
  · rw [if_neg h]
    refine iff_of_false ?_ h
    intro heq
    cases heq

end HttpClient

end Pemrix
