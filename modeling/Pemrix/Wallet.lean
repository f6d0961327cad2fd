-- The wallet of the SDK and its transaction builder. What a wallet signs, the block
-- executor and the REST server verify, and a transfer always fits into a request.
import Pemrix.HttpClient
import Pemrix.Transfers

open Std

namespace Pemrix

/-! ## Signing -/

/-- `Ed25519Scheme::sign`, over the signatures that the crate makes with a key of 32 bytes. -/
def Ed25519Scheme.sign (ed25519_sign : Bytes → Bytes → Bytes) (secret : SecretKey)
    (message : Bytes) : Except CryptoError Signature :=
  if secret.bytes.length ≠ 32 then .error .InvalidKey
  else .ok ⟨ed25519_sign secret.bytes message⟩

structure TransactionBuilder where
  sender : Address
  recipient : Address
  amount : Balance
  nonce : Nonce
  fee : Balance
  payload : Bytes

namespace TransactionBuilder

/-- Every field has a method of its name that sets it. -/
def new : TransactionBuilder := ⟨default, default, 0, 0, 0, []⟩

def build (b : TransactionBuilder) : Transaction where
  sender := b.sender
  recipient := b.recipient
  amount := b.amount
  nonce := b.nonce
  fee := b.fee
  public_key := []
  signature := []
  payload := b.payload

/-- A failure to sign is a panic. -/
def sign [Crates] (ed25519_sign : Bytes → Bytes → Bytes) (b : TransactionBuilder)
    (keypair : KeyPair) : Option Transaction :=
  let tx := { b.build with public_key := keypair.public_key.bytes }
  match Ed25519Scheme.sign ed25519_sign keypair.secret tx.signing_hash.as_bytes with
  | .error _ => none
  | .ok signature => some { tx with signature := signature.bytes }

end TransactionBuilder

/-- A key pair with the address that it has. -/
structure Wallet [Crates] where
  keypair : KeyPair
  address : Address
  derived : address = Address.from_public_key_hash (Hash.hash_bytes keypair.public_key.bytes)

namespace Wallet

variable [Crates]

def from_keypair (keypair : KeyPair) : Wallet where
  keypair
  address := Address.from_public_key_hash (Hash.hash_bytes keypair.public_key.bytes)
  derived := rfl

variable (ed25519_sign : Bytes → Bytes → Bytes) (wallet : Wallet)

def transfer (recipient : Address) (amount : Balance) (nonce : Nonce) (fee : Balance) :
    Option Transaction :=
  { TransactionBuilder.new with sender := wallet.address, recipient, amount, nonce, fee }.sign
    ed25519_sign wallet.keypair

/-- The keys and the signatures have their lengths, and the signatures verify. -/
structure Lawful : Prop where
  secret : wallet.keypair.secret.bytes.length = 32
  public_key : wallet.keypair.public_key.bytes.length = 32
  signature : ∀ message, (ed25519_sign wallet.keypair.secret.bytes message).length = 64
  verifies : ∀ message, Crates.ed25519_verify wallet.keypair.public_key.bytes message
    (ed25519_sign wallet.keypair.secret.bytes message) = true

end Wallet

/-! ## What is signed verifies -/

variable [Crates] {ed25519_sign : Bytes → Bytes → Bytes} {wallet : Wallet}

/-- The signature covers the transaction with the key, and not itself. -/
theorem signing_hash_signed (tx : Transaction) (signature : Bytes) :
    { tx with signature }.signing_hash = tx.signing_hash := rfl

namespace Wallet

theorem Lawful.sign (h : wallet.Lawful ed25519_sign) {b : TransactionBuilder}
    (hsender : b.sender = wallet.address) :
    ∃ signature : Bytes, signature.length = 64 ∧
      b.sign ed25519_sign wallet.keypair =
        some { b.build with public_key := wallet.keypair.public_key.bytes, signature } ∧
      BlockExecutor.verify_signature
        { b.build with public_key := wallet.keypair.public_key.bytes, signature } = .ok () := by
  have hsign : ∀ message, Ed25519Scheme.sign ed25519_sign wallet.keypair.secret message =
      .ok ⟨ed25519_sign wallet.keypair.secret.bytes message⟩ := by
    intro message
    unfold Ed25519Scheme.sign
    rw [if_neg (not_not.mpr h.secret)]
  let tx := { b.build with public_key := wallet.keypair.public_key.bytes }
  refine ⟨ed25519_sign wallet.keypair.secret.bytes tx.signing_hash.as_bytes, h.signature _, ?_, ?_⟩
  · unfold TransactionBuilder.sign
    dsimp only
    rw [hsign]
  · rw [verify_signature_ok_iff]
    refine ⟨h.public_key, h.signature _, ?_, ?_⟩
    · dsimp only [TransactionBuilder.build]
      rw [hsender]
      exact wallet.derived.symm
    · rw [signing_hash_signed tx]
      exact h.verifies _

/-- A transfer of a lawful wallet. -/
structure IsTransfer (wallet : Wallet) (recipient : Address) (amount : Balance) (nonce : Nonce)
    (fee : Balance) (tx : Transaction) : Prop where
  sender : tx.sender = wallet.address
  recipient : tx.recipient = recipient
  amount : tx.amount = amount
  nonce : tx.nonce = nonce
  fee : tx.fee = fee
  payload : tx.payload = []
  verifies : BlockExecutor.verify_signature tx = .ok ()

theorem Lawful.transfer (h : wallet.Lawful ed25519_sign) (recipient : Address) (amount : Balance)
    (nonce : Nonce) (fee : Balance) :
    ∃ tx, wallet.transfer ed25519_sign recipient amount nonce fee = some tx ∧
      wallet.IsTransfer recipient amount nonce fee tx := by
  obtain ⟨signature, -, hsign, hverifies⟩ := h.sign
    (b := { TransactionBuilder.new with sender := wallet.address, recipient, amount, nonce, fee })
    rfl
  exact ⟨_, hsign, rfl, rfl, rfl, rfl, rfl, rfl, hverifies⟩

end Wallet

/-! ## A transfer fits into a request -/

namespace Forms

open Json

omit [Crates] in
theorem length_write_bytes (bytes : Bytes) :
    (write (Forms.bytes.to_json bytes)).length ≤ 4 * bytes.length + 2 := by
  refine (length_write_array_le (k := 3) ?_).trans_eq ?_
  · intro j hj
    obtain ⟨b, -, rfl⟩ := List.mem_map.mp hj
    have hb := b.toNat_lt
    exact length_write_number_le (by decide) (show b.toNat < 10 ^ 3 by omega)
  · rw [List.length_map]

omit [Crates] in
theorem length_write_address (a : Address) :
    (write (Forms.address.to_json a)).length ≤ 1586 := by
  have hlength : a.to_string.length = 66 := by
    have hbytes : ∀ bytes : Bytes, (InMemoryBackend.hex_encode bytes).length =
        2 * bytes.length := by
      intro bytes
      unfold InMemoryBackend.hex_encode
      rw [String.length_ofList, List.length_flatMap]
      simp [Nat.mul_comm]
    unfold Address.to_string
    rw [String.length_append, hbytes, a.as_bytes_length]
    rfl
  have hstring := length_write_string_le a.to_string
  rw [hlength] at hstring
  exact hstring

omit [Crates] in
theorem length_write_u128 (n : U128) : (write (Forms.u128.to_json n)).length ≤ 39 := by
  have hn := n.isLt
  exact length_write_number_le (by decide) (show n.toNat < 10 ^ 39 by omega)

omit [Crates] in
theorem length_write_u64 (n : UInt64) : (write (Forms.u64.to_json n)).length ≤ 20 := by
  have hn := n.toNat_lt
  exact length_write_number_le (by decide) (show n.toNat < 10 ^ 20 by omega)

end Forms

open Json in
omit [Crates] in
/-- The request with a transaction that the server may verify, and with no payload. -/
theorem HttpClient.transfer_fits {tx : Transaction} (hkey : tx.public_key.length = 32)
    (hsignature : tx.signature.length = 64) (hpayload : tx.payload = []) :
    (post_transaction tx).body.length ≤ body_limit := by
  have hvalues : ∀ f ∈ ["sender", "recipient", "amount", "nonce", "fee", "public_key", "signature",
      "payload"].zip [Forms.address.to_json tx.sender, Forms.address.to_json tx.recipient,
      Forms.u128.to_json tx.amount, Forms.u64.to_json tx.nonce, Forms.u128.to_json tx.fee,
      Forms.bytes.to_json tx.public_key, Forms.bytes.to_json tx.signature,
      Forms.bytes.to_json tx.payload], f.1.length ≤ 10 ∧ (write f.2).length ≤ 2000 := by
    have hbytes : ∀ bytes : Bytes, bytes.length ≤ 64 →
        (write (Forms.bytes.to_json bytes)).length ≤ 2000 :=
      fun bytes hle => (Forms.length_write_bytes bytes).trans (by omega)
    have haddress := fun a => (Forms.length_write_address a).trans (show 1586 ≤ 2000 by decide)
    have hu128 := fun n => (Forms.length_write_u128 n).trans (show 39 ≤ 2000 by decide)
    have hu64 := fun n => (Forms.length_write_u64 n).trans (show 20 ≤ 2000 by decide)
    simp only [List.zip_cons_cons, List.zip_nil_left, List.forall_mem_cons]
    exact ⟨⟨by decide, haddress _⟩, ⟨by decide, haddress _⟩, ⟨by decide, hu128 _⟩,
      ⟨by decide, hu64 _⟩, ⟨by decide, hu128 _⟩, ⟨by decide, hbytes _ (by omega)⟩,
      ⟨by decide, hbytes _ (by omega)⟩, ⟨by decide, hbytes _ (by rw [hpayload]; decide)⟩,
      by simp⟩
  have htransaction := length_write_object_le hvalues
  have hfields : ∀ f ∈ [("transaction", Forms.transaction.to_json tx)],
      f.1.length ≤ 11 ∧ (write f.2).length ≤ 17954 := by
    simp only [List.forall_mem_cons]
    exact ⟨⟨by decide, htransaction⟩, by simp⟩
  have hrequest := length_write_object_le hfields
  exact hrequest.trans (show (24 * 11 + 17954 + 4) * 1 + 2 ≤ 2097152 by decide)

end Pemrix
