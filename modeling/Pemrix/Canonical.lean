-- The canonical encoding of `pemrix-primitives`, with the formats that serde derives
-- for the types of the chain and of the network. Every value is read back from its
-- text, so a text, and with a hash that does not collide a hash too, has one value.
import Pemrix.Node
import Pemrix.JsonForms
import Pemrix.TextForms

open Std

namespace Pemrix

namespace Forms

open JsonForm (below bool text seq option struct enum)
open JsonForm.Fields (first last)
open JsonForm.Variants (unit newtype either)

/-! ## Numbers, bytes and texts -/

def u8 : JsonForm UInt8 :=
  below UInt8.size UInt8.toNat UInt8.ofNat fun n => ⟨n.toNat_lt_size, UInt8.ofNat_toNat⟩

def u16 : JsonForm UInt16 :=
  below UInt16.size UInt16.toNat UInt16.ofNat fun n => ⟨n.toNat_lt_size, UInt16.ofNat_toNat⟩

def u64 : JsonForm UInt64 :=
  below UInt64.size UInt64.toNat UInt64.ofNat fun n => ⟨n.toNat_lt_size, UInt64.ofNat_toNat⟩

def u128 : JsonForm U128 :=
  below (U128.MAX.toNat + 1) BitVec.toNat (BitVec.ofNat 128) fun n =>
    ⟨by rw [U128.toNat_max]; exact n.isLt, by rw [BitVec.ofNat_toNat, BitVec.setWidth_eq]⟩

/-- A `Vec<u8>`. -/
def bytes : JsonForm Bytes := u8.seq

/-- A `[u8; 32]`. -/
def bytes32 : JsonForm Bytes32 := bytes.via Vector.toList try_into SerdeJson.try_into_toList

def hash : JsonForm Hash :=
  text Hash.to_string (fun s => (Hash.from_str s).toOption) fun h => by
    rw [Hash.from_str_to_string]
    rfl

def address : JsonForm Address :=
  text Address.to_string (fun s => (Address.from_str s).toOption) fun a => by
    rw [Address.from_str_to_string]
    rfl

/-! ## The derived formats -/

def account : JsonForm Account :=
  (struct (first "balance" u128 (last "nonce" u64))).via
    (fun a => (a.balance, a.nonce)) (fun p => some ⟨p.1, p.2⟩) fun _ => rfl

def delegation : JsonForm Delegation :=
  (struct (first "amount" u128 (first "unbonding" bool (last "unbond_end_height" u64)))).via
    (fun d => (d.amount, d.unbonding, d.unbond_end_height))
    (fun p => some ⟨p.1, p.2.1, p.2.2⟩) fun _ => rfl

def validator_status : JsonForm ValidatorStatus :=
  (enum (either (unit "Active") (either (unit "Jailed") (unit "Unbonding")))).via
    (fun
      | .Active => .inl ()
      | .Jailed => .inr (.inl ())
      | .Unbonding => .inr (.inr ()))
    (fun
      | .inl () => some .Active
      | .inr (.inl ()) => some .Jailed
      | .inr (.inr ()) => some .Unbonding)
    fun s => by cases s <;> rfl

def validator_record : JsonForm ValidatorRecord :=
  (struct (first "address" address (first "consensus_pubkey" bytes (first "self_stake" u128
    (first "delegated_stake" u128 (first "commission_bps" u16 (first "status" validator_status
    (first "jailed_until" u64 (last "pending_rewards" u128))))))))).via
    (fun r => (r.address, r.consensus_pubkey, r.self_stake, r.delegated_stake, r.commission_bps,
      r.status, r.jailed_until, r.pending_rewards))
    (fun p => some ⟨p.1, p.2.1, p.2.2.1, p.2.2.2.1, p.2.2.2.2.1, p.2.2.2.2.2.1, p.2.2.2.2.2.2.1,
      p.2.2.2.2.2.2.2⟩) fun _ => rfl

def transaction : JsonForm Transaction :=
  (struct (first "sender" address (first "recipient" address (first "amount" u128
    (first "nonce" u64 (first "fee" u128 (first "public_key" bytes (first "signature" bytes
    (last "payload" bytes))))))))).via
    (fun t =>
      (t.sender, t.recipient, t.amount, t.nonce, t.fee, t.public_key, t.signature, t.payload))
    (fun p => some ⟨p.1, p.2.1, p.2.2.1, p.2.2.2.1, p.2.2.2.2.1, p.2.2.2.2.2.1, p.2.2.2.2.2.2.1,
      p.2.2.2.2.2.2.2⟩) fun _ => rfl

def header : JsonForm BlockHeader :=
  (struct (first "height" u64 (first "timestamp" u64 (first "previous_hash" hash
    (first "state_root" hash (first "tx_root" hash (last "proposer" bytes32))))))).via
    (fun h => (h.height, h.timestamp, h.previous_hash, h.state_root, h.tx_root, h.proposer))
    (fun p => some ⟨p.1, p.2.1, p.2.2.1, p.2.2.2.1, p.2.2.2.2.1, p.2.2.2.2.2⟩) fun _ => rfl

def body : JsonForm BlockBody :=
  (struct (last "transactions" transaction.seq)).via BlockBody.transactions (some ⟨·⟩) fun _ => rfl

def block : JsonForm Block :=
  (struct (first "header" header (last "body" body))).via
    (fun b => (b.header, b.body)) (fun p => some ⟨p.1, p.2⟩) fun _ => rfl

def vote : JsonForm Vote :=
  (struct (first "block_hash" hash (first "height" u64 (first "round" u64
    (last "voter" bytes32))))).via
    (fun v => (v.block_hash, v.height, v.round, v.voter))
    (fun p => some ⟨p.1, p.2.1, p.2.2.1, p.2.2.2⟩) fun _ => rfl

def proposal : JsonForm Proposal :=
  (struct (first "block_hash" hash (first "height" u64 (first "round" u64
    (last "proposer" bytes32))))).via
    (fun p => (p.block_hash, p.height, p.round, p.proposer))
    (fun p => some ⟨p.1, p.2.1, p.2.2.1, p.2.2.2⟩)
    fun _ => rfl

/-- A block is never `null`. -/
def block_option : JsonForm (Option Block) := block.option fun _ h => nomatch h

def message : JsonForm Message :=
  (enum (either (newtype "Transaction" transaction) (either (newtype "Block" block)
    (either (newtype "BlockRequest" hash) (either (newtype "BlockResponse" block_option)
    (either (newtype "Vote" bytes) (either (newtype "Proposal" bytes)
    (either (unit "Ping") (unit "Pong"))))))))).via
    (fun
      | .Transaction tx => .inl tx
      | .Block b => .inr (.inl b)
      | .BlockRequest h => .inr (.inr (.inl h))
      | .BlockResponse b => .inr (.inr (.inr (.inl b)))
      | .Vote v => .inr (.inr (.inr (.inr (.inl v))))
      | .Proposal p => .inr (.inr (.inr (.inr (.inr (.inl p)))))
      | .Ping => .inr (.inr (.inr (.inr (.inr (.inr (.inl ()))))))
      | .Pong => .inr (.inr (.inr (.inr (.inr (.inr (.inr ())))))))
    (fun
      | .inl tx => some (.Transaction tx)
      | .inr (.inl b) => some (.Block b)
      | .inr (.inr (.inl h)) => some (.BlockRequest h)
      | .inr (.inr (.inr (.inl b))) => some (.BlockResponse b)
      | .inr (.inr (.inr (.inr (.inl v)))) => some (.Vote v)
      | .inr (.inr (.inr (.inr (.inr (.inl p))))) => some (.Proposal p)
      | .inr (.inr (.inr (.inr (.inr (.inr (.inl ())))))) => some .Ping
      | .inr (.inr (.inr (.inr (.inr (.inr (.inr ())))))) => some .Pong)
    fun m => by cases m <;> rfl

/-- A map with text keys: an object, its keys in order. -/
def snapshot (m : ExtTreeMap String Bytes) : Json :=
  .object (m.toList.map fun e => (e.1, bytes.to_json e.2))

theorem snapshot_inj {m m' : ExtTreeMap String Bytes} (h : snapshot m = snapshot m') : m = m' := by
  have hmap := Json.object.inj h
  rw [← ExtTreeMap.toList_inj]
  refine List.map_injective_iff.mpr ?_ hmap
  rintro ⟨k, v⟩ ⟨k', v'⟩ he
  obtain ⟨rfl, hv⟩ := Prod.mk.inj he
  have hread := bytes.from_to v
  rw [hv, bytes.from_to] at hread
  exact congrArg (Prod.mk k) (Option.some.inj hread).symm

end Forms

/-! ## The crates with these formats -/

@[reducible] def JsonForm.serde {T : Type} (f : JsonForm T) : Serde T where
  to_vec := f.to_vec
  from_slice := f.from_slice

/-- The crates, with any hash function and any verifier. The staking payloads are tagged from
inside and keep their own format. -/
@[reducible] def serde_crates (blake3 : Bytes → Bytes32) (verify : Bytes → Bytes → Bytes → Bool) :
    Crates where
  blake3 := blake3
  ed25519_verify := verify
  serde_account := JsonForm.serde Forms.account
  serde_delegation := JsonForm.serde Forms.delegation
  serde_validator_record := JsonForm.serde Forms.validator_record
  serde_transaction := JsonForm.serde Forms.transaction
  serde_transactions := JsonForm.serde Forms.transaction.seq
  serde_header := JsonForm.serde Forms.header
  serde_staking := Codec.serde SerdeJson.staking
  serialize_snapshot := ⟨fun m => (Forms.snapshot m).write⟩

instance : Serde Block := JsonForm.serde Forms.block
instance : Serde Proposal := JsonForm.serde Forms.proposal
instance : Serde Message := JsonForm.serde Forms.message

@[reducible] def serde_votes : VoteFormat where
  serde := JsonForm.serde Forms.vote
  decode_encode := Forms.vote.from_slice_to_vec

/-! ## The round trip -/

/-- Every value is read back from its text, and has a text of its own. -/
structure Canonical (T : Type) [Serde T] : Prop where
  decode_encode : ∀ v : T, decode (encode v) = some v
  encode_inj : ∀ v w : T, encode v = encode w → v = w

theorem JsonForm.canonical {T : Type} (f : JsonForm T) : @Canonical T (JsonForm.serde f) :=
  @Canonical.mk T (JsonForm.serde f) f.from_slice_to_vec fun _ _ h => f.to_vec_inj h

/-- No two of the texts have one hash. -/
def CollisionFree [Crates] (texts : Set Bytes) : Prop := Set.InjOn Hash.hash_bytes texts

theorem CollisionFree.eq [Crates] {s t : Bytes} (h : CollisionFree {s, t})
    (heq : Hash.hash_bytes s = Hash.hash_bytes t) : s = t :=
  h (Set.mem_insert s {t}) (Set.mem_insert_of_mem s rfl) heq

theorem CollisionFree.same [Crates] (t : Bytes) : CollisionFree {t, t} := by
  unfold CollisionFree
  rw [Set.pair_eq_singleton]
  exact Set.injOn_singleton Hash.hash_bytes t

/-- The canonical encoding reads back every value of every type, and so a hash that does not
collide on the texts that are hashed fixes a transaction but for its signature, and a header. -/
theorem encoding_is_canonical (blake3 : Bytes → Bytes32) (verify : Bytes → Bytes → Bytes → Bool) :
    letI := serde_crates blake3 verify
    letI := serde_votes
    (Canonical Account ∧ Canonical Delegation ∧ Canonical ValidatorRecord ∧
      Canonical Transaction ∧ Canonical BlockHeader ∧ Canonical Block ∧ Canonical Vote ∧
      Canonical Proposal ∧ Canonical Message) ∧
    (∀ tx tx' : Transaction, CollisionFree {encode tx.unsigned, encode tx'.unsigned} →
      tx.signing_hash = tx'.signing_hash → { tx with signature := tx'.signature } = tx') ∧
    ∀ b b' : Block, CollisionFree {encode b.header, encode b'.header} →
      b.hash = b'.hash → b.header = b'.header := by
  let _ := serde_crates blake3 verify
  let _ := serde_votes
  refine ⟨⟨JsonForm.canonical Forms.account, JsonForm.canonical Forms.delegation,
    JsonForm.canonical Forms.validator_record, JsonForm.canonical Forms.transaction,
    JsonForm.canonical Forms.header, JsonForm.canonical Forms.block, JsonForm.canonical Forms.vote,
    JsonForm.canonical Forms.proposal, JsonForm.canonical Forms.message⟩, ?_, ?_⟩
  · intro tx tx' hfree hhash
    have hunsigned : tx.unsigned = tx'.unsigned :=
      (JsonForm.canonical Forms.transaction).encode_inj _ _ (hfree.eq hhash)
    obtain ⟨sender, recipient, amount, nonce, fee, public_key, signature, payload⟩ := tx
    obtain ⟨sender', recipient', amount', nonce', fee', public_key', signature', payload'⟩ := tx'
    cases hunsigned
    rfl
  · intro b b' hfree hhash
    exact (JsonForm.canonical Forms.header).encode_inj _ _ (hfree.eq hhash)

/-- A transfer is read back, and stripping the signature leaves the hash as it is. -/
theorem transfer_is_canonical :
    letI := serde_crates Blake3.hash fun _ _ _ => true
    decode (encode Concrete.transfer) = some Concrete.transfer ∧
      { Concrete.transfer with signature := [] } = Concrete.transfer.unsigned := by
  let _ := serde_crates Blake3.hash fun _ _ _ => true
  obtain ⟨⟨-, -, -, htransaction, -⟩, hsigning, -⟩ :=
    encoding_is_canonical Blake3.hash fun _ _ _ => true
  exact ⟨htransaction.decode_encode _, hsigning _ Concrete.transfer.unsigned (.same _) rfl⟩

end Pemrix
