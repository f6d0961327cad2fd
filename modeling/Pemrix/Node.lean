-- A validator node (`pemrix-node`): the block production loop and the network
-- event loop on one engine. The engine is behind a lock, so each loop is cut into
-- the pieces that run with the lock held; the pieces of the two loops may come
-- in any order.
import Pemrix.Bft
import Pemrix.SerdeJson

open Std

namespace Pemrix

/-- The messages between peers (`pemrix_network::Message`). -/
inductive Message where
  | Transaction (transaction : Transaction)
  | Block (block : Block)
  | BlockRequest (hash : Hash)
  | BlockResponse (block : Option Block)
  | Vote (bytes : Bytes)
  | Proposal (bytes : Bytes)
  | Ping
  | Pong
  deriving DecidableEq

/-- How serde_json writes a vote. It reads back what it wrote. -/
class VoteFormat where
  serde : Serde Vote
  decode_encode : ∀ v : Vote, serde.from_slice (serde.to_vec v) = some v

instance [VoteFormat] : Serde Vote := VoteFormat.serde

/-- Where the production loop stands. -/
inductive Producing where
  | check
  | propose
  | broadcast_block
  | broadcast_vote
  | finalize
  | sleep
  deriving DecidableEq

/-- Where the event loop stands: it waits, or it is in the middle of a block. -/
inductive Receiving where
  | next_event
  | broadcast_vote (own_vote : Vote)
  | finalize
  deriving DecidableEq

structure ValidatorNode (B : Type) where
  consensus : BftConsensus B
  height : UInt64
  last_proposed_height : Option UInt64
  producing : Producing
  receiving : Receiving
  finalized_tx : List Block

namespace ValidatorNode

variable {B : Type}

/-- A node at the start of its two loops. -/
def new (consensus : BftConsensus B) : ValidatorNode B :=
  { consensus, height := 1, last_proposed_height := none, producing := .check,
    receiving := .next_event, finalized_tx := [] }

variable [Crates]

/-- The piece `if let Some(block) = finalize_pending()`: the block goes out on `finalized_tx`
(and on `rpc_finalized_tx`). -/
def finalize_pending (n : ValidatorNode B) (now : UInt64) : ValidatorNode B :=
  let (block, consensus) := n.consensus.finalize_pending now
  { n with consensus, finalized_tx := n.finalized_tx ++ block.toList }

variable [VoteFormat]

/-- The next piece of `run_block_production_loop`, with what it broadcasts. -/
def produce [StateBackend B] (n : ValidatorNode B) (peer_count : Nat) (now : UInt64) :
    List Message × ValidatorNode B :=
  match n.producing with
  | .check =>
    if peer_count = 0 then ([], n)
    else if n.consensus.validator_set.proposer n.height 0 = some n.consensus.local_address then
      ([], { n with producing :=
        if n.last_proposed_height ≠ some n.height then .propose else .broadcast_block })
    else ([], { n with producing := .sleep })
  | .propose =>
    match n.consensus.propose n.height [] now with
    | (.ok _, consensus) =>
      ([],
        { n with consensus, last_proposed_height := some n.height, producing := .broadcast_block })
    | (.error _, consensus) => ([], { n with consensus, producing := .check })
  | .broadcast_block =>
    ((n.consensus.own_proposal n.height).toList.map .Block, { n with producing := .broadcast_vote })
  | .broadcast_vote =>
    ((n.consensus.own_vote n.height).toList.map (.Vote <| encode ·),
      { n with producing := .finalize })
  | .finalize => ([], { n.finalize_pending now with producing := .sleep })
  | .sleep =>
    if n.height ≤ n.consensus.height then
      ([], { n with
        height := n.consensus.height + 1, last_proposed_height := none, producing := .check })
    else ([], { n with producing := .check })

/-- What `run_network_event_loop` does first with a message. A vote is done with at once, under
one lock; a block leaves the vote of its own to broadcast. -/
def receive (n : ValidatorNode B) (now : UInt64) : Message → ValidatorNode B
  | .Block block =>
    match n.consensus.handle_block block with
    | (.ok own_vote, consensus) => { n with consensus, receiving := .broadcast_vote own_vote }
    | (.error _, consensus) => { n with consensus, receiving := .finalize }
  | .Vote bytes =>
    match decode bytes with
    | none => n
    | some vote => finalize_pending { n with consensus := (n.consensus.handle_vote vote).2 } now
  | _ => n

/-- The next piece of `run_network_event_loop` after a block. -/
def react (n : ValidatorNode B) (now : UInt64) : List Message × ValidatorNode B :=
  match n.receiving with
  | .next_event => ([], n)
  | .broadcast_vote own_vote => ([.Vote (encode own_vote)], { n with receiving := .finalize })
  | .finalize => ([], { n.finalize_pending now with receiving := .next_event })

end ValidatorNode

/-! ## The serde_json text of a vote -/

namespace SerdeJson

def vote : Codec Vote :=
  (((hash.both (text ",\"height\":")
      (number_u64.both (text ",\"round\":")
      (number_u64.both (text ",\"voter\":") byte_array))).before (text "\x7d") ends_brace).after
    (text "\x7b\"block_hash\":")).via
    (fun v => (v.block_hash, v.height, v.round, v.voter))
    (fun (block_hash, height, round, voter) => some ⟨block_hash, height, round, voter⟩) fun _ => rfl

end SerdeJson

namespace Concrete

scoped instance : VoteFormat where
  serde := Codec.serde SerdeJson.vote
  decode_encode := SerdeJson.vote.read_all_write

end Concrete

end Pemrix
