-- The BFT engine (`BftConsensus` of `pemrix-consensus`). Each method with
-- `&mut self` is a function from the engine to its result and the new engine,
-- and the clock of `SystemTime::now` is an argument.
import Pemrix.ValidatorSet

open Std

namespace Pemrix

/-- What the engine holds for one height. -/
structure RoundState where
  proposal : Option Proposal
  block : Option Block
  votes : ExtTreeMap Address Vote
  finalized : Bool
  deriving DecidableEq

instance : Inhabited RoundState := ⟨⟨none, none, ∅, false⟩⟩

structure BftConsensus (B : Type) where
  local_address : Address
  validator_set : ValidatorSet
  state : StateStore B
  height : UInt64
  previous_hash : Hash
  rounds : ExtTreeMap UInt64 RoundState
  finalized : ExtTreeMap UInt64 Block
  voted_this_height : ExtTreeSet (UInt64 × Address)

/-- The constant `pemrix_protocol::MIN_ACTIVE_STAKE`. -/
def MIN_ACTIVE_STAKE : Balance := 100000 * 10 ^ 9

/-- The constant `pemrix_protocol::MAX_ACTIVE_VALIDATORS`. -/
def MAX_ACTIVE_VALIDATORS : Nat := 100

namespace BftConsensus

variable {B : Type} [StateBackend B]

omit [StateBackend B] in
/-- A new engine; the code asserts that the local address is in the set. -/
def new_with_store (local_address : Address) (validator_set : ValidatorSet) (state : StateStore B)
    (previous_hash : Hash) : BftConsensus B :=
  { local_address, validator_set, state, height := 0, previous_hash, rounds := ∅, finalized := ∅,
    voted_this_height := ∅ }

omit [StateBackend B] in
/-- The round of a height, `rounds.entry(height).or_default()`. -/
def round (e : BftConsensus B) (height : UInt64) : RoundState := e.rounds[height]?.getD default

omit [StateBackend B] in
def set_round (e : BftConsensus B) (height : UInt64) (r : RoundState) : BftConsensus B :=
  { e with rounds := e.rounds.insert height r }

omit [StateBackend B] in
def own_vote (e : BftConsensus B) (height : UInt64) : Option Vote :=
  match e.rounds[height]? with
  | none => none
  | some r => r.votes[e.local_address]?

omit [StateBackend B] in
def own_proposal (e : BftConsensus B) (height : UInt64) : Option Block :=
  match e.rounds[height]? with
  | none => none
  | some r => r.block

/-! ## The checks -/

omit [StateBackend B] in
def validate_proposal (e : BftConsensus B) (proposal : Proposal) : Except ConsensusError Unit :=
  match e.validator_set.proposer proposal.height proposal.round with
  | none => .error .InvalidProposal
  | some expected_proposer =>
    if proposal.height ≤ e.height then .error .InvalidProposal
    else if (⟨proposal.proposer⟩ : Address) ≠ expected_proposer then .error .InvalidProposal
    else .ok ()

omit [StateBackend B] in
def validate_vote (e : BftConsensus B) (vote : Vote) : Except ConsensusError Unit :=
  if vote.height ≤ e.height then .error .InvalidVote
  else if ¬ e.validator_set.is_validator ⟨vote.voter⟩ then .error .InvalidVote
  else
    match e.rounds[vote.height]? with
    | none => .error .InvalidVote
    | some round =>
      match round.proposal with
      | none => .error .InvalidVote
      | some proposal =>
        if proposal.block_hash ≠ vote.block_hash then .error .InvalidVote else .ok ()

omit [StateBackend B] in
/-- The power behind the votes of a round: each voter counts with its power in the set. -/
def vote_power (e : BftConsensus B) (round : RoundState) : UInt64 :=
  (round.votes.keys.map fun addr =>
    ((e.validator_set.validators_list.find? fun v => v.address = addr).map (·.power)).getD 0).sum

omit [StateBackend B] in
def has_quorum (e : BftConsensus B) (height : UInt64) : Bool :=
  match e.rounds[height]? with
  | none => false
  | some round => e.validator_set.quorum_threshold ≤ e.vote_power round

/-! ## Blocks and votes -/

variable [Crates]

omit [StateBackend B] in
/-- The vote of the local validator. -/
def local_vote (e : BftConsensus B) (block_hash : Hash) (height round : UInt64) : Vote :=
  { block_hash, height, round, voter := e.local_address.bytes }

omit [StateBackend B] in
def handle_block (e : BftConsensus B) (block : Block) :
    Except ConsensusError Vote × BftConsensus B :=
  let proposal := Proposal.from_block block
  match e.validate_proposal proposal with
  | .error err => (.error err, e)
  | .ok () =>
    let height := proposal.height
    let r := { e.round height with proposal := some proposal, block := some block }
    if e.voted_this_height.contains (height, e.local_address) then
      (.error .InvalidVote, e.set_round height r)
    else
      let vote := e.local_vote proposal.block_hash height 0
      (.ok vote,
        { e.set_round height { r with votes := r.votes.insert e.local_address vote } with
          voted_this_height := e.voted_this_height.insert (height, e.local_address) })

omit [StateBackend B] [Crates] in
def handle_proposal (e : BftConsensus B) (proposal : Proposal) :
    Except ConsensusError Unit × BftConsensus B :=
  match e.validate_proposal proposal with
  | .error err => (.error err, e)
  | .ok () =>
    let r := { e.round proposal.height with proposal := some proposal }
    if e.voted_this_height.contains (proposal.height, e.local_address) then
      (.ok (), e.set_round proposal.height r)
    else
      let vote := e.local_vote proposal.block_hash proposal.height proposal.round
      (.ok (),
        { e.set_round proposal.height { r with votes := r.votes.insert e.local_address vote } with
          voted_this_height := e.voted_this_height.insert (proposal.height, e.local_address) })

omit [StateBackend B] [Crates] in
def handle_vote (e : BftConsensus B) (vote : Vote) : Except ConsensusError Unit × BftConsensus B :=
  match e.validate_vote vote with
  | .error err => (.error err, e)
  | .ok () =>
    let r := e.round vote.height
    (.ok (), e.set_round vote.height { r with votes := r.votes.insert ⟨vote.voter⟩ vote })

/-! ## Finality -/

omit [StateBackend B] in
def try_finalize (e : BftConsensus B) (height : UInt64) : Option Block × BftConsensus B :=
  if ¬ e.has_quorum height then (none, e)
  else
    match e.rounds[height]? with
    | none => (none, e)
    | some round =>
      if round.finalized then (round.block, e)
      else
        let e := e.set_round height { round with finalized := true }
        match round.block with
        | none => (none, e)
        | some block =>
          (some block,
            { e with
              finalized := e.finalized.insert height block
              previous_hash := block.hash
              height
              voted_this_height := e.voted_this_height.filter fun k => k.1 ≠ height })

omit [StateBackend B] in
/-- The loop over `(self.height + 1..=self.height + 1).rev()` has one turn. -/
def finalize (e : BftConsensus B) (block_hash : Hash) (now : UInt64) :
    Except ConsensusError Finality × BftConsensus B :=
  let height := e.height + 1
  match e.rounds[height]? with
  | none => (.error .InvalidProposal, e)
  | some round =>
    match round.proposal with
    | none => (.error .InvalidProposal, e)
    | some proposal =>
      if proposal.block_hash = block_hash then
        match e.try_finalize height with
        | (some block, e) => (.ok ⟨block, now⟩, e)
        | (none, e) => (.error .InvalidProposal, e)
      else (.error .InvalidProposal, e)

omit [StateBackend B] in
/-- The loop of `finalize_pending` over the candidate heights. -/
def finalize_candidates (now : UInt64) :
    List UInt64 → Option Block → BftConsensus B → Option Block × BftConsensus B
  | [], finalized, e => (finalized, e)
  | height :: rest, finalized, e =>
    match (e.rounds[height]?).bind (·.proposal) with
    | none => finalize_candidates now rest finalized e
    | some proposal =>
      match e.finalize proposal.block_hash now with
      | (.ok f, e) => finalize_candidates now rest (some f.block) e
      | (.error _, e) => finalize_candidates now rest finalized e

omit [StateBackend B] [Crates] in
/-- The heights above the current one that have a proposal. -/
def candidates (e : BftConsensus B) : List UInt64 :=
  (e.rounds.toList.filter fun (h, r) => e.height < h ∧ r.proposal.isSome).map (·.1)

omit [StateBackend B] in
def finalize_pending (e : BftConsensus B) (now : UInt64) : Option Block × BftConsensus B :=
  finalize_candidates now e.candidates none e

/-! ## Proposing a block -/

/-- The loop of `build_block`: it stops at the first error and keeps what was executed. -/
def execute_all (state : StateStore B) : List Transaction → Except VmError Unit × StateStore B
  | [] => (.ok (), state)
  | tx :: rest =>
    match BlockExecutor.execute state tx with
    | (.error err, state) => (.error err, state)
    | (.ok _, state) => execute_all state rest

omit [StateBackend B] [Crates] in
/-- The records that may validate, with their powers. -/
def active_candidates (records : List (Address × ValidatorRecord)) : List (Address × UInt64) :=
  (records.filter fun (_, record) =>
      record.status = .Active ∧ MIN_ACTIVE_STAKE ≤ record.total_stake).map
    fun (address, record) =>
      (address, UInt64.ofNat (min record.total_stake.toNat (2 ^ 64 - 1)))

omit [StateBackend B] [Crates] in
/-- The order of the candidates: by power from the top, then by address. -/
def candidate_le (a b : Address × UInt64) : Bool :=
  ((compare b.2 a.2).then (compare a.1 b.1)).isLE

def update_validator_set (e : BftConsensus B) : BftConsensus B :=
  match e.state.validator_records with
  | .error _ => e
  | .ok records =>
    let active := ((active_candidates records).mergeSort candidate_le).take MAX_ACTIVE_VALIDATORS
    let new_set := active.foldl (fun set (address, power) => set.add address power) ValidatorSet.new
    if new_set.is_empty then e else { e with validator_set := new_set }

def build_block (e : BftConsensus B) (height : UInt64) (transactions : List Transaction)
    (now : UInt64) : Except ConsensusError Block × BftConsensus B :=
  match execute_all e.state transactions with
  | (.error err, state) => (.error (.ExecutionFailed err.to_string), { e with state })
  | (.ok (), state) =>
    let e := update_validator_set { e with state }
    match e.state.state_root with
    | .error _ => (.error .Storage, e)
    | .ok state_root =>
      let header : BlockHeader :=
        { height, timestamp := now, previous_hash := e.previous_hash, state_root,
          tx_root := Hash.hash_bytes (encode transactions), proposer := e.local_address.bytes }
      (.ok ⟨header, ⟨transactions⟩⟩, e)

def propose (e : BftConsensus B) (height : UInt64) (transactions : List Transaction)
    (now : UInt64) : Except ConsensusError Block × BftConsensus B :=
  match e.validator_set.proposer height 0 with
  | none => (.error .NotProposer, e)
  | some proposer =>
    if proposer ≠ e.local_address then (.error .NotProposer, e)
    else
      match e.build_block height transactions now with
      | (.error err, e) => (.error err, e)
      | (.ok block, e) =>
        let proposal : Proposal :=
          { block_hash := block.hash, height, round := 0, proposer := e.local_address.bytes }
        let vote := e.local_vote block.hash height 0
        let r := e.round height
        (.ok block,
          { e.set_round height
              { r with
                proposal := some proposal
                block := some block
                votes := r.votes.insert e.local_address vote } with
            voted_this_height := e.voted_this_height.insert (height, e.local_address) })

end BftConsensus

end Pemrix
