-- The validator set and the messages of consensus (`pemrix-consensus`):
-- voting powers by address, the round-robin proposer and the quorum threshold.
import Pemrix.Vm

open Std

namespace Pemrix

structure Validator where
  address : Address
  power : UInt64
  deriving DecidableEq

structure ValidatorSet where
  validators : ExtTreeMap Address UInt64
  deriving DecidableEq

namespace ValidatorSet

def new : ValidatorSet := ⟨∅⟩

def add (set : ValidatorSet) (address : Address) (power : UInt64) : ValidatorSet :=
  ⟨set.validators.insert address power⟩

def from_validators (validators : List Validator) : ValidatorSet :=
  validators.foldl (fun set v => set.add v.address v.power) new

def is_validator (set : ValidatorSet) (address : Address) : Bool := set.validators.contains address

/-- The sum wraps, as `sum` does in the release build. -/
def total_power (set : ValidatorSet) : UInt64 := (set.validators.toList.map (·.2)).sum

def quorum_threshold (set : ValidatorSet) : UInt64 := set.total_power * 2 / 3 + 1

def is_empty (set : ValidatorSet) : Bool := set.validators.isEmpty

def validators_list (set : ValidatorSet) : List Validator :=
  set.validators.toList.map fun (address, power) => ⟨address, power⟩

/-- Round-robin over the sorted addresses. -/
def proposer (set : ValidatorSet) (height round : UInt64) : Option Address :=
  if set.is_empty then none
  else set.validators.keys[(height + round).toNat % set.validators.keys.length]?

end ValidatorSet

/-! ## Proposals and votes -/

structure Proposal where
  block_hash : Hash
  height : UInt64
  round : UInt64
  proposer : Bytes32
  deriving DecidableEq

structure Vote where
  block_hash : Hash
  height : UInt64
  round : UInt64
  voter : Bytes32
  deriving DecidableEq

structure Finality where
  block : Block
  timestamp : UInt64
  deriving DecidableEq

inductive ConsensusError where
  | InvalidProposal
  | InvalidVote
  | ExecutionFailed (message : String)
  | Storage
  | Network (message : String)
  | NotProposer
  | AlreadyFinalized
  deriving DecidableEq

/-- The proposal of a block, `impl From<Block> for Proposal`. -/
def Proposal.from_block [Crates] (block : Block) : Proposal :=
  { block_hash := block.hash, height := block.header.height, round := 0,
    proposer := block.header.proposer }

end Pemrix
