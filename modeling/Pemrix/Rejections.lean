-- A consensus message that is refused. `handle_proposal` and `handle_vote` check
-- the whole message before they store any of it. `handle_block` looks at the
-- local vote last, when the round already has the new proposal and block.
import Pemrix.BftSteps

open Std

namespace Pemrix

variable {B : Type} [StateBackend B] [Crates]

namespace BftConsensus

/-- The call is a message that the engine answers with `Err`. -/
def Rejects (e : BftConsensus B) : EngineCall → Prop
  | .handle_block block => ∃ err, (e.handle_block block).1 = .error err
  | .handle_proposal proposal => ∃ err, (e.handle_proposal proposal).1 = .error err
  | .handle_vote vote => ∃ err, (e.handle_vote vote).1 = .error err
  | _ => False

/-- A block that passes the check for a height with a local vote is the one that the round
already holds, with its proposal. -/
def KnownBlock (e : BftConsensus B) : EngineCall → Prop
  | .handle_block block =>
      e.validate_proposal (.from_block block) = .ok () →
      (block.header.height, e.local_address) ∈ e.voted_this_height →
        (e.round block.header.height).proposal = some (.from_block block) ∧
          (e.round block.header.height).block = some block
  | _ => True

variable (e : BftConsensus B)

omit [StateBackend B] [Crates] in
/-- A round with a proposal is written back as it is. -/
theorem set_round_eq_self {h : UInt64} {r : RoundState} (hp : r.proposal ≠ none) :
    e.set_round h r = e ↔ e.round h = r := by
  constructor
  · intro heq
    have hround := e.set_round_round h h r
    rw [heq, if_pos rfl] at hround
    exact hround
  · intro hround
    have hsome : e.rounds[h]? = some r := by
      cases hr : e.rounds[h]? with
      | none =>
        rw [round, hr] at hround
        rw [← hround] at hp
        exact absurd rfl hp
      | some r' => rw [← hround, round_of_some hr]
    have hrounds : e.rounds.insert h r = e.rounds := by
      apply ExtTreeMap.ext_getElem?
      intro k
      rw [ExtTreeMap.getElem?_insert]
      split
      · rename_i heq
        rw [← LawfulEqCmp.eq_of_compare heq, hsome]
      · rfl
    unfold set_round
    rw [hrounds]

omit [StateBackend B] in
/-- After a local vote, an admitted block changes nothing only where it is there already. -/
theorem admitting_eq_self {b : Block}
    (hvoted : (b.header.height, e.local_address) ∈ e.voted_this_height) :
    e.admitting (.from_block b) (some b) = e ↔
      (e.round b.header.height).proposal = some (.from_block b) ∧
        (e.round b.header.height).block = some b := by
  rw [admit_of_voted e (p := .from_block b) _ hvoted, set_round_eq_self e (by simp)]
  constructor
  · intro hround
    rw [Proposal.from_block] at hround
    dsimp only at hround
    rw [hround]
    exact ⟨rfl, rfl⟩
  · rintro ⟨hp, hb⟩
    rw [← hp, ← hb]
    rfl

omit [StateBackend B] in
theorem handle_block_rejects_iff (b : Block) :
    ((∃ err, (e.handle_block b).1 = .error err) → (e.handle_block b).2 = e) ↔
      (e.validate_proposal (.from_block b) = .ok () →
        (b.header.height, e.local_address) ∈ e.voted_this_height →
          (e.round b.header.height).proposal = some (.from_block b) ∧
            (e.round b.header.height).block = some b) := by
  rcases e.handle_block_cases b with ⟨err, herr, he⟩ | ⟨hok, he⟩
  · rw [he, herr]
    simp
  · rw [he]
    by_cases hvoted : (b.header.height, e.local_address) ∈ e.voted_this_height
    · rw [if_pos hvoted, admitting_eq_self e hvoted]
      simp [hok, hvoted]
    · rw [if_neg hvoted]
      simp [hvoted]

/-- What one call does with a message that it refuses. -/
theorem rejects_iff (c : EngineCall) : (e.Rejects c → c.apply e = e) ↔ e.KnownBlock c := by
  cases c with
  | handle_block block => exact e.handle_block_rejects_iff block
  | handle_proposal proposal =>
    refine iff_of_true ?_ trivial
    rintro ⟨err, herr⟩
    rw [EngineCall.apply]
    rcases e.handle_proposal_cases proposal with ⟨err', -, he⟩ | ⟨-, he⟩
    · rw [he]
    · rw [he] at herr
      cases herr
  | handle_vote vote =>
    refine iff_of_true ?_ trivial
    rintro ⟨err, herr⟩
    rw [EngineCall.apply]
    rcases e.handle_vote_cases vote with ⟨err', -, he⟩ | ⟨-, he⟩
    · rw [he]
    · rw [he] at herr
      cases herr
  | propose height transactions now => exact iff_of_true False.elim trivial
  | finalize block_hash now => exact iff_of_true False.elim trivial
  | finalize_pending now => exact iff_of_true False.elim trivial

/-- In a run from any engine, all the messages that are refused leave the engine as it was if
and only if each block for a height with a local vote is the one that the round holds. -/
theorem refused_messages_change_nothing_iff (calls : List EngineCall) :
    e.Meets (fun e c => e.Rejects c → c.apply e = e) calls ↔ e.Meets KnownBlock calls := by
  induction calls generalizing e with
  | nil => exact Iff.rfl
  | cons c calls ih =>
    unfold Meets
    rw [rejects_iff, ih]

end BftConsensus

end Pemrix

/-! ## A rival that is refused -/

namespace Pemrix.Concrete

open BftConsensus

/-- The rival is refused, since the local vote is for the first block, but it is stored. -/
theorem refused_rival_is_stored :
    let e := (engine four (addr 1)).run [.handle_block first]
    e.Rejects (.handle_block rival) ∧ EngineCall.apply e (.handle_block rival) ≠ e := by
  have hruns : let e := (engine four (addr 1)).run [.handle_block first]
      (e.handle_block rival).1 = .error .InvalidVote ∧ e.own_proposal 1 = some first ∧
        (e.handle_block rival).2.own_proposal 1 = some rival ∧ first ≠ rival := by
    decide +kernel
  intro e
  obtain ⟨herr, hfirst, hrival, hne⟩ := hruns
  refine ⟨⟨_, herr⟩, ?_⟩
  intro hsame
  rw [EngineCall.apply] at hsame
  rw [hsame, hfirst] at hrival
  exact hne (Option.some.inj hrival)

end Pemrix.Concrete
