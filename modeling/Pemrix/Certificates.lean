-- The law of the quorum certificate: where no proposal takes the place of
-- another one, the votes in a round are for its block, so a block that is
-- finalized has more than two thirds of the power behind it.
import Pemrix.VotingPower

open Std

namespace Pemrix

variable {B : Type}

/-- The votes and the block of a round are for its proposal. -/
structure RoundState.Agrees [Crates] (r : RoundState) : Prop where
  votes : ∀ {a : Address} {v : Vote}, r.votes[a]? = some v →
    ∃ p, r.proposal = some p ∧ v.block_hash = p.block_hash
  block : ∀ {b : Block}, r.block = some b → ∃ p, r.proposal = some p ∧ b.hash = p.block_hash

namespace BftConsensus

/-- The power of the validators whose vote in the round of the height is for the block. -/
def support (e : BftConsensus B) (height : UInt64) (hash : Hash) : Nat :=
  e.validator_set.validators.weight fun a =>
    (e.round height).votes[a]?.map (·.block_hash) = some hash

/-- No call stores a proposal in the place of one with another hash: the check that the
engine leaves out. -/
def Unchallenged [Crates] (e : BftConsensus B) : EngineCall → Prop
  | .propose height _ _ => e.validator_set.proposer height 0 = some e.local_address →
      0 < height ∧ (e.height < height → (e.round height).proposal = none)
  | .handle_block b => e.validate_proposal (.from_block b) = .ok () →
      ∀ p, (e.round b.header.height).proposal = some p → p.block_hash = b.hash
  | .handle_proposal q => e.validate_proposal q = .ok () →
      ∀ p, (e.round q.height).proposal = some p → p.block_hash = q.block_hash
  | _ => True

instance [Crates] (e : BftConsensus B) : DecidablePred e.Unchallenged
  | .propose height _ _ => inferInstanceAs (Decidable
      (e.validator_set.proposer height 0 = some e.local_address →
        0 < height ∧ (e.height < height → (e.round height).proposal = none)))
  | .handle_block b => inferInstanceAs (Decidable (e.validate_proposal (.from_block b) = .ok () →
      ∀ p ∈ (e.round b.header.height).proposal, p.block_hash = b.hash))
  | .handle_proposal q => inferInstanceAs (Decidable (e.validate_proposal q = .ok () →
      ∀ p ∈ (e.round q.height).proposal, p.block_hash = q.block_hash))
  | .handle_vote _ => inferInstanceAs (Decidable True)
  | .finalize _ _ => inferInstanceAs (Decidable True)
  | .finalize_pending _ => inferInstanceAs (Decidable True)

/-! ## The invariant -/

variable [Crates]

/-- The rounds above the height agree, and round 0 is never used. -/
structure RoundsAgree (e : BftConsensus B) : Prop where
  zero : (e.round 0).proposal = none
  agrees : ∀ h, e.height < h → (e.round h).Agrees

/-- What a step does to the log: what is new in it has a certificate. -/
def Certifies (e e' : BftConsensus B) : Prop :=
  ∀ h b, e'.finalized[h]? = some b → e.finalized[h]? = some b ∨
    e'.validator_set.quorum_threshold.toNat ≤ e'.support h b.hash

theorem Certifies.of_same_log {e e' : BftConsensus B} (h : e'.finalized = e.finalized) :
    Certifies e e' := by
  intro k b hb
  rw [h] at hb
  exact Or.inl hb

variable {e : BftConsensus B}

/-- A step that writes a round that agrees keeps the invariant. -/
theorem RoundsAgree.set {e' : BftConsensus B} {k : UInt64} {r : RoundState} (hv : e.RoundsAgree)
    (hheight : e'.height = e.height) (hround : ∀ h, e'.round h = if k = h then r else e.round h)
    (hk : 0 < k) (hr : e.height < k → r.Agrees) : e'.RoundsAgree := by
  refine ⟨?_, ?_⟩
  · rw [hround, if_neg (by grind)]
    exact hv.zero
  · intro h hh
    rw [hheight] at hh
    rw [hround]
    split
    · rename_i heq
      subst heq
      exact hr hh
    · exact hv.agrees h hh

theorem admit_rounds_agree (hv : e.RoundsAgree) (p : Proposal) (block : Option Block)
    (hp : e.height < p.height)
    (hsame : ∀ q, (e.round p.height).proposal = some q → q.block_hash = p.block_hash)
    (hblock : ∀ b, block = some b → b.hash = p.block_hash) : (e.admitting p block).RoundsAgree := by
  refine hv.set rfl (fun h => e.set_round_round _ _ _) (by grind) fun _ => ⟨?_, ?_⟩
  · intro a v hvote
    refine ⟨p, rfl, ?_⟩
    have hold : ∀ {v}, (e.round p.height).votes[a]? = some v → v.block_hash = p.block_hash := by
      intro v hv'
      obtain ⟨q, hq, hhash⟩ := (hv.agrees p.height hp).votes hv'
      rw [hhash, hsame q hq]
    unfold admitted at hvote
    split at hvote
    · exact hold hvote
    · simp only [ExtTreeMap.getElem?_insert] at hvote
      split at hvote
      · cases hvote
        rfl
      · exact hold hvote
  · intro b hb
    exact ⟨p, rfl, hblock b hb⟩

/-! ## What each method preserves -/

theorem handle_block_certifies (hv : e.RoundsAgree) (b : Block)
    (hg : e.Unchallenged (.handle_block b)) :
    (e.handle_block b).2.RoundsAgree ∧ Certifies e (e.handle_block b).2 := by
  rcases e.handle_block_cases b with ⟨err, -, he⟩ | ⟨hok, he⟩
  · rw [he]
    exact ⟨hv, .of_same_log rfl⟩
  · rw [he]
    refine ⟨admit_rounds_agree hv _ _ ((validate_proposal_ok e).mp hok).1 (hg hok) ?_,
      .of_same_log rfl⟩
    rintro _ ⟨⟩
    rfl

theorem handle_proposal_certifies (hv : e.RoundsAgree) (q : Proposal)
    (hg : e.Unchallenged (.handle_proposal q)) :
    (e.handle_proposal q).2.RoundsAgree ∧ Certifies e (e.handle_proposal q).2 := by
  rcases e.handle_proposal_cases q with ⟨err, -, he⟩ | ⟨hok, he⟩
  · rw [he]
    exact ⟨hv, .of_same_log rfl⟩
  · rw [he]
    have hheight := ((validate_proposal_ok e).mp hok).1
    refine ⟨admit_rounds_agree hv _ _ hheight (hg hok) ?_, .of_same_log rfl⟩
    intro b hb
    obtain ⟨p, hp, hhash⟩ := (hv.agrees q.height hheight).block hb
    rw [hhash, hg hok p hp]

theorem handle_vote_certifies (hv : e.RoundsAgree) (v : Vote) :
    (e.handle_vote v).2.RoundsAgree ∧ Certifies e (e.handle_vote v).2 := by
  rcases e.handle_vote_cases v with ⟨err, -, he⟩ | ⟨hok, he⟩
  · rw [he]
    exact ⟨hv, .of_same_log rfl⟩
  · rw [he]
    obtain ⟨hheight, -, p, hp, hhash⟩ := (validate_vote_ok e).mp hok
    refine ⟨hv.set rfl (fun h => e.set_round_round _ _ _) (by grind) fun _ => ⟨?_, ?_⟩,
      .of_same_log rfl⟩
    · intro a w hw
      simp only [ExtTreeMap.getElem?_insert] at hw
      split at hw
      · cases hw
        exact ⟨p, hp, hhash.symm⟩
      · exact (hv.agrees v.height hheight).votes hw
    · intro b hb
      exact (hv.agrees v.height hheight).block hb

theorem mark_rounds_agree (hv : e.RoundsAgree) : e.mark.RoundsAgree := by
  refine ⟨by rw [mark_proposal]; exact hv.zero, ?_⟩
  intro h hh
  refine ⟨?_, ?_⟩
  · rw [mark_proposal, mark_votes]
    exact (hv.agrees h hh).votes
  · rw [mark_proposal, mark_block]
    exact (hv.agrees h hh).block

/-- With a quorum of votes, and votes only for the block, the block has its certificate. -/
theorem support_of_quorum (hv : e.RoundsAgree) (hpower : 2 * e.validator_set.total < 2 ^ 64)
    {h : UInt64} (hh : e.height < h) {b : Block} (hb : (e.round h).block = some b)
    (hq : e.has_quorum h = true) : e.validator_set.quorum_threshold.toNat ≤ e.support h b.hash := by
  have hfits : (e.validator_set.validators.weight fun a => a ∈ (e.round h).votes) < 2 ^ 64 := by
    have := ExtTreeMap.weight_le_totalWeight (m := e.validator_set.validators)
      (p := fun a => a ∈ (e.round h).votes)
    unfold ValidatorSet.total at hpower
    omega
  rw [has_quorum_iff, UInt64.le_iff_toNat_le, toNat_vote_power e _ hfits] at hq
  refine Nat.le_trans hq (ExtTreeMap.weight_mono ?_)
  intro a ha
  obtain ⟨v, hvote⟩ := Option.isSome_iff_exists.mp (ExtTreeMap.mem_iff_isSome_getElem?.mp ha)
  obtain ⟨p, hp, hhash⟩ := (hv.agrees h hh).votes hvote
  obtain ⟨p', hp', hhash'⟩ := (hv.agrees h hh).block hb
  rw [hp] at hp'
  cases hp'
  rw [hvote, Option.map_some, hhash, hhash']

/-- The steps of `finalize` keep the set and all votes. -/
structure SameVotes (e e' : BftConsensus B) : Prop where
  set : e'.validator_set = e.validator_set
  votes : ∀ h, (e'.round h).votes = (e.round h).votes

omit [Crates] in
theorem SameVotes.support {e e' : BftConsensus B} (h : SameVotes e e') (k : UInt64) (hash : Hash) :
    e'.support k hash = e.support k hash := by
  unfold BftConsensus.support
  rw [h.set, h.votes]

omit [Crates] in
theorem mark_same_votes (e : BftConsensus B) : SameVotes e e.mark := by
  refine ⟨rfl, ?_⟩
  intro h
  rw [mark_votes]

theorem finalize_certifies (hv : e.RoundsAgree) (hpower : 2 * e.validator_set.total < 2 ^ 64)
    (hash : Hash) (now : UInt64) :
    (e.finalize hash now).2.RoundsAgree ∧ Certifies e (e.finalize hash now).2 ∧
      SameVotes e (e.finalize hash now).2 := by
  rcases e.finalize_cases hash now with he | ⟨-, -, he⟩ | ⟨b, p, hb, hp, -, hq, -, he⟩
  · rw [he]
    exact ⟨hv, .of_same_log rfl, rfl, fun _ => rfl⟩
  · rw [he]
    exact ⟨mark_rounds_agree hv, .of_same_log rfl, mark_same_votes e⟩
  · rw [he]
    -- Round 0 has no proposal, so the height does not wrap.
    have hne : e.height + 1 ≠ 0 := by
      intro h0
      rw [h0, hv.zero] at hp
      cases hp
    have hlt : e.height < e.height + 1 := by grind
    have hsame : SameVotes e (e.commit b) :=
      ⟨rfl, fun h => (mark_same_votes e).votes h⟩
    refine ⟨⟨(mark_rounds_agree hv).zero, ?_⟩, ?_, hsame⟩
    · intro h hh
      change e.height + 1 < h at hh
      exact (mark_rounds_agree hv).agrees h (by show e.height < h; grind)
    · intro h b' hb'
      rw [hsame.support, hsame.set]
      simp only [commit, ExtTreeMap.getElem?_insert, LawfulEqCmp.compare_eq_iff_eq] at hb'
      split at hb'
      · rename_i heq
        subst heq
        cases hb'
        exact Or.inr (support_of_quorum hv hpower hlt hb hq)
      · exact Or.inl hb'

theorem finalize_pending_certifies (hv : e.RoundsAgree)
    (hpower : 2 * e.validator_set.total < 2 ^ 64) (now : UInt64) :
    (e.finalize_pending now).2.RoundsAgree ∧ Certifies e (e.finalize_pending now).2 ∧
      SameVotes e (e.finalize_pending now).2 := by
  refine e.finalize_pending_preserves
    (P := fun e' => e'.RoundsAgree ∧ Certifies e e' ∧ SameVotes e e') ?_ now
    ⟨hv, .of_same_log rfl, rfl, fun _ => rfl⟩
  rintro e' hash now ⟨hv', hcert, hsame⟩
  obtain ⟨hv'', hcert', hsame'⟩ := finalize_certifies hv' (by rw [hsame.set]; exact hpower) hash now
  refine ⟨hv'', ?_, ⟨hsame'.set.trans hsame.set, fun h => (hsame'.votes h).trans (hsame.votes h)⟩⟩
  intro h b hb
  rcases hcert' h b hb with hold | hnew
  · rcases hcert h b hold with hold | hnew
    · exact Or.inl hold
    · rw [hsame'.support, hsame'.set]
      exact Or.inr hnew
  · exact Or.inr hnew

variable [StateBackend B]

theorem propose_certifies (hv : e.RoundsAgree) (height : UInt64) (transactions : List Transaction)
    (now : UInt64) (hg : e.Unchallenged (.propose height transactions now)) :
    (e.propose height transactions now).2.RoundsAgree ∧
      Certifies e (e.propose height transactions now).2 := by
  rcases e.propose_cases height transactions now with
    ⟨-, he⟩ | ⟨hp, ⟨err, set, -, he⟩ | ⟨root, -, -, he⟩⟩
  · rw [he]
    exact ⟨hv, .of_same_log rfl⟩
  · rw [he]
    exact ⟨⟨hv.zero, hv.agrees⟩, .of_same_log rfl⟩
  · obtain ⟨hpos, hnone⟩ := hg hp
    rw [he]
    refine ⟨hv.set rfl (fun h => e.set_round_round _ _ _) hpos fun hh => ⟨?_, ?_⟩, .of_same_log rfl⟩
    · intro a v hvote
      refine ⟨_, rfl, ?_⟩
      simp only [ExtTreeMap.getElem?_insert] at hvote
      split at hvote
      · cases hvote
        rfl
      · obtain ⟨p, hp, -⟩ := (hv.agrees height hh).votes hvote
        rw [hnone hh] at hp
        cases hp
    · rintro _ ⟨⟩
      exact ⟨_, rfl, rfl⟩

/-! ## Runs -/

/-- The condition of the law, and that the set of validators stays as it is. -/
def UnchallengedStep (e : BftConsensus B) (c : EngineCall) : Prop :=
  e.Unchallenged c ∧ (c.apply e).validator_set = e.validator_set

/-- What one call preserves, and what it adds to the log. -/
theorem apply_certifies (c : EngineCall) (hv : e.RoundsAgree)
    (hpower : 2 * e.validator_set.total < 2 ^ 64) (hg : e.Unchallenged c) :
    (c.apply e).RoundsAgree ∧ Certifies e (c.apply e) := by
  cases c with
  | propose height transactions now => exact propose_certifies hv height transactions now hg
  | handle_block block => exact handle_block_certifies hv block hg
  | handle_proposal proposal => exact handle_proposal_certifies hv proposal hg
  | handle_vote vote => exact handle_vote_certifies hv vote
  | finalize block_hash now =>
    obtain ⟨h1, h2, -⟩ := finalize_certifies hv hpower block_hash now
    exact ⟨h1, h2⟩
  | finalize_pending now =>
    obtain ⟨h1, h2, -⟩ := finalize_pending_certifies hv hpower now
    exact ⟨h1, h2⟩

/-- What a whole run preserves. -/
theorem run_rounds_agree {set : ValidatorSet} {calls : List EngineCall} (hv : e.RoundsAgree)
    (hset : e.validator_set = set) (hpower : 2 * set.total < 2 ^ 64)
    (hm : e.Meets UnchallengedStep calls) :
    (e.run calls).RoundsAgree ∧ (e.run calls).validator_set = set := by
  refine run_preserves_of_meets (P := fun e => e.RoundsAgree ∧ e.validator_set = set) ?_
    ⟨hv, hset⟩ hm
  rintro e c ⟨hv, hset⟩ ⟨hg, hsame⟩
  exact ⟨(apply_certifies c hv (by rw [hset]; exact hpower) hg).1, hsame.trans hset⟩

omit [StateBackend B] in
theorem new_rounds_agree (local_address : Address) (set : ValidatorSet) (state : StateStore B)
    (genesis : Hash) : (new_with_store local_address set state genesis).RoundsAgree := by
  have hround := new_round local_address set state genesis
  refine ⟨by rw [hround]; rfl, ?_⟩
  intro h _
  rw [hround]
  refine ⟨?_, ?_⟩
  · intro a v hv
    change (∅ : ExtTreeMap Address Vote)[a]? = some v at hv
    simp at hv
  · intro b hb
    cases hb

/-- In every run with a fixed set in which no proposal takes the place of another one, each
block that a call adds to the log has the votes of more than two thirds of the power for
exactly that block. -/
theorem finalized_blocks_have_a_certificate (local_address : Address) (set : ValidatorSet)
    (state : StateStore B) (genesis : Hash) (hpower : 2 * set.total < 2 ^ 64)
    (calls : List EngineCall) (c : EngineCall)
    (hm : (new_with_store local_address set state genesis).Meets UnchallengedStep (calls ++ [c])) :
    let e := (new_with_store local_address set state genesis).run calls
    let e' := c.apply e
    ∀ h b, e.finalized[h]? ≠ some b → e'.finalized[h]? = some b →
      e'.validator_set.quorum_threshold.toNat ≤ e'.support h b.hash ∧
        2 * e'.validator_set.total < 3 * e'.support h b.hash := by
  intro e e' h b hold hnew
  rw [meets_append] at hm
  obtain ⟨hv, hset⟩ := run_rounds_agree (new_rounds_agree local_address set state genesis) rfl
    hpower hm.1
  obtain ⟨⟨hg, hsame⟩, -⟩ := hm.2
  have hpower' : 2 * e.validator_set.total < 2 ^ 64 := by rw [hset]; exact hpower
  rcases (apply_certifies c hv hpower' hg).2 h b hnew with hin | hcert
  · exact absurd hin hold
  · refine ⟨hcert, ValidatorSet.two_thirds_of_quorum ?_ hcert⟩
    rw [hsame]
    exact hpower'

end BftConsensus

end Pemrix

/-! ## Runs of one engine -/

namespace Pemrix.Concrete

open BftConsensus

/-- The rival takes the place of the first block, whose votes stay: it is finalized with one
vote of its own, where three are needed. -/
theorem rival_finalized_with_one_vote :
    let e := (engine four (addr 1)).run
      [.handle_block first, .handle_vote (vote_for first (addr 2)), .handle_block rival,
        .handle_vote (vote_for rival (addr 3))]
    let e' := EngineCall.apply e (.finalize_pending 30)
    e'.validator_set = four ∧ e.finalized[(1 : UInt64)]? ≠ some rival ∧
      e'.finalized[(1 : UInt64)]? = some rival ∧ four.quorum_threshold = 3 ∧
      e'.support 1 rival.hash = 1 := by
  decide +kernel

/-- With the first block alone, the three votes are for it. -/
theorem first_finalized_with_three_votes :
    let e := (engine four (addr 1)).run
      [.handle_block first, .handle_vote (vote_for first (addr 2)),
        .handle_vote (vote_for first (addr 3))]
    let e' := EngineCall.apply e (.finalize_pending 30)
    e'.validator_set.quorum_threshold.toNat ≤ e'.support 1 first.hash ∧
      2 * e'.validator_set.total < 3 * e'.support 1 first.hash := by
  refine finalized_blocks_have_a_certificate (addr 1) four .new_in_memory default
    (by decide +kernel) _ _ ?_ 1 first (by decide +kernel) (by decide +kernel)
  refine ⟨⟨?_, ?_⟩, ⟨trivial, ?_⟩, ⟨trivial, ?_⟩, ⟨trivial, ?_⟩, trivial⟩
  all_goals decide +kernel

end Pemrix.Concrete
