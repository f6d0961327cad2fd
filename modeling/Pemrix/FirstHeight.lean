-- An engine around height 1, when no other call writes its round: before the block of
-- the height, with the block and its own vote, and with the height finalized. The
-- height of the engine does not wrap, since round 0 never has a quorum.
import Pemrix.FinalLog
import Pemrix.NodeSteps

open Std

namespace Pemrix

namespace BftConsensus

variable [Crates] {set : ValidatorSet} {store : StateStore InMemoryBackend} {me : Address}
  {e e' : BftConsensus InMemoryBackend}

/-! ## The next height is finalized -/

/-- With a quorum for the next height, `finalize_pending` commits its block. -/
theorem finalize_pending_commits {P : BftConsensus InMemoryBackend → Prop} {b : Block}
    {p : Proposal}
    (hlt : e.height < e.height + 1) (hp : (e.round (e.height + 1)).proposal = some p)
    (hb : (e.round (e.height + 1)).block = some b)
    (hflag : (e.round (e.height + 1)).finalized = false) (hq : e.has_quorum (e.height + 1) = true)
    (hstep : ∀ e hash now, P e → P (finalize e hash now).2) (hcommit : P (e.commit b))
    (now : UInt64) :
    P (e.finalize_pending now).2 := by
  have hloop : ∀ (heights : List UInt64) (found : Option Block), e.height + 1 ∈ heights →
      P (finalize_candidates now heights found e).2 := by
    intro heights
    induction heights with
    | nil =>
      intro found hmem
      cases hmem
    | cons k rest ih =>
      intro found hmem
      unfold finalize_candidates
      rw [bind_proposal]
      by_cases hhash : ((e.round k).proposal.map (·.block_hash)) = some p.block_hash
      · obtain ⟨q, hq', hhash⟩ := Option.map_eq_some_iff.mp hhash
        have hfin : e.finalize q.block_hash now = (.ok ⟨b, now⟩, e.commit b) := by
          rw [finalize_eq, hp, hb, hflag, hq, hhash]
          simp
        simp only [hq', hfin]
        exact finalize_candidates_preserves _ hstep now rest _ hcommit
      · have hk : e.height + 1 ≠ k := by
          rintro rfl
          rw [hp] at hhash
          exact hhash rfl
        have hrest : e.height + 1 ∈ rest := (List.mem_cons.mp hmem).resolve_left hk
        cases hkp : (e.round k).proposal with
        | none => exact ih found hrest
        | some q =>
          have hfin : e.finalize q.block_hash now = (.error .InvalidProposal, e) := by
            rw [finalize_eq, if_neg]
            rintro ⟨heq, -⟩
            rw [hp] at heq
            rw [hkp] at hhash
            exact hhash heq.symm
          simp only [hfin]
          exact ih found hrest
  exact hloop _ _ (mem_candidates.mpr ⟨hlt, by simp [hp]⟩)

/-! ## Round 0 -/

/-- A steady engine that has no vote of another validator in round 0. -/
structure Lone (set : ValidatorSet) (store : StateStore InMemoryBackend) (me : Address)
    (e : BftConsensus InMemoryBackend) : Prop extends Steady set store me e where
  alone : e.VotersIn (· = me) 0

omit [Crates] in
theorem new_lone (set : ValidatorSet) (store : StateStore InMemoryBackend) (me : Address)
    (genesis : Hash) : Lone set store me (new_with_store me set store genesis) := by
  refine ⟨new_steady set store me genesis, ?_⟩
  intro a v hv
  rw [new_round] at hv
  change (∅ : ExtTreeMap Address Vote)[a]? = some v at hv
  simp at hv

theorem Lone.handle_block (hl : Lone set store me e) (b : Block) :
    Lone set store me (e.handle_block b).2 := by
  refine ⟨handle_block_steady hl.toSteady b, ?_⟩
  refine (handle_block_takes b).voters hl.is_local hl.alone ?_
  intro v hv
  cases hv

omit [Crates] in
theorem Lone.handle_vote (hl : Lone set store me e) (v : Vote) :
    Lone set store me (e.handle_vote v).2 := by
  refine ⟨handle_vote_steady hl.toSteady v, ?_⟩
  rcases e.handle_vote_cases v with ⟨err, -, he⟩ | ⟨hok, -⟩
  · rw [he]
    exact hl.alone
  · refine (handle_vote_takes v).voters hl.is_local hl.alone ?_
    intro v' hv' hzero
    cases hv'
    -- A vote for height 0 is too low for every engine.
    have hlt := (e.validate_vote_ok.mp hok).1
    rw [← hzero] at hlt
    exact absurd hlt (by simp)

theorem Lone.finalize (hl : Lone set store me e) (hash : Hash) (now : UInt64) :
    Lone set store me (e.finalize hash now).2 := by
  refine ⟨finalize_steady hl.toSteady hash now, ?_⟩
  have hmark : e.mark.VotersIn (· = me) 0 := by
    intro a v hv
    rw [(mark_same_votes e).votes] at hv
    exact hl.alone a v hv
  rcases e.finalize_cases hash now with he | ⟨-, -, he⟩ | ⟨b, p, -, -, -, -, -, he⟩
  · rw [he]
    exact hl.alone
  · rw [he]
    exact hmark
  · rw [he]
    exact hmark

theorem Lone.propose {allocations : ExtTreeMap Address Account}
    (hl : Lone set (Cluster.genesis_store allocations) me e) (height now : UInt64) :
    Lone set (Cluster.genesis_store allocations) me (e.propose height [] now).2 := by
  refine ⟨propose_steady hl.toSteady height now, ?_⟩
  refine (propose_takes height [] now).voters hl.is_local hl.alone ?_
  intro v hv
  cases hv

/-! ## The three stages of height 1 -/

/-- The vote of a validator for a block of height 1. -/
def first_vote (b : Block) (me : Address) : Vote :=
  { block_hash := b.hash, height := 1, round := 0, voter := me.bytes }

omit [Crates] in
/-- Height 1 is finalized. -/
structure Final (e : BftConsensus InMemoryBackend) : Prop where
  block : e.finalized[(1 : UInt64)]? ≠ none
  height : e.height ≠ 0

omit [Crates] in
/-- The engine has seen no block for height 1. -/
structure Fresh (set : ValidatorSet) (store : StateStore InMemoryBackend) (me : Address)
    (e : BftConsensus InMemoryBackend) : Prop extends Lone set store me e where
  height : e.height = 0
  proposal : (e.round 1).proposal = none
  flag : (e.round 1).finalized = false
  voted : (1, me) ∉ e.voted_this_height

/-- The engine has the block and its own vote for it, and has finalized it or can do so. -/
structure Holding (set : ValidatorSet) (store : StateStore InMemoryBackend) (me : Address)
    (b : Block)
    (e : BftConsensus InMemoryBackend) : Prop extends Lone set store me e where
  block : (e.round 1).block = some b
  proposal : (e.round 1).proposal.map (·.block_hash) = some b.hash
  vote : (e.round 1).votes[me]? = some (first_vote b me)
  live : e.height = 0 ∧ (e.round 1).finalized = false ∨ Final e

omit [Crates] in
/-- A call that has nothing to do with height 1. -/
structure SameFirst (me : Address) (e e' : BftConsensus InMemoryBackend) : Prop where
  height : e'.height = e.height
  finalized : e'.finalized = e.finalized
  round : e'.round 1 = e.round 1
  voted : (1, me) ∈ e'.voted_this_height → (1, me) ∈ e.voted_this_height

omit [Crates] in
theorem SameFirst.refl (me : Address) (e : BftConsensus InMemoryBackend) : SameFirst me e e :=
  ⟨rfl, rfl, rfl, id⟩

omit [Crates] in
theorem new_fresh (set : ValidatorSet) (store : StateStore InMemoryBackend) (me : Address)
    (genesis : Hash) : Fresh set store me (new_with_store me set store genesis) := by
  refine ⟨new_lone set store me genesis, rfl, ?_, ?_, ExtTreeSet.not_mem_empty⟩
  · rw [new_round]
    rfl
  · rw [new_round]
    rfl

omit [Crates] in
theorem Fresh.of_same (hf : Fresh set store me e) (hl : Lone set store me e')
    (hs : SameFirst me e e') : Fresh set store me e' := by
  refine ⟨hl, hs.height.trans hf.height, ?_, ?_, fun h => hf.voted (hs.voted h)⟩
  · rw [hs.round]
    exact hf.proposal
  · rw [hs.round]
    exact hf.flag

omit [Crates] in
theorem Final.of_same (hf : Final e) (hheight : e'.height = e.height)
    (hfin : e'.finalized = e.finalized) : Final e' := by
  refine ⟨?_, ?_⟩
  · rw [hfin]
    exact hf.block
  · rw [hheight]
    exact hf.height

theorem Holding.of_same {b : Block} (hh : Holding set store me b e) (hl : Lone set store me e')
    (hs : SameFirst me e e') : Holding set store me b e' := by
  refine ⟨hl, ?_, ?_, ?_, ?_⟩
  · rw [hs.round]
    exact hh.block
  · rw [hs.round]
    exact hh.proposal
  · rw [hs.round]
    exact hh.vote
  · rw [hs.round, hs.height]
    rcases hh.live with hlive | hlive
    · exact Or.inl hlive
    · exact Or.inr (hlive.of_same hs.height hs.finalized)

/-! ## Calls for other heights -/

omit [Crates] in
theorem mem_insert_voted {s : ExtTreeSet (UInt64 × Address)} {k : UInt64} {a : Address} (hk : k ≠ 1)
    (h : ((1 : UInt64), a) ∈ s.insert (k, a)) : ((1 : UInt64), a) ∈ s := by
  rw [ExtTreeSet.mem_insert] at h
  rcases h with heq | h
  · have heq := LawfulEqCmp.eq_of_compare heq
    cases heq
    exact absurd rfl hk
  · exact h

theorem handle_block_same_first (hme : e.local_address = me) {b : Block}
    (hb : b.header.height ≠ 1) :
    SameFirst me e (e.handle_block b).2 := by
  rcases e.handle_block_cases b with ⟨err, -, he⟩ | ⟨-, he⟩
  · rw [he]
    exact SameFirst.refl me e
  · rw [he]
    refine ⟨rfl, rfl, ?_, ?_⟩
    · exact (e.admitting_round _ _ 1).trans (if_neg hb)
    · subst hme
      exact mem_insert_voted hb

omit [Crates] in
theorem handle_vote_same_first (me : Address) {v : Vote} (hv : v.height ≠ 1) :
    SameFirst me e (e.handle_vote v).2 := by
  rcases e.handle_vote_cases v with ⟨err, -, he⟩ | ⟨-, he⟩
  · rw [he]
    exact SameFirst.refl me e
  · rw [he]
    refine ⟨rfl, rfl, ?_, id⟩
    rw [record_vote_round, if_neg hv]

theorem propose_same_first (hme : e.local_address = me) {height : UInt64} (hh : height ≠ 1)
    (now : UInt64) : SameFirst me e (e.propose height [] now).2 := by
  rcases e.propose_cases height [] now with ⟨-, he⟩ | ⟨-, ⟨err, set', -, he⟩ | ⟨root, -, -, he⟩⟩
  · rw [he]
    exact SameFirst.refl me e
  · rw [he]
    exact ⟨rfl, rfl, rfl, id⟩
  · rw [he]
    refine ⟨rfl, rfl, ?_, ?_⟩
    · rw [proposed_round, if_neg hh]
    · subst hme
      exact mem_insert_voted hh

/-! ## Before the block -/

omit [Crates] in
/-- A vote that comes before the block is refused. -/
theorem Fresh.handle_vote (hf : Fresh set store me e) (v : Vote) :
    Fresh set store me (e.handle_vote v).2 := by
  by_cases hv : v.height = 1
  · rcases e.handle_vote_cases v with ⟨err, -, he⟩ | ⟨hok, -⟩
    · rw [he]
      exact hf
    · obtain ⟨-, -, p, hp, -⟩ := e.validate_vote_ok.mp hok
      rw [hv, hf.proposal] at hp
      cases hp
  · exact hf.of_same (hf.toLone.handle_vote v) (handle_vote_same_first me hv)

theorem Fresh.finalize_pending (hf : Fresh set store me e) (now : UInt64) :
    e.finalize_pending now = (none, e) := by
  refine finalize_candidates_of_idle ?_ now _ _
  intro hp
  rw [hf.height, show (0 : UInt64) + 1 = 1 from rfl, hf.proposal] at hp
  exact absurd rfl hp

/-- The block of the proposer is taken, and voted for. -/
theorem Fresh.handle_block (hf : Fresh set store me e) {b : Block} (hheight : b.header.height = 1)
    (hproposer : set.proposer 1 0 = some ⟨b.header.proposer⟩) :
    (e.handle_block b).1 = .ok (first_vote b me) ∧ Holding set store me b (e.handle_block b).2 := by
  have hok : e.validate_proposal (.from_block b) = .ok () := by
    rw [validate_proposal_ok, hf.is_set, hf.height]
    refine ⟨?_, ?_⟩
    · show 0 < b.header.height
      rw [hheight]
      decide
    · show set.proposer b.header.height 0 = _
      rw [hheight]
      exact hproposer
  have hvoted : (b.header.height, e.local_address) ∉ e.voted_this_height := by
    rw [hheight, hf.is_local]
    exact hf.voted
  rcases e.handle_block_cases b with ⟨err, herr, -⟩ | ⟨-, he⟩
  · rw [hok] at herr
    cases herr
  · have hl := hf.toLone.handle_block b
    rw [he] at hl ⊢
    have hround :
        (e.admitting (.from_block b) (some b)).round 1 = e.admitted (.from_block b) (some b) := by
      exact (e.admitting_round _ _ 1).trans (if_pos hheight)
    have hvote : e.local_vote b.hash b.header.height 0 = first_vote b me := by
      rw [hheight]
      show (⟨b.hash, 1, 0, e.local_address.bytes⟩ : Vote) = _
      rw [hf.is_local]
      rfl
    have hvotes : (e.admitted (.from_block b) (some b)).votes =
        (e.round b.header.height).votes.insert e.local_address
          (e.local_vote b.hash b.header.height 0) := if_neg hvoted
    refine ⟨?_, hl, ?_, ?_, ?_, Or.inl ⟨hf.height, ?_⟩⟩
    · rw [if_neg hvoted, hvote]
    · rw [hround]
      rfl
    · rw [hround]
      rfl
    · rw [hround, hvotes, hvote, ← hf.is_local]
      exact ExtTreeMap.getElem?_insert_self
    · rw [hround]
      show (e.round b.header.height).finalized = false
      rw [hheight]
      exact hf.flag

/-- The proposer takes its own block, and votes for it. -/
theorem Fresh.propose {allocations : ExtTreeMap Address Account}
    (hf : Fresh set (Cluster.genesis_store allocations) me e) (hp : set.proposer 1 0 = some me)
    (now : UInt64) :
    ∃ b, b.header.height = 1 ∧ b.header.proposer = me.bytes ∧ (e.propose 1 [] now).1 = .ok b ∧
      Holding set (Cluster.genesis_store allocations) me b (e.propose 1 [] now).2 := by
  obtain ⟨b, hheight, hproposer, he⟩ := propose_empty hf.toSteady hp now
  have hl := hf.toLone.propose 1 now
  rw [he] at hl
  refine ⟨b, hheight, hproposer, by rw [he], ?_⟩
  rw [he]
  have hround : (e.proposed 1 b e.state e.validator_set).round 1 =
      { e.round 1 with
        proposal := some ⟨b.hash, 1, 0, e.local_address.bytes⟩
        block := some b
        votes := (e.round 1).votes.insert e.local_address (e.local_vote b.hash 1 0) } := by
    rw [proposed_round, if_pos rfl]
  refine ⟨hl, ?_, ?_, ?_, Or.inl ⟨hf.height, ?_⟩⟩
  · rw [hround]
  · rw [hround]
    rfl
  · rw [hround]
    dsimp only
    rw [hf.is_local]
    show ((e.round 1).votes.insert me ⟨b.hash, 1, 0, e.local_address.bytes⟩)[me]? = _
    rw [hf.is_local]
    exact ExtTreeMap.getElem?_insert_self
  · rw [hround]
    exact hf.flag

/-! ## With the block -/

/-- The block may come again. -/
theorem Holding.handle_block {b : Block} (hh : Holding set store me b e) {b' : Block}
    (hb' : b'.header.height = 1 → b' = b) : Holding set store me b (e.handle_block b').2 := by
  by_cases hheight : b'.header.height = 1
  · obtain rfl := hb' hheight
    rcases e.handle_block_cases b' with ⟨err, -, he⟩ | ⟨-, he⟩
    · rw [he]
      exact hh
    · have hl := hh.toLone.handle_block b'
      rw [he] at hl ⊢
      have hround : (e.admitting (.from_block b') (some b')).round 1 =
          e.admitted (.from_block b') (some b') := by
        exact (e.admitting_round _ _ 1).trans (if_pos hheight)
      refine ⟨hl, ?_, ?_, ?_, ?_⟩
      · rw [hround]
        rfl
      · rw [hround]
        rfl
      · rw [hround]
        unfold admitted
        dsimp only
        split
        · show (e.round b'.header.height).votes[me]? = _
          rw [hheight]
          exact hh.vote
        · rw [← hh.is_local]
          show ((e.round b'.header.height).votes.insert e.local_address
            ⟨b'.hash, b'.header.height, 0, e.local_address.bytes⟩)[e.local_address]? = _
          rw [hheight]
          exact ExtTreeMap.getElem?_insert_self
      · rcases hh.live with ⟨hzero, hflag⟩ | hfinal
        · refine Or.inl ⟨hzero, ?_⟩
          rw [hround]
          show (e.round b'.header.height).finalized = false
          rw [hheight]
          exact hflag
        · exact Or.inr (hfinal.of_same rfl rfl)
  · exact hh.of_same (hh.toLone.handle_block b') (handle_block_same_first hh.is_local hheight)

/-- A vote of another validator leaves the own vote. -/
theorem Holding.handle_vote {b : Block} (hh : Holding set store me b e) {v : Vote}
    (hv : v.height = 1 → v.voter ≠ me.bytes) : Holding set store me b (e.handle_vote v).2 := by
  by_cases hheight : v.height = 1
  · rcases e.handle_vote_cases v with ⟨err, -, he⟩ | ⟨-, he⟩
    · rw [he]
      exact hh
    · have hl := hh.toLone.handle_vote v
      rw [he] at hl ⊢
      have hround := (e.record_vote_round v 1).trans (if_pos hheight)
      refine ⟨hl, ?_, ?_, ?_, ?_⟩
      · rw [hround]
        exact hh.block
      · rw [hround]
        exact hh.proposal
      · rw [hround]
        refine (getElem?_insert_local v ?_).trans hh.vote
        rintro rfl
        exact hv hheight rfl
      · rw [hround]
        rcases hh.live with hlive | hfinal
        · exact Or.inl hlive
        · exact Or.inr (hfinal.of_same rfl rfl)
  · exact hh.of_same (hh.toLone.handle_vote v) (handle_vote_same_first me hheight)

/-- The block cannot be there before it came. -/
theorem Fresh.not_holding {b : Block} (hf : Fresh set store me e) : ¬ Holding set store me b e := by
  intro hh
  have hp := hh.proposal
  rw [hf.proposal] at hp
  cases hp

theorem Holding.final_of_height {b : Block} (hh : Holding set store me b e) (hne : e.height ≠ 0) :
    Final e := by
  rcases hh.live with ⟨hzero, -⟩ | hfinal
  · exact absurd hzero hne
  · exact hfinal

omit [Crates] in
/-- One validator is no quorum: round 0 has none, and the height does not wrap. -/
theorem Lone.succ_ne_zero (hl : Lone set store me e) (htotal : set.total < 2 ^ 64)
    (hfew : set.validators.weight (· = me) < set.quorum_threshold.toNat)
    (hq : e.has_quorum (e.height + 1) = true) : e.height + 1 ≠ 0 := by
  intro hzero
  rw [hzero] at hq
  have hno := no_quorum_of_voters hl.alone (by rw [hl.is_set]; exact htotal)
    (by rw [hl.is_set]; exact hfew)
  rw [hno] at hq
  cases hq

theorem Final.commit (hf : Final e) (b : Block) (hne : e.height + 1 ≠ 0) : Final (e.commit b) := by
  refine ⟨?_, hne⟩
  rw [getElem?_commit]
  split
  · simp
  · exact hf.block

section Alone

variable (htotal : set.total < 2 ^ 64)
  (hfew : set.validators.weight (· = me) < set.quorum_threshold.toNat)

include htotal hfew

theorem Holding.finalize {b : Block} (hh : Holding set store me b e) (hash : Hash) (now : UInt64) :
    Holding set store me b (e.finalize hash now).2 := by
  have hl := hh.toLone.finalize hash now
  rcases e.finalize_cases hash now with he | ⟨hblock, -, he⟩ | ⟨b', p, -, -, -, hq, -, he⟩
  · rw [he]
    exact hh
  · rw [he] at hl ⊢
    have hne : e.height + 1 ≠ 1 := by
      intro hone
      rw [hone, hh.block] at hblock
      cases hblock
    have hround : e.mark.round 1 = e.round 1 := by rw [mark_round, if_neg hne]
    exact hh.of_same hl ⟨rfl, rfl, hround, id⟩
  · rw [he] at hl ⊢
    have hnext := hh.toLone.succ_ne_zero htotal hfew hq
    refine ⟨hl, ?_, ?_, ?_, Or.inr ?_⟩
    · rw [commit_mark, mark_block]
      exact hh.block
    · rw [commit_mark, mark_proposal]
      exact hh.proposal
    · rw [commit_mark, mark_votes]
      exact hh.vote
    · rcases hh.live with ⟨hzero, -⟩ | hfinal
      · refine ⟨?_, hnext⟩
        rw [getElem?_commit, if_pos (by rw [hzero]; rfl)]
        simp
      · exact hfinal.commit b' hnext

theorem Holding.finalize_pending {b : Block} (hh : Holding set store me b e) (now : UInt64) :
    Holding set store me b (e.finalize_pending now).2 :=
  e.finalize_pending_preserves (P := Holding set store me b)
    (fun _ hash now he => he.finalize htotal hfew hash now) now hh

theorem Final.finalize (hl : Lone set store me e) (hf : Final e) (hash : Hash) (now : UInt64) :
    Final (e.finalize hash now).2 := by
  rcases e.finalize_cases hash now with he | ⟨-, -, he⟩ | ⟨b, p, -, -, -, hq, -, he⟩
  · rw [he]
    exact hf
  · rw [he]
    exact hf.of_same rfl rfl
  · rw [he]
    exact hf.commit b (hl.succ_ne_zero htotal hfew hq)

theorem Final.finalize_pending (hl : Lone set store me e) (hf : Final e) (now : UInt64) :
    Final (e.finalize_pending now).2 :=
  (e.finalize_pending_preserves (P := fun e => Lone set store me e ∧ Final e)
    (fun _ hash now he =>
      ⟨he.1.finalize hash now, Final.finalize htotal hfew he.1 he.2 hash now⟩) now ⟨hl, hf⟩).2

/-- A quorum for height 1 finalizes it. -/
theorem Holding.finalize_quorum {b : Block} (hh : Holding set store me b e)
    (hq : e.has_quorum 1 = true) (now : UInt64) : Final (e.finalize_pending now).2 := by
  rcases hh.live with ⟨hzero, hflag⟩ | hfinal
  · have hone : e.height + 1 = 1 := by
      rw [hzero]
      rfl
    obtain ⟨p, hp, hhash⟩ := Option.map_eq_some_iff.mp hh.proposal
    have hcommit : e.finalize p.block_hash now = (.ok ⟨b, now⟩, e.commit b) := by
      rw [finalize_eq, hone, hp, hh.block, hflag, hq]
      simp
    have hl := hh.toLone.finalize p.block_hash now
    rw [hcommit] at hl
    refine (finalize_pending_commits (P := fun e => Lone set store me e ∧ Final e) (b := b) (p := p)
      ?_ ?_ ?_ ?_ ?_ ?_ ⟨hl, ?_, ?_⟩ now).2
    · rw [hzero]
      decide
    · rw [hone]
      exact hp
    · rw [hone]
      exact hh.block
    · rw [hone]
      exact hflag
    · rw [hone]
      exact hq
    · intro e hash now he
      exact ⟨he.1.finalize hash now, Final.finalize htotal hfew he.1 he.2 hash now⟩
    · rw [getElem?_commit, if_pos hone]
      simp
    · show e.height + 1 ≠ 0
      rw [hone]
      decide
  · exact Final.finalize_pending htotal hfew hh.toLone hfinal now

/-- The own vote and the one of another validator finalize the block, when they are a quorum. -/
theorem Holding.finalize_second {b : Block} (hh : Holding set store me b e) {other : Address}
    (hother : set.is_validator other = true) (hne : other ≠ me)
    (hquorum : set.quorum_threshold.toNat ≤ set.validators.weight (· ∈ [me, other]))
    (now : UInt64) :
    Final (((e.handle_vote (first_vote b other)).2.finalize_pending now).2) := by
  have hvoter : (first_vote b other).height = 1 → (first_vote b other).voter ≠ me.bytes := by
    intro _ hbytes
    cases other
    cases me
    cases hbytes
    exact hne rfl
  have hh' := hh.handle_vote hvoter
  rcases hh.live with ⟨hzero, -⟩ | hfinal
  · obtain ⟨p, hp, hhash⟩ := Option.map_eq_some_iff.mp hh.proposal
    have hok : e.validate_vote (first_vote b other) = .ok () := by
      rw [validate_vote_ok, hzero, hh.is_set]
      exact ⟨UInt64.zero_lt_one, hother, p, hp, hhash⟩
    rcases e.handle_vote_cases (first_vote b other) with ⟨err, herr, -⟩ | ⟨-, he⟩
    · rw [hok] at herr
      cases herr
    · have hround := (e.record_vote_round (first_vote b other) 1).trans (if_pos rfl)
      rw [he] at hh' ⊢
      refine hh'.finalize_quorum htotal hfew ?_ now
      refine has_quorum_of_voters (S := (· ∈ [me, other])) ?_ ?_ ?_
      · intro a ha
        rw [hround]
        refine ExtTreeMap.mem_insert.mpr ?_
        rcases List.mem_cons.mp ha with rfl | ha
        · right
          rw [ExtTreeMap.mem_iff_isSome_getElem?, hh.vote]
          rfl
        · left
          rw [List.mem_singleton.mp ha]
          exact ReflCmp.compare_self
      · rw [hh'.is_set]
        exact htotal
      · rw [hh'.is_set]
        exact hquorum
  · refine Final.finalize_pending htotal hfew hh'.toLone ?_ now
    rcases e.handle_vote_cases (first_vote b other) with ⟨err, -, he⟩ | ⟨-, he⟩
    · rw [he]
      exact hfinal
    · rw [he]
      exact hfinal.of_same rfl rfl

end Alone

end BftConsensus

end Pemrix
