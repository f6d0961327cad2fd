-- The law of the local votes: an engine that proposes only where it has not
-- voted, and takes no other vote in its own name, never shows two votes for
-- different blocks of one height.
import Pemrix.BftSteps

open Std

namespace Pemrix

variable {B : Type} [StateBackend B] [Crates]

namespace BftConsensus

/-! ## The votes that an engine shows -/

/-- After some call of the run, `own_vote` gives the vote for the height, or the call was a
`handle_block` for the height that returned it. -/
def Shows (e : BftConsensus B) (calls : List EngineCall) (height : UInt64) (v : Vote) : Prop :=
  (∃ i, (e.run (calls.take i)).own_vote height = some v) ∨
    ∃ i b, calls[i]? = some (.handle_block b) ∧ b.header.height = height ∧
      ((e.run (calls.take i)).handle_block b).1 = .ok v

/-- The checks that `propose` and `handle_vote` leave out: a proposal is for a height (from 1
on) with no local vote yet, and a vote in the name of the local validator is for the block of
its vote. -/
def Guarded (e : BftConsensus B) : EngineCall → Prop
  | .propose height _ _ => e.validator_set.proposer height 0 = some e.local_address →
      0 < height ∧ e.own_vote height = none
  | .handle_vote v => v.voter = e.local_address.bytes → e.validate_vote v = .ok () →
      ∀ own, e.own_vote v.height = some own → v.block_hash = own.block_hash
  | _ => True

/-! ## The invariant -/

/-- The local votes above the height are the ones that `voted_this_height` knows. -/
structure VotesOnce (e : BftConsensus B) : Prop where
  zero : (e.round 0).proposal = none
  proposal :
    ∀ h, e.height < h → (e.round h).proposal ≠ none → (h, e.local_address) ∈ e.voted_this_height
  vote : ∀ h, e.height < h → e.own_vote h ≠ none → (h, e.local_address) ∈ e.voted_this_height

/-- The second engine keeps the local votes of the first. -/
def KeepsVotes (e e' : BftConsensus B) : Prop :=
  ∀ h v, e.own_vote h = some v → ∃ v', e'.own_vote h = some v' ∧ v'.block_hash = v.block_hash

omit [StateBackend B] [Crates] in
theorem KeepsVotes.of_eq {e e' : BftConsensus B} (h : ∀ k, e'.own_vote k = e.own_vote k) :
    KeepsVotes e e' := fun k v hv => ⟨v, by rw [h, hv], rfl⟩

omit [StateBackend B] [Crates] in
theorem KeepsVotes.trans {e e' e'' : BftConsensus B} (h : KeepsVotes e e')
    (h' : KeepsVotes e' e'') :
    KeepsVotes e e'' := by
  intro k v hv
  obtain ⟨v', hv', hh'⟩ := h k v hv
  obtain ⟨v'', hv'', hh''⟩ := h' k v' hv'
  exact ⟨v'', hv'', hh''.trans hh'⟩

variable {e : BftConsensus B}

/-! ## What each method preserves -/

omit [StateBackend B] [Crates] in
theorem admit_own_vote (p : Proposal) (block : Option Block) (h : UInt64) :
    (e.admitting p block).own_vote h =
      if p.height = h ∧ (h, e.local_address) ∉ e.voted_this_height
      then some (e.local_vote p.block_hash p.height p.round) else e.own_vote h := by
  rw [own_vote_eq, own_vote_eq, admitting_local_address, admitting_round]
  by_cases heq : p.height = h
  · subst heq
    unfold admitted
    by_cases hvoted : (p.height, e.local_address) ∈ e.voted_this_height
    · simp [hvoted]
    · simp [hvoted]
  · simp [heq]

omit [StateBackend B] [Crates] in
/-- A proposal above the height is admitted: no vote that is there changes. -/
theorem admit_votes_once (hv : e.VotesOnce) (p : Proposal) (block : Option Block)
    (hp : e.height < p.height) :
    (e.admitting p block).VotesOnce ∧ KeepsVotes e (e.admitting p block) := by
  have hmem : ∀ k, k ∈ (e.admitting p block).voted_this_height ↔
      (p.height, e.local_address) = k ∨ k ∈ e.voted_this_height := by
    intro k
    simp only [admitting, ExtTreeSet.mem_insert, LawfulEqCmp.compare_eq_iff_eq]
  refine ⟨⟨?_, ?_, ?_⟩, ?_⟩
  · rw [admitting_round, if_neg (by grind)]
    exact hv.zero
  · intro h hh hprop
    rw [hmem]
    rw [admitting_round] at hprop
    split at hprop
    · rename_i heq
      exact Or.inl (by rw [heq]; rfl)
    · exact Or.inr (hv.proposal h hh hprop)
  · intro h hh hown
    rw [hmem]
    rw [admit_own_vote] at hown
    split at hown
    · rename_i hnew
      exact Or.inl (by rw [hnew.1]; rfl)
    · exact Or.inr (hv.vote h hh hown)
  · intro h v hown
    have hold : ¬ (p.height = h ∧ (h, e.local_address) ∉ e.voted_this_height) := by
      rintro ⟨heq, hnot⟩
      exact hnot (hv.vote h (heq ▸ hp) (by simp [hown]))
    exact ⟨v, by rw [admit_own_vote, if_neg hold, hown], rfl⟩

omit [StateBackend B] in
theorem handle_block_votes_once (hv : e.VotesOnce) (b : Block) :
    (e.handle_block b).2.VotesOnce ∧ KeepsVotes e (e.handle_block b).2 := by
  rcases e.handle_block_cases b with ⟨err, -, he⟩ | ⟨hok, he⟩
  · rw [he]
    exact ⟨hv, .of_eq fun _ => rfl⟩
  · rw [he]
    exact admit_votes_once hv _ _ ((validate_proposal_ok e).mp hok).1

omit [StateBackend B] [Crates] in
theorem handle_proposal_votes_once (hv : e.VotesOnce) (p : Proposal) :
    (e.handle_proposal p).2.VotesOnce ∧ KeepsVotes e (e.handle_proposal p).2 := by
  rcases e.handle_proposal_cases p with ⟨err, -, he⟩ | ⟨hok, he⟩
  · rw [he]
    exact ⟨hv, .of_eq fun _ => rfl⟩
  · rw [he]
    exact admit_votes_once hv _ _ ((validate_proposal_ok e).mp hok).1

omit [StateBackend B] [Crates] in
theorem record_vote_own_vote (v : Vote) (h : UInt64) :
    (e.record_vote v).own_vote h =
      if v.height = h ∧ v.voter = e.local_address.bytes then some v else e.own_vote h := by
  rw [own_vote_eq, own_vote_eq, record_vote_local_address, record_vote_round]
  by_cases heq : v.height = h
  · subst heq
    simp only [if_true, ExtTreeMap.getElem?_insert, LawfulEqCmp.compare_eq_iff_eq, true_and]
    have : (⟨v.voter⟩ : Address) = e.local_address ↔ v.voter = e.local_address.bytes := by
      constructor
      · intro hx
        rw [← hx]
      · intro hx
        rw [hx]
    simp only [this]
  · simp [heq]

omit [StateBackend B] [Crates] in
theorem handle_vote_votes_once (hv : e.VotesOnce) (v : Vote) (hg : e.Guarded (.handle_vote v)) :
    (e.handle_vote v).2.VotesOnce ∧ KeepsVotes e (e.handle_vote v).2 := by
  rcases e.handle_vote_cases v with ⟨err, -, he⟩ | ⟨hok, he⟩
  · rw [he]
    exact ⟨hv, .of_eq fun _ => rfl⟩
  · rw [he]
    obtain ⟨hheight, -, p, hp, -⟩ := (validate_vote_ok e).mp hok
    have hvoted := hv.proposal v.height hheight (by simp [hp])
    refine ⟨⟨?_, ?_, ?_⟩, ?_⟩
    · rw [record_vote_proposal]
      exact hv.zero
    · intro h hh hprop
      rw [record_vote_proposal] at hprop
      exact hv.proposal h hh hprop
    · intro h hh hown
      rw [record_vote_own_vote] at hown
      split at hown
      · rename_i hnew
        rw [← hnew.1]
        exact hvoted
      · exact hv.vote h hh hown
    · intro h own hown
      rw [record_vote_own_vote]
      split
      · rename_i hnew
        refine ⟨v, rfl, ?_⟩
        exact hg hnew.2 hok own (by rw [hnew.1]; exact hown)
      · exact ⟨own, hown, rfl⟩

omit [StateBackend B] [Crates] in
theorem mark_votes_once (hv : e.VotesOnce) : e.mark.VotesOnce ∧ KeepsVotes e e.mark := by
  have hown : ∀ h, e.mark.own_vote h = e.own_vote h := by
    intro h
    rw [own_vote_eq, own_vote_eq, mark_votes]
    rfl
  refine ⟨⟨?_, ?_, ?_⟩, .of_eq hown⟩
  · rw [mark_proposal]
    exact hv.zero
  · intro h hh hprop
    rw [mark_proposal] at hprop
    exact hv.proposal h hh hprop
  · intro h hh hvote
    rw [hown] at hvote
    exact hv.vote h hh hvote

omit [StateBackend B] in
theorem commit_votes_once (hv : e.VotesOnce) (b : Block)
    (hp : (e.round (e.height + 1)).proposal ≠ none) :
    (e.commit b).VotesOnce ∧ KeepsVotes e (e.commit b) := by
  obtain ⟨hm, hk⟩ := mark_votes_once hv
  -- Round 0 has no proposal, so the height does not wrap.
  have hne : e.height + 1 ≠ 0 := by
    intro h0
    rw [h0] at hp
    exact hp hv.zero
  have hmem : ∀ h, (h, e.local_address) ∈ (e.commit b).voted_this_height ↔
      (h, e.local_address) ∈ e.voted_this_height ∧ h ≠ e.height + 1 := by
    intro h
    simp only [commit, ExtTreeSet.mem_filter, decide_eq_true_eq]
    constructor
    · rintro ⟨hx, hy⟩
      exact ⟨hx, by simpa using hy⟩
    · rintro ⟨hx, hy⟩
      exact ⟨hx, by simpa using hy⟩
  refine ⟨⟨hm.zero, ?_, ?_⟩, hk⟩
  · intro h hh hprop
    change e.height + 1 < h at hh
    exact (hmem h).mpr ⟨hm.proposal h (by show e.height < h; grind) hprop, by grind⟩
  · intro h hh hvote
    change e.height + 1 < h at hh
    exact (hmem h).mpr ⟨hm.vote h (by show e.height < h; grind) hvote, by grind⟩

omit [StateBackend B] in
theorem finalize_votes_once (hv : e.VotesOnce) (hash : Hash) (now : UInt64) :
    (e.finalize hash now).2.VotesOnce ∧ KeepsVotes e (e.finalize hash now).2 := by
  rcases e.finalize_cases hash now with he | ⟨-, -, he⟩ | ⟨b, p, -, hp, -, -, -, he⟩
  · rw [he]
    exact ⟨hv, .of_eq fun _ => rfl⟩
  · rw [he]
    exact mark_votes_once hv
  · rw [he]
    exact commit_votes_once hv b (by simp [hp])

omit [StateBackend B] in
theorem finalize_pending_votes_once (hv : e.VotesOnce) (now : UInt64) :
    (e.finalize_pending now).2.VotesOnce ∧ KeepsVotes e (e.finalize_pending now).2 := by
  refine e.finalize_pending_preserves (P := fun e' => e'.VotesOnce ∧ KeepsVotes e e') ?_ now
    ⟨hv, .of_eq fun _ => rfl⟩
  rintro e' hash now ⟨hv', hk⟩
  obtain ⟨hv'', hk'⟩ := finalize_votes_once hv' hash now
  exact ⟨hv'', hk.trans hk'⟩

theorem propose_votes_once (hv : e.VotesOnce) (height : UInt64) (transactions : List Transaction)
    (now : UInt64) (hg : e.Guarded (.propose height transactions now)) :
    (e.propose height transactions now).2.VotesOnce ∧
      KeepsVotes e (e.propose height transactions now).2 := by
  rcases e.propose_cases height transactions now with
    ⟨-, he⟩ | ⟨hp, ⟨err, set, -, he⟩ | ⟨root, -, -, he⟩⟩
  · rw [he]
    exact ⟨hv, .of_eq fun _ => rfl⟩
  · rw [he]
    exact ⟨⟨hv.zero, hv.proposal, hv.vote⟩, .of_eq fun _ => rfl⟩
  · obtain ⟨hpos, hnone⟩ := hg hp
    rw [he]
    generalize e.built height transactions now root = b
    generalize next_set e.validator_set (execute_all e.state transactions).2 = set
    generalize (execute_all e.state transactions).2 = state
    have hround : ∀ h, height ≠ h → (e.proposed height b state set).round h = e.round h := by
      intro h hne
      rw [proposed_round, if_neg hne]
    have hown : ∀ h, height ≠ h → (e.proposed height b state set).own_vote h = e.own_vote h := by
      intro h hne
      rw [own_vote_eq, own_vote_eq, hround h hne]
      rfl
    have hmem : ∀ k, k ∈ (e.proposed height b state set).voted_this_height ↔
        (height, e.local_address) = k ∨ k ∈ e.voted_this_height := by
      intro k
      simp only [proposed, ExtTreeSet.mem_insert, LawfulEqCmp.compare_eq_iff_eq]
    refine ⟨⟨?_, ?_, ?_⟩, ?_⟩
    · rw [hround 0 (by grind)]
      exact hv.zero
    · intro h hh hprop
      rw [hmem]
      by_cases heq : height = h
      · exact Or.inl (by rw [heq]; rfl)
      · rw [hround h heq] at hprop
        exact Or.inr (hv.proposal h hh hprop)
    · intro h hh hvote
      rw [hmem]
      by_cases heq : height = h
      · exact Or.inl (by rw [heq]; rfl)
      · rw [hown h heq] at hvote
        exact Or.inr (hv.vote h hh hvote)
    · intro h v hvote
      have hne : height ≠ h := by
        rintro rfl
        rw [hnone] at hvote
        cases hvote
      exact ⟨v, by rw [hown h hne, hvote], rfl⟩

/-! ## Runs -/

/-- What one guarded call preserves. -/
theorem apply_votes_once (c : EngineCall) (hv : e.VotesOnce) (hg : e.Guarded c) :
    (c.apply e).VotesOnce ∧ KeepsVotes e (c.apply e) := by
  cases c with
  | propose height transactions now => exact propose_votes_once hv height transactions now hg
  | handle_block block => exact handle_block_votes_once hv block
  | handle_proposal proposal => exact handle_proposal_votes_once hv proposal
  | handle_vote vote => exact handle_vote_votes_once hv vote hg
  | finalize block_hash now => exact finalize_votes_once hv block_hash now
  | finalize_pending now => exact finalize_pending_votes_once hv now

/-- What a whole guarded run preserves. -/
theorem run_votes_once {calls : List EngineCall} (hv : e.VotesOnce) (hg : e.Meets Guarded calls) :
    (e.run calls).VotesOnce ∧ KeepsVotes e (e.run calls) := by
  induction calls generalizing e with
  | nil => exact ⟨hv, .of_eq fun _ => rfl⟩
  | cons c calls ih =>
    obtain ⟨hv', hk⟩ := apply_votes_once c hv hg.1
    obtain ⟨hv'', hk'⟩ := ih hv' hg.2
    exact ⟨hv'', hk.trans hk'⟩

omit [StateBackend B] in
/-- A vote that `handle_block` returns is then the local vote of its height. -/
theorem own_vote_of_handle_block {b : Block} {v : Vote} (h : (e.handle_block b).1 = .ok v) :
    (e.handle_block b).2.own_vote b.header.height = some v := by
  rcases e.handle_block_cases b with ⟨err, -, he⟩ | ⟨-, he⟩
  · rw [he] at h
    cases h
  · rw [he] at h ⊢
    rw [admit_own_vote]
    split at h
    · cases h
    · rename_i hnot
      cases h
      rw [if_pos ⟨rfl, hnot⟩]
      rfl

/-- Whatever a run shows is the local vote after some of its calls. -/
theorem own_vote_of_shows {calls : List EngineCall} {height : UInt64} {v : Vote}
    (h : e.Shows calls height v) : ∃ i, (e.run (calls.take i)).own_vote height = some v := by
  rcases h with h | ⟨i, b, hi, rfl, hret⟩
  · exact h
  · refine ⟨i + 1, ?_⟩
    rw [List.take_add_one, hi, Option.toList_some, run_append, run_cons, run_nil]
    exact own_vote_of_handle_block hret

omit [StateBackend B] [Crates] in
theorem new_votes_once (local_address : Address) (set : ValidatorSet) (state : StateStore B)
    (genesis : Hash) : (new_with_store local_address set state genesis).VotesOnce := by
  have hround := new_round local_address set state genesis
  refine ⟨by rw [hround]; rfl, ?_, ?_⟩
  · intro h _ hprop
    rw [hround] at hprop
    exact absurd rfl hprop
  · intro h _ hvote
    rw [own_vote_eq, hround] at hvote
    refine absurd ?_ hvote
    show (∅ : ExtTreeMap Address Vote)[_]? = none
    simp

/-- In every guarded run, all local votes that the engine shows for one height are for the
same block. -/
theorem local_votes_never_equivocate (local_address : Address) (set : ValidatorSet)
    (state : StateStore B) (genesis : Hash) (calls : List EngineCall)
    (hg : (new_with_store local_address set state genesis).Meets Guarded calls) (height : UInt64)
    (v v' : Vote) (h : (new_with_store local_address set state genesis).Shows calls height v)
    (h' : (new_with_store local_address set state genesis).Shows calls height v') :
    v.block_hash = v'.block_hash := by
  have hnew := new_votes_once local_address set state genesis
  generalize new_with_store local_address set state genesis = e at *
  -- The vote after the earlier of two moments is kept until the later one.
  have hkept : ∀ i j w w', i ≤ j → (e.run (calls.take i)).own_vote height = some w →
      (e.run (calls.take j)).own_vote height = some w' → w.block_hash = w'.block_hash := by
    intro i j w w' hij hw hw'
    have hsplit : calls.take j = calls.take i ++ (calls.take j).drop i := by
      conv_lhs => rw [← List.take_append_drop i (calls.take j)]
      rw [List.take_take, Nat.min_eq_left hij]
    have hmeets : e.Meets Guarded (calls.take j) := by
      rw [← List.take_append_drop j calls, meets_append] at hg
      exact hg.1
    rw [hsplit, meets_append] at hmeets
    rw [hsplit, run_append] at hw'
    obtain ⟨w'', hw'', hhash⟩ :=
      (run_votes_once (run_votes_once hnew hmeets.1).1 hmeets.2).2 height w hw
    rw [hw'] at hw''
    cases hw''
    exact hhash.symm
  obtain ⟨i, hi⟩ := own_vote_of_shows h
  obtain ⟨j, hj⟩ := own_vote_of_shows h'
  rcases Nat.le_total i j with hij | hji
  · exact hkept i j v v' hij hi hj
  · exact (hkept j i v' v hji hj hi).symm

end BftConsensus

end Pemrix

/-! ## Runs of one engine -/

namespace Pemrix.Concrete

open BftConsensus

/-- One validator, the proposer of every height. -/
def one : ValidatorSet := .from_validators [⟨addr 1, 1⟩]

/-- The second proposal for height 1 replaces the local vote. -/
theorem second_proposal_votes_again :
    ¬ ∀ v v', (engine one (addr 1)).Shows [.propose 1 [] 10, .propose 1 [] 20] 1 v →
      (engine one (addr 1)).Shows [.propose 1 [] 10, .propose 1 [] 20] 1 v' →
      v.block_hash = v'.block_hash := by
  intro hall
  have hvotes :
      (((engine one (addr 1)).run [.propose 1 [] 10]).own_vote 1).isSome ∧
      (((engine one (addr 1)).run [.propose 1 [] 10, .propose 1 [] 20]).own_vote 1).isSome ∧
      (((engine one (addr 1)).run [.propose 1 [] 10]).own_vote 1).map (·.block_hash) ≠
        (((engine one (addr 1)).run [.propose 1 [] 10, .propose 1 [] 20]).own_vote 1).map
          (·.block_hash) := by
    decide +kernel
  obtain ⟨h1, h2, hne⟩ := hvotes
  obtain ⟨v, hv⟩ := Option.isSome_iff_exists.mp h1
  obtain ⟨v', hv'⟩ := Option.isSome_iff_exists.mp h2
  rw [hv, hv'] at hne
  exact hne (congrArg some (hall v v' (Or.inl ⟨1, hv⟩) (Or.inl ⟨2, hv'⟩)))

/-- A block and a vote of its proposer: what `handle_block` returns and what `own_vote` gives
at the end are for the same block. -/
theorem local_votes_of_one_block :
    (vote_for first (addr 1)).block_hash =
      ((((engine four (addr 1)).run
        [.handle_block first, .handle_vote (vote_for first (addr 2))]).own_vote 1).get
          (by decide +kernel)).block_hash := by
  refine local_votes_never_equivocate (addr 1) four .new_in_memory default
    [.handle_block first, .handle_vote (vote_for first (addr 2))]
    ⟨trivial, fun h => absurd h (by decide +kernel), trivial⟩ 1 _ _ ?_ ?_
  · exact Or.inr ⟨0, _, rfl, rfl, by decide +kernel⟩
  · exact Or.inl ⟨2, (Option.some_get _).symm⟩

end Pemrix.Concrete
