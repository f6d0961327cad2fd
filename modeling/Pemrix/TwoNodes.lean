-- With two validators the chain is the whole network: what the proposer of height 1
-- broadcasts reaches the other one, the answer comes back, and both finalize.
import Pemrix.FirstHeight

open Std

namespace Pemrix

open BftConsensus

variable [Crates] {set : ValidatorSet} {allocations : ExtTreeMap Address Account} {me : Address}
  {b : Block} {e e' e'' : BftConsensus InMemoryBackend}

/-! ## Steps that do not bring the block -/

/-- What happens to the engine may finalize height 1, but does not bring its block. -/
structure Onward (set : ValidatorSet) (store : StateStore InMemoryBackend) (me : Address)
    (b : Block)
    (e e' : BftConsensus InMemoryBackend) : Prop where
  fresh : Fresh set store me e → Fresh set store me e'
  holding : Holding set store me b e → Holding set store me b e'
  final : Lone set store me e → Final e → Final e'

theorem Onward.refl {store : StateStore InMemoryBackend} : Onward set store me b e e :=
  ⟨id, id, fun _ => id⟩

theorem Onward.trans {store : StateStore InMemoryBackend} (h : Onward set store me b e e')
    (hl : Lone set store me e → Lone set store me e') (h' : Onward set store me b e' e'') :
    Onward set store me b e e'' :=
  ⟨fun hf => h'.fresh (h.fresh hf), fun hh => h'.holding (h.holding hh),
    fun hlone hf => h'.final (hl hlone) (h.final hlone hf)⟩

theorem propose_onward {height : UInt64} (hh : height ≠ 1) (now : UInt64) :
    Onward set (Cluster.genesis_store allocations) me b e (e.propose height [] now).2 := by
  refine ⟨?_, ?_, ?_⟩
  · intro hf
    exact hf.of_same (hf.toLone.propose height now) (propose_same_first hf.is_local hh now)
  · intro hold
    exact hold.of_same (hold.toLone.propose height now) (propose_same_first hold.is_local hh now)
  · intro _ hf
    have hs := propose_same_first (e := e) rfl hh now
    exact hf.of_same hs.height hs.finalized

variable {store : StateStore InMemoryBackend}

theorem handle_block_final (hf : Final e) (b : Block) : Final (e.handle_block b).2 := by
  rcases e.handle_block_cases b with ⟨err, -, he⟩ | ⟨-, he⟩
  · rw [he]
    exact hf
  · rw [he]
    exact hf.of_same rfl rfl

theorem handle_block_onward {b' : Block} (hb : b'.header.height ≠ 1) :
    Onward set store me b e (e.handle_block b').2 := by
  refine ⟨?_, ?_, ?_⟩
  · intro hf
    exact hf.of_same (hf.toLone.handle_block b') (handle_block_same_first hf.is_local hb)
  · intro hold
    exact hold.handle_block fun h => absurd h hb
  · intro _ hf
    exact handle_block_final hf b'

theorem handle_vote_onward {v : Vote} (hv : v.height = 1 → v.voter ≠ me.bytes) :
    Onward set store me b e (e.handle_vote v).2 := by
  refine ⟨?_, ?_, ?_⟩
  · intro hf
    exact hf.handle_vote v
  · intro hold
    exact hold.handle_vote hv
  · intro _ hf
    rcases e.handle_vote_cases v with ⟨err, -, he⟩ | ⟨-, he⟩
    · rw [he]
      exact hf
    · rw [he]
      exact hf.of_same rfl rfl

section Alone

variable (htotal : set.total < 2 ^ 64)
  (hfew : set.validators.weight (· = me) < set.quorum_threshold.toNat)

include htotal hfew

theorem finalize_pending_onward (now : UInt64) :
    Onward set store me b e (e.finalize_pending now).2 := by
  refine ⟨?_, ?_, ?_⟩
  · intro hf
    rw [hf.finalize_pending now]
    exact hf
  · intro hold
    exact hold.finalize_pending htotal hfew now
  · intro hl hf
    exact Final.finalize_pending htotal hfew hl hf now

variable [VoteFormat] {n : ValidatorNode InMemoryBackend}

theorem produce_onward (hp : n.producing = .propose → n.height ≠ 1) (peer_count : Nat)
    (now : UInt64) :
    Onward set (Cluster.genesis_store allocations) me b n.consensus
      (n.produce peer_count now).2.consensus := by
  rcases n.produce_consensus peer_count now with he | ⟨hprod, he⟩ | he
  · rw [he]
    exact Onward.refl
  · rw [he]
    exact propose_onward (hp hprod) now
  · rw [he]
    exact finalize_pending_onward htotal hfew now

theorem react_onward (now : UInt64) :
    Onward set store me b n.consensus (n.react now).2.consensus := by
  rcases n.react_consensus now with he | he
  · rw [he]
    exact Onward.refl
  · rw [he]
    exact finalize_pending_onward htotal hfew now

theorem receive_onward {m : Message}
    (hm : Says (fun b => b.header.height ≠ 1) (fun v => v.height = 1 → v.voter ≠ me.bytes) m)
    (now : UInt64) : Onward set store me b n.consensus (n.receive now m).consensus := by
  rcases n.receive_consensus now m with
    ⟨he, -⟩ | ⟨b', rfl, he, -⟩ | ⟨bytes, v, rfl, hv, he, -⟩
  · rw [he]
    exact Onward.refl
  · rw [he]
    exact handle_block_onward hm
  · rw [he]
    exact (handle_vote_onward (hm v hv)).trans (fun hl => hl.handle_vote v)
      (finalize_pending_onward htotal hfew now)

end Alone

/-! ## The proposer -/

omit [Crates] in
/-- The height of a node goes up from 1 with that of its engine. -/
theorem height_of_sleep {n : ValidatorNode InMemoryBackend} (hh : n.height = 1 ∨ Final n.consensus)
    (hle : n.height ≤ n.consensus.height) : n.consensus.height ≠ 0 := by
  rcases hh with hone | hfinal
  · rw [hone] at hle
    intro hzero
    rw [hzero] at hle
    exact absurd hle (by decide)
  · exact hfinal.height

omit [Crates] in
theorem succ_ne_one {h : UInt64} (hne : h ≠ 0) : h + 1 ≠ 1 := by
  intro hone
  exact hne (by grind)

/-- The node of the proposer once it has proposed the block: it does not propose for height 1
again, and votes for blocks of other heights only. -/
structure Leading (set : ValidatorSet) (store : StateStore InMemoryBackend) (me : Address)
    (b : Block)
    (n : ValidatorNode InMemoryBackend) : Prop where
  holding : Holding set store me b n.consensus
  height : n.height = 1 ∨ Final n.consensus
  once : n.height = 1 → n.last_proposed_height = some 1 ∧ n.producing ≠ .propose
  pending : ∀ {v : Vote}, n.receiving = .broadcast_vote v → v.height ≠ 1

variable {n : ValidatorNode InMemoryBackend}

theorem Leading.propose_ne (hn : Leading set store me b n) (hp : n.producing = .propose) :
    n.height ≠ 1 := fun hone => (hn.once hone).2 hp

variable [VoteFormat]

theorem Leading.produce (htotal : set.total < 2 ^ 64)
    (hfew : set.validators.weight (· = me) < set.quorum_threshold.toNat)
    (hn : Leading set (Cluster.genesis_store allocations) me b n) (peer_count : Nat)
    (now : UInt64) :
    Leading set (Cluster.genesis_store allocations) me b (n.produce peer_count now).2 := by
  have hon : Onward set (Cluster.genesis_store allocations) me b n.consensus
      (n.produce peer_count now).2.consensus := produce_onward htotal hfew
    (fun hp => hn.propose_ne hp) peer_count now
  have hfinal := hon.final hn.holding.toLone
  refine ⟨hon.holding hn.holding, ?_, ?_, ?_⟩
  · rcases n.produce_position peer_count now with ⟨hsame, -, -⟩ | ⟨hle, -⟩
    · rw [hsame]
      exact hn.height.imp_right hfinal
    · have hne := height_of_sleep hn.height hle
      exact Or.inr (hfinal (hn.holding.final_of_height hne))
  · rcases n.produce_position peer_count now with ⟨hsame, hlast, hpropose⟩ | ⟨hle, hup⟩
    · rw [hsame]
      intro hone
      have hold := (hn.once hone).1
      refine ⟨?_, ?_⟩
      · rcases hlast with hlast | hlast
        · rw [hlast]
          exact hold
        · rw [hlast, hone]
      · intro hp
        rw [hone] at hpropose
        exact hpropose hp hold
    · rw [hup]
      intro hone
      exact absurd hone (succ_ne_one (height_of_sleep hn.height hle))
  · rw [ValidatorNode.produce_receiving]
    exact hn.pending

/-- The other validator sends votes for the block, but no block of height 1. -/
theorem Leading.receive (htotal : set.total < 2 ^ 64)
    (hfew : set.validators.weight (· = me) < set.quorum_threshold.toNat)
    (hn : Leading set store me b n) {m : Message}
    (hm : Says (fun b => b.header.height ≠ 1) (fun v => v.height = 1 → v.voter ≠ me.bytes) m)
    (now : UInt64) : Leading set store me b (n.receive now m) := by
  have hon : Onward set store me b n.consensus (n.receive now m).consensus :=
    receive_onward htotal hfew hm now
  have hplace : (n.receive now m).height = n.height ∧
      (n.receive now m).last_proposed_height = n.last_proposed_height ∧
      (n.receive now m).producing = n.producing := n.receive_position now m
  refine ⟨hon.holding hn.holding, ?_, ?_, ?_⟩
  · rw [hplace.1]
    exact hn.height.imp_right (hon.final hn.holding.toLone)
  · rw [hplace.1, hplace.2.1, hplace.2.2]
    exact hn.once
  · intro v hv
    rcases n.receive_consensus now m with
      ⟨-, hr⟩ | ⟨b', rfl, -, ⟨v', hv', hr⟩ | ⟨-, hr⟩⟩ | ⟨bytes, v', rfl, -, -, hr⟩
    · rw [hr] at hv
      exact hn.pending hv
    · rw [hr] at hv
      cases hv
      rw [handle_block_vote hv']
      exact hm
    · rw [hr] at hv
      cases hv
    · rw [hr] at hv
      exact hn.pending hv

theorem Leading.react (htotal : set.total < 2 ^ 64)
    (hfew : set.validators.weight (· = me) < set.quorum_threshold.toNat)
    (hn : Leading set store me b n) (now : UInt64) : Leading set store me b (n.react now).2 := by
  have hon : Onward set store me b n.consensus (n.react now).2.consensus :=
    react_onward htotal hfew now
  obtain ⟨hheight, hlast, hproducing⟩ := n.react_position now
  refine ⟨hon.holding hn.holding, ?_, ?_, ?_⟩
  · rw [hheight]
    exact hn.height.imp_right (hon.final hn.holding.toLone)
  · rw [hheight, hlast, hproducing]
    exact hn.once
  · intro v hv
    rcases n.react_receiving now with hr | hr
    · rw [hr] at hv
      cases hv
    · rw [hr] at hv
      cases hv

/-- What the proposer broadcasts for height 1 is the block and its vote for it. -/
theorem Leading.says_of_produce (hn : Leading set store me b n) {peer_count : Nat} {now : UInt64}
    {m : Message} (hm : m ∈ (n.produce peer_count now).1) :
    Says (fun b' => b'.header.height = 1 → b' = b)
      (fun v => v.height = 1 → v = first_vote b me) m := by
  have hsteady := hn.holding.toSteady
  rcases ValidatorNode.mem_produce hm with ⟨-, b', hb', rfl⟩ | ⟨-, v, hv, rfl⟩
  · intro hone
    rw [← hsteady.own_proposal hb', hone, own_proposal_eq, hn.holding.block] at hb'
    cases hb'
    rfl
  · refine says_vote ?_
    intro hone
    rw [← (hsteady.own_vote hv).2, hone, own_vote_eq, hsteady.is_local, hn.holding.vote] at hv
    cases hv
    rfl

/-! ## The other validator -/

/-- The node of the other validator: it does not propose for height 1, and its vote for height 1
is one for the block. -/
structure Following (set : ValidatorSet) (store : StateStore InMemoryBackend) (me : Address)
    (b : Block)
    (n : ValidatorNode InMemoryBackend) : Prop where
  stage : Fresh set store me n.consensus ∨ Holding set store me b n.consensus
  height : n.height = 1 ∨ Final n.consensus
  waits : n.height = 1 → n.producing = .check ∨ n.producing = .sleep
  pending : ∀ {v : Vote}, n.receiving = .broadcast_vote v → v.height = 1 → v = first_vote b me

omit [VoteFormat] in
theorem Following.lone (hn : Following set store me b n) : Lone set store me n.consensus :=
  hn.stage.elim (·.toLone) (·.toLone)

omit [VoteFormat] in
theorem Following.height_ne (hn : Following set store me b n) (hc : n.producing ≠ .check)
    (hs : n.producing ≠ .sleep) : n.height ≠ 1 :=
  fun hone => (hn.waits hone).elim hc hs

omit [VoteFormat] in
theorem Following.final_of_height (hn : Following set store me b n) (hne : n.consensus.height ≠ 0) :
    Final n.consensus := by
  rcases hn.stage with hf | hh
  · exact absurd hf.height hne
  · exact hh.final_of_height hne

theorem Following.produce (htotal : set.total < 2 ^ 64)
    (hfew : set.validators.weight (· = me) < set.quorum_threshold.toNat)
    (hproposer : set.proposer 1 0 ≠ some me)
    (hn : Following set (Cluster.genesis_store allocations) me b n) (peer_count : Nat)
    (now : UInt64) :
    Following set (Cluster.genesis_store allocations) me b (n.produce peer_count now).2 := by
  have hon : Onward set (Cluster.genesis_store allocations) me b n.consensus
      (n.produce peer_count now).2.consensus := produce_onward htotal hfew
    (fun hp => hn.height_ne (by simp [hp]) (by simp [hp])) peer_count now
  have hfinal := hon.final hn.lone
  refine ⟨hn.stage.imp hon.fresh hon.holding, ?_, ?_, ?_⟩
  · rcases n.produce_position peer_count now with ⟨hsame, -, -⟩ | ⟨hle, -⟩
    · rw [hsame]
      exact hn.height.imp_right hfinal
    · exact Or.inr (hfinal (hn.final_of_height (height_of_sleep hn.height hle)))
  · rcases n.produce_position peer_count now with ⟨hsame, -, -⟩ | ⟨hle, hup⟩
    · rw [hsame]
      intro hone
      refine ValidatorNode.produce_waits (hn.waits hone) ?_
      rw [hone, hn.lone.is_set, hn.lone.is_local]
      exact hproposer
    · rw [hup]
      intro hone
      exact absurd hone (succ_ne_one (height_of_sleep hn.height hle))
  · rw [ValidatorNode.produce_receiving]
    exact hn.pending

theorem Following.react (htotal : set.total < 2 ^ 64)
    (hfew : set.validators.weight (· = me) < set.quorum_threshold.toNat)
    (hn : Following set store me b n) (now : UInt64) :
    Following set store me b (n.react now).2 := by
  have hon : Onward set store me b n.consensus (n.react now).2.consensus :=
    react_onward htotal hfew now
  obtain ⟨hheight, -, hproducing⟩ := n.react_position now
  refine ⟨hn.stage.imp hon.fresh hon.holding, ?_, ?_, ?_⟩
  · rw [hheight]
    exact hn.height.imp_right (hon.final hn.lone)
  · rw [hheight, hproducing]
    exact hn.waits
  · intro v hv
    rcases n.react_receiving now with hr | hr
    · rw [hr] at hv
      cases hv
    · rw [hr] at hv
      cases hv

/-- The other validator broadcasts no block and no vote of height 1 in its production loop. -/
theorem Following.says_of_produce (hn : Following set store me b n) {peer_count : Nat}
    {now : UInt64}
    {m : Message} (hm : m ∈ (n.produce peer_count now).1) :
    Says (fun b' => b'.header.height ≠ 1) (fun v => v.height ≠ 1) m := by
  have hsteady := hn.lone.toSteady
  rcases ValidatorNode.mem_produce hm with ⟨hp, b', hb', rfl⟩ | ⟨hp, v, hv, rfl⟩
  · show b'.header.height ≠ 1
    rw [hsteady.own_proposal hb']
    exact hn.height_ne (by simp [hp]) (by simp [hp])
  · refine says_vote ?_
    rw [(hsteady.own_vote hv).2]
    exact hn.height_ne (by simp [hp]) (by simp [hp])

/-- The block arrives: the node votes for it, unless it has done so. -/
theorem Following.receive_block (hheight : b.header.height = 1)
    (hproposer : set.proposer 1 0 = some ⟨b.header.proposer⟩) (hn : Following set store me b n)
    (now : UInt64) :
    Following set store me b (n.receive now (.Block b)) ∧
      Holding set store me b (n.receive now (.Block b)).consensus ∧
      (Fresh set store me n.consensus →
        (n.receive now (.Block b)).receiving = .broadcast_vote (first_vote b me)) ∧
      (Final n.consensus → Final (n.receive now (.Block b)).consensus) := by
  obtain ⟨hsame, -, hproducing⟩ := n.receive_position now (.Block b)
  obtain ⟨he, hreceiving⟩ := n.receive_block now b
  have hholding : Holding set store me b (n.consensus.handle_block b).2 := by
    rcases hn.stage with hf | hh
    · exact (hf.handle_block hheight hproposer).2
    · exact hh.handle_block fun _ => rfl
  have hfinal : Final n.consensus → Final (n.receive now (.Block b)).consensus := by
    intro hf
    rw [he]
    exact handle_block_final hf b
  refine ⟨⟨Or.inr ?_, ?_, ?_, ?_⟩, ?_, ?_, hfinal⟩
  · rw [he]
    exact hholding
  · rw [hsame]
    exact hn.height.imp_right hfinal
  · rw [hsame, hproducing]
    exact hn.waits
  · intro v hv _
    rcases hreceiving with ⟨v', hv', hr⟩ | ⟨-, hr⟩
    · rw [hr] at hv
      cases hv
      rw [handle_block_vote hv', hheight]
      show (⟨b.hash, 1, 0, n.consensus.local_address.bytes⟩ : Vote) = _
      rw [hn.lone.is_local]
      rfl
    · rw [hr] at hv
      cases hv
  · rw [he]
    exact hholding
  · intro hf
    have hok := (hf.handle_block hheight hproposer).1
    rcases hreceiving with ⟨v', hv', hr⟩ | ⟨⟨err, herr⟩, -⟩
    · rw [hok] at hv'
      cases hv'
      exact hr
    · rw [hok] at herr
      cases herr

/-- Any other message leaves the node as it stands with the block. -/
theorem Following.receive_other (htotal : set.total < 2 ^ 64)
    (hfew : set.validators.weight (· = me) < set.quorum_threshold.toNat)
    (hn : Following set store me b n) {m : Message}
    (hm : Says (fun b => b.header.height ≠ 1) (fun v => v.height = 1 → v.voter ≠ me.bytes) m)
    (now : UInt64) : Following set store me b (n.receive now m) := by
  have hon : Onward set store me b n.consensus (n.receive now m).consensus :=
    receive_onward htotal hfew hm now
  obtain ⟨hsame, -, hproducing⟩ := n.receive_position now m
  refine ⟨hn.stage.imp hon.fresh hon.holding, ?_, ?_, ?_⟩
  · rw [hsame]
    exact hn.height.imp_right (hon.final hn.lone)
  · rw [hsame, hproducing]
    exact hn.waits
  · intro v hv
    rcases n.receive_consensus now m with
      ⟨-, hr⟩ | ⟨b', rfl, -, ⟨v', hv', hr⟩ | ⟨-, hr⟩⟩ | ⟨bytes, v', rfl, -, -, hr⟩
    · rw [hr] at hv
      exact hn.pending hv
    · rw [hr] at hv
      cases hv
      rw [handle_block_vote hv']
      intro hone
      exact absurd hone hm
    · rw [hr] at hv
      cases hv
    · rw [hr] at hv
      exact hn.pending hv

/-- The vote of the other validator finalizes the block. -/
theorem receive_first_vote (htotal : set.total < 2 ^ 64)
    (hfew : set.validators.weight (· = me) < set.quorum_threshold.toNat)
    (hh : Holding set store me b n.consensus) {other : Address}
    (hother : set.is_validator other = true) (hne : other ≠ me)
    (hquorum : set.quorum_threshold.toNat ≤ set.validators.weight (· ∈ [me, other]))
    (now : UInt64) :
    Final (n.receive now (.Vote (encode (first_vote b other)))).consensus := by
  have hdecode : decode (encode (first_vote b other)) = some (first_vote b other) :=
    VoteFormat.decode_encode _
  simp only [ValidatorNode.receive, hdecode]
  exact hh.finalize_second htotal hfew hother hne hquorum now

/-! ## What is on the way to the other validator -/

/-- The block is there or on the way. -/
def BlockComing (set : ValidatorSet) (store : StateStore InMemoryBackend) (me : Address) (b : Block)
    (queue : List Message) (e : BftConsensus InMemoryBackend) : Prop :=
  Holding set store me b e ∨ .Block b ∈ queue

/-- The vote is counted, or it is on the way and will come after the block. -/
def VoteComing (set : ValidatorSet) (store : StateStore InMemoryBackend) (me : Address) (b : Block)
    (v : Vote) (queue : List Message) (e : BftConsensus InMemoryBackend) : Prop :=
  Final e ∨ Holding set store me b e ∧ .Vote (encode v) ∈ queue ∨
    ∃ before after, queue = before ++ .Block b :: after ∧ .Vote (encode v) ∈ after

variable {v : Vote} {queue : List Message}

omit [VoteFormat] in
theorem BlockComing.append (h : BlockComing set store me b queue e) (out : List Message) :
    BlockComing set store me b (queue ++ out) e :=
  h.imp_right fun hmem => List.mem_append_left out hmem

theorem VoteComing.append (h : VoteComing set store me b v queue e) (out : List Message) :
    VoteComing set store me b v (queue ++ out) e := by
  rcases h with hf | ⟨hh, hv⟩ | ⟨before, after, rfl, hv⟩
  · exact Or.inl hf
  · exact Or.inr (Or.inl ⟨hh, List.mem_append_left out hv⟩)
  · refine Or.inr (Or.inr ⟨before, after ++ out, ?_, List.mem_append_left out hv⟩)
    rw [List.append_assoc, List.cons_append]

/-- A vote that is sent after the block comes after it. -/
theorem BlockComing.vote (h : BlockComing set store me b queue e) (v : Vote) :
    VoteComing set store me b v (queue ++ [.Vote (encode v)]) e := by
  rcases h with hh | hb
  · exact Or.inr (Or.inl ⟨hh, by simp⟩)
  · obtain ⟨before, after, rfl⟩ := List.append_of_mem hb
    refine Or.inr (Or.inr ⟨before, after ++ [.Vote (encode v)], ?_, by simp⟩)
    rw [List.append_assoc, List.cons_append]

omit [VoteFormat] in
theorem BlockComing.onward (h : BlockComing set store me b queue e)
    (hon : Onward set store me b e e') : BlockComing set store me b queue e' :=
  h.imp_left hon.holding

theorem VoteComing.onward (h : VoteComing set store me b v queue e) (hl : Lone set store me e)
    (hon : Onward set store me b e e') : VoteComing set store me b v queue e' :=
  Or.imp (hon.final hl) (Or.imp_left (And.imp_left hon.holding)) h

/-- The block arrives. -/
theorem VoteComing.block (h : VoteComing set store me b v (.Block b :: queue) e)
    (hholding : Holding set store me b e') (hfinal : Final e → Final e') :
    VoteComing set store me b v queue e' := by
  rcases h with hf | ⟨-, hv⟩ | ⟨before, after, heq, hv⟩
  · exact Or.inl (hfinal hf)
  · rcases List.mem_cons.mp hv with hv | hv
    · cases hv
    · exact Or.inr (Or.inl ⟨hholding, hv⟩)
  · cases before with
    | nil =>
      cases heq
      exact Or.inr (Or.inl ⟨hholding, hv⟩)
    | cons m before =>
      cases heq
      exact Or.inr (Or.inr ⟨before, after, rfl, hv⟩)

/-- Another message arrives; with the block there, the vote finalizes it. -/
theorem VoteComing.other {m : Message} (h : VoteComing set store me b v (m :: queue) e)
    (hm : m ≠ .Block b) (hl : Lone set store me e) (hon : Onward set store me b e e')
    (hvote : Holding set store me b e → m = .Vote (encode v) → Final e') :
    VoteComing set store me b v queue e' := by
  rcases h with hf | ⟨hh, hv⟩ | ⟨before, after, heq, hv⟩
  · exact Or.inl (hon.final hl hf)
  · rcases List.mem_cons.mp hv with hv | hv
    · exact Or.inl (hvote hh hv.symm)
    · exact Or.inr (Or.inl ⟨hon.holding hh, hv⟩)
  · cases before with
    | nil =>
      cases heq
      exact absurd rfl hm
    | cons m before =>
      cases heq
      exact Or.inr (Or.inr ⟨before, after, rfl, hv⟩)

omit [VoteFormat] in
theorem BlockComing.other {m : Message} (h : BlockComing set store me b (m :: queue) e)
    (hm : m ≠ .Block b) (hon : Onward set store me b e e') :
    BlockComing set store me b queue e' := by
  rcases h with hh | hb
  · exact Or.inl (hon.holding hh)
  · exact Or.inr ((List.mem_cons.mp hb).resolve_left hm.symm)

end Pemrix
