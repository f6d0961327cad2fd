-- The network when connections break: messages on the way may be lost. The proposer
-- of a height broadcasts its block and its vote again and again, but a validator that
-- has finalized the height never votes for it again. A vote that is lost in between
-- keeps its receiver below the height for good.
import Pemrix.ChainGap

open Std

namespace Pemrix

variable [Crates] {set : ValidatorSet} {allocations : ExtTreeMap Address Account} {me : Address}
  {h : UInt64} {S : Address → Prop}

/-! ## An engine without the votes of a quorum -/

namespace BftConsensus

variable {e : BftConsensus InMemoryBackend} {store : StateStore InMemoryBackend}

omit [Crates] in
/-- The engine is below the height, and has votes of a group only for it. -/
structure Starved (S : Address → Prop) (h : UInt64) (e : BftConsensus InMemoryBackend) : Prop where
  below : e.height < h
  voters : e.VotersIn S h

theorem height_handle_block (e : BftConsensus InMemoryBackend) (b : Block) :
    (e.handle_block b).2.height = e.height := by
  rcases e.handle_block_cases b with ⟨err, -, he⟩ | ⟨-, he⟩
  · rw [he]
  · rw [he]
    rfl

omit [Crates] in
theorem height_handle_vote (e : BftConsensus InMemoryBackend) (v : Vote) :
    (e.handle_vote v).2.height = e.height := by
  rcases e.handle_vote_cases v with ⟨err, -, he⟩ | ⟨-, he⟩
  · rw [he]
  · rw [he]
    rfl

theorem height_propose (e : BftConsensus InMemoryBackend) (height now : UInt64) :
    (e.propose height [] now).2.height = e.height := by
  rcases e.propose_cases height [] now with ⟨-, he⟩ | ⟨-, ⟨err, set, -, he⟩ | ⟨root, -, -, he⟩⟩
  · rw [he]
  · rw [he]
  · rw [he]
    rfl

theorem Starved.handle_block (hs : Starved S h e) (hme : S e.local_address) (b : Block) :
    Starved S h (e.handle_block b).2 := by
  refine ⟨?_, (handle_block_takes b).voters hme hs.voters ?_⟩
  · rw [height_handle_block]
    exact hs.below
  · intro v hv
    cases hv

omit [Crates] in
theorem Starved.handle_vote (hs : Starved S h e) (hme : S e.local_address) {v : Vote}
    (hv : v.height = h → S ⟨v.voter⟩) : Starved S h (e.handle_vote v).2 := by
  refine ⟨?_, (handle_vote_takes v).voters hme hs.voters ?_⟩
  · rw [height_handle_vote]
    exact hs.below
  · intro v' hv' heq
    cases hv'
    exact hv heq.symm

theorem Starved.propose (hs : Starved S h e) (hme : S e.local_address) (height now : UInt64) :
    Starved S h (e.propose height [] now).2 := by
  refine ⟨?_, (propose_takes height [] now).voters hme hs.voters ?_⟩
  · rw [height_propose]
    exact hs.below
  · intro v hv
    cases hv

/-- A group without a quorum does not take the engine to the height. -/
theorem Starved.finalize [DecidablePred S] (hs : Starved S h e)
    (htotal : e.validator_set.total < 2 ^ 64)
    (hfew : e.validator_set.validators.weight S < e.validator_set.quorum_threshold.toNat)
    (hash : Hash) (now : UInt64) : Starved S h (e.finalize hash now).2 := by
  have hmark : e.mark.VotersIn S h := by
    intro a v hv
    rw [mark_votes] at hv
    exact hs.voters a v hv
  rcases e.finalize_cases hash now with he | ⟨-, -, he⟩ | ⟨b, p, -, -, -, hq, -, he⟩
  · rw [he]
    exact hs
  · rw [he]
    exact ⟨hs.below, hmark⟩
  · rw [he]
    refine ⟨?_, hmark⟩
    have hne : e.height + 1 ≠ h := by
      intro heq
      rw [heq, no_quorum_of_voters hs.voters htotal hfew] at hq
      cases hq
    have hbelow := hs.below
    change e.height + 1 < h
    grind

theorem Starved.finalize_pending [DecidablePred S] (hs : Starved S h e)
    (hsteady : e.Steady set store me) (htotal : set.total < 2 ^ 64)
    (hfew : set.validators.weight S < set.quorum_threshold.toNat) (now : UInt64) :
    Starved S h (e.finalize_pending now).2 := by
  refine (e.finalize_pending_preserves (P := fun e => e.Steady set store me ∧ Starved S h e)
    ?_ now ⟨hsteady, hs⟩).2
  rintro e hash now ⟨hsteady, hs⟩
  refine ⟨finalize_steady hsteady hash now, hs.finalize ?_ ?_ hash now⟩
  · rw [hsteady.is_set]
    exact htotal
  · rw [hsteady.is_set]
    exact hfew

/-! ## An engine that has passed the height -/

/-- The height of an engine never falls. -/
theorem Lone.le_height_finalize_pending (hl : Lone set store me e) (htotal : set.total < 2 ^ 64)
    (hfew : set.validators.weight (· = me) < set.quorum_threshold.toNat) (hle : h ≤ e.height)
    (now : UInt64) : h ≤ (e.finalize_pending now).2.height := by
  refine (e.finalize_pending_preserves (P := fun e => Lone set store me e ∧ h ≤ e.height)
    ?_ now ⟨hl, hle⟩).2
  rintro e hash now ⟨hl, hle⟩
  refine ⟨hl.finalize hash now, ?_⟩
  rcases e.finalize_cases hash now with he | ⟨-, -, he⟩ | ⟨b, p, -, -, -, hq, -, he⟩
  · rw [he]
    exact hle
  · rw [he]
    exact hle
  · rw [he]
    have hne := hl.succ_ne_zero htotal hfew hq
    change h ≤ e.height + 1
    grind

theorem Lone.finalize_pending (hl : Lone set store me e) (now : UInt64) :
    Lone set store me (e.finalize_pending now).2 :=
  e.finalize_pending_preserves (P := Lone set store me) (fun _ hash now he => he.finalize hash now)
    now hl

end BftConsensus

/-! ## The two loops -/

namespace ValidatorNode

open BftConsensus

variable [VoteFormat] {n : ValidatorNode InMemoryBackend} {store : StateStore InMemoryBackend}

omit [Crates] [VoteFormat] in
/-- What holds of a node in every run: nobody votes for height 0 at it, and it is in the middle
of a proposal only where it is the proposer. -/
structure Orderly (set : ValidatorSet) (store : StateStore InMemoryBackend) (me : Address)
    (n : ValidatorNode InMemoryBackend) : Prop extends Tidy set store me n where
  alone : n.consensus.VotersIn (· = me) 0
  turn : n.producing = .check ∨ n.producing = .sleep ∨ set.proposer n.height 0 = some me

omit [Crates] [VoteFormat] in
theorem Orderly.lone (ho : n.Orderly set store me) : n.consensus.Lone set store me :=
  ⟨ho.steady, ho.alone⟩

omit [Crates] [VoteFormat] in
theorem new_orderly (set : ValidatorSet) (store : StateStore InMemoryBackend) (me : Address)
    (genesis : Hash) : Orderly set store me (.new (new_with_store me set store genesis)) :=
  ⟨new_tidy set store me genesis, (new_lone set store me genesis).alone, Or.inl rfl⟩

/-- The production loop leaves its wait only for a height of its own. -/
theorem Orderly.turn_produce (ho : n.Orderly set store me) (peer_count : Nat) (now : UInt64) :
    (n.produce peer_count now).2.producing = .check ∨
      (n.produce peer_count now).2.producing = .sleep ∨
        set.proposer (n.produce peer_count now).2.height 0 = some me := by
  have hturn := ho.turn
  unfold produce
  split
  · rename_i hp
    split
    · exact Or.inl hp
    · split
      · rename_i hproposer
        rw [ho.steady.is_set, ho.steady.is_local] at hproposer
        exact Or.inr (Or.inr hproposer)
      · exact Or.inr (Or.inl rfl)
  · rename_i hp
    simp only [hp, reduceCtorEq, false_or] at hturn
    split
    · exact Or.inr (Or.inr hturn)
    · exact Or.inl rfl
  · rename_i hp
    simp only [hp, reduceCtorEq, false_or] at hturn
    exact Or.inr (Or.inr hturn)
  · rename_i hp
    simp only [hp, reduceCtorEq, false_or] at hturn
    exact Or.inr (Or.inr hturn)
  · exact Or.inr (Or.inl rfl)
  · split
    · exact Or.inl rfl
    · exact Or.inl rfl

theorem Orderly.produce (ho : n.Orderly set (Cluster.genesis_store allocations) me)
    (peer_count : Nat) (now : UInt64) :
    (n.produce peer_count now).2.Orderly set (Cluster.genesis_store allocations) me := by
  refine ⟨ho.toTidy.produce peer_count now, ?_, ho.turn_produce peer_count now⟩
  rcases n.produce_consensus peer_count now with he | ⟨-, he⟩ | he
  · rw [he]
    exact ho.alone
  · rw [he]
    exact (ho.lone.propose n.height now).alone
  · rw [he]
    exact (ho.lone.finalize_pending now).alone

theorem Orderly.receive (ho : n.Orderly set store me) (now : UInt64) (m : Message) :
    (n.receive now m).Orderly set store me := by
  refine ⟨ho.toTidy.receive now m, ?_, ?_⟩
  · rcases n.receive_consensus now m with ⟨he, -⟩ | ⟨b, -, he, -⟩ | ⟨bytes, v, -, -, he, -⟩
    · rw [he]
      exact ho.alone
    · rw [he]
      exact (ho.lone.handle_block b).alone
    · rw [he]
      exact ((ho.lone.handle_vote v).finalize_pending now).alone
  · obtain ⟨hheight, -, hproducing⟩ := n.receive_position now m
    rw [hheight, hproducing]
    exact ho.turn

theorem Orderly.react (ho : n.Orderly set store me) (now : UInt64) :
    (n.react now).2.Orderly set store me := by
  refine ⟨ho.toTidy.react now, ?_, ?_⟩
  · rcases n.react_consensus now with he | he
    · rw [he]
      exact ho.alone
    · rw [he]
      exact (ho.lone.finalize_pending now).alone
  · obtain ⟨hheight, -, hproducing⟩ := n.react_position now
    rw [hheight, hproducing]
    exact ho.turn

/-! ## A node that is starved -/

section Starved

variable [DecidablePred S] (ho : n.Orderly set (Cluster.genesis_store allocations) me) (hme : S me)
  (htotal : set.total < 2 ^ 64) (hfew : set.validators.weight S < set.quorum_threshold.toNat)
  (hs : n.consensus.Starved S h)

include ho hme htotal hfew hs

theorem produce_starved (peer_count : Nat) (now : UInt64) :
    (n.produce peer_count now).2.consensus.Starved S h := by
  rcases n.produce_consensus peer_count now with he | ⟨-, he⟩ | he
  · rw [he]
    exact hs
  · rw [he]
    exact hs.propose (ho.steady.is_local ▸ hme) n.height now
  · rw [he]
    exact hs.finalize_pending ho.steady htotal hfew now

theorem receive_starved {m : Message} (now : UInt64)
    (hm : Says (fun _ => True) (fun v => v.height = h → S ⟨v.voter⟩) m) :
    (n.receive now m).consensus.Starved S h := by
  have hlocal : S n.consensus.local_address := ho.steady.is_local ▸ hme
  rcases n.receive_consensus now m with ⟨he, -⟩ | ⟨b, -, he, -⟩ | ⟨bytes, v, rfl, hv, he, -⟩
  · rw [he]
    exact hs
  · rw [he]
    exact hs.handle_block hlocal b
  · rw [he]
    exact (hs.handle_vote hlocal (hm v hv)).finalize_pending (handle_vote_steady ho.steady v)
      htotal hfew now

omit hme in
theorem react_starved (now : UInt64) : (n.react now).2.consensus.Starved S h := by
  rcases n.react_consensus now with he | he
  · rw [he]
    exact hs
  · rw [he]
    exact hs.finalize_pending ho.steady htotal hfew now

end Starved

/-! ## A node that is done with the height -/

omit [Crates] [VoteFormat] in
/-- The engine has the height, the production loop does not broadcast for it, and the event loop
has no vote for it to broadcast. -/
structure Done (set : ValidatorSet) (me : Address) (h : UInt64)
    (n : ValidatorNode InMemoryBackend) : Prop where
  height : h ≤ n.consensus.height
  loop : n.height = h → set.proposer h 0 ≠ some me
  vote : ∀ {v : Vote}, n.receiving = .broadcast_vote v → v.height ≠ h

section Done

variable (ho : n.Orderly set (Cluster.genesis_store allocations) me)
  (htotal : set.total < 2 ^ 64)
  (hfew : set.validators.weight (· = me) < set.quorum_threshold.toNat) (hd : n.Done set me h)

include ho htotal hfew hd

theorem Done.produce (hpos : h ≠ 0) (peer_count : Nat) (now : UInt64) :
    (n.produce peer_count now).2.Done set me h := by
  have hle := hd.height
  refine ⟨?_, ?_, ?_⟩
  · rcases n.produce_consensus peer_count now with he | ⟨-, he⟩ | he
    · rw [he]
      exact hle
    · rw [he, height_propose]
      exact hle
    · rw [he]
      exact ho.lone.le_height_finalize_pending htotal hfew hle now
  · rcases n.produce_position peer_count now with ⟨hheight, -⟩ | ⟨-, hheight⟩
    · rw [hheight]
      exact hd.loop
    · -- The loop goes on above the height of the engine, or it wraps to 0.
      rw [hheight]
      intro heq
      grind
  · rw [produce_receiving]
    exact hd.vote

theorem Done.receive (now : UInt64) (m : Message) : (n.receive now m).Done set me h := by
  have hle := hd.height
  refine ⟨?_, ?_, ?_⟩
  · rcases n.receive_consensus now m with ⟨he, -⟩ | ⟨b, -, he, -⟩ | ⟨bytes, v, -, -, he, -⟩
    · rw [he]
      exact hle
    · rw [he, height_handle_block]
      exact hle
    · rw [he]
      refine (ho.lone.handle_vote v).le_height_finalize_pending htotal hfew ?_ now
      rw [height_handle_vote]
      exact hle
  · rw [(n.receive_position now m).1]
    exact hd.loop
  · rcases n.receive_consensus now m with
      ⟨-, hr⟩ | ⟨b, -, -, ⟨v, hv, hr⟩ | ⟨-, hr⟩⟩ | ⟨bytes, v, -, -, -, hr⟩
    · rw [hr]
      exact hd.vote
    · -- A block that is voted for is above the engine.
      rw [hr]
      intro v' hv'
      cases hv'
      rw [handle_block_vote hv]
      rcases n.consensus.handle_block_cases b with ⟨err, -, he⟩ | ⟨hok, -⟩
      · rw [he] at hv
        cases hv
      · have hlt : n.consensus.height < b.header.height := (validate_proposal_ok _).mp hok |>.1
        intro heq
        change b.header.height = h at heq
        grind
    · rw [hr]
      intro v' hv'
      cases hv'
    · rw [hr]
      exact hd.vote

theorem Done.react (now : UInt64) : (n.react now).2.Done set me h := by
  refine ⟨?_, ?_, ?_⟩
  · rcases n.react_consensus now with he | he
    · rw [he]
      exact hd.height
    · rw [he]
      exact ho.lone.le_height_finalize_pending htotal hfew hd.height now
  · rw [(n.react_position now).1]
    exact hd.loop
  · intro v hv
    rcases n.react_receiving now with hr | hr
    · rw [hr] at hv
      cases hv
    · rw [hr] at hv
      cases hv

end Done

/-- What it broadcasts is no vote for the height. -/
theorem Done.says_of_produce (ho : n.Orderly set store me) (hd : n.Done set me h) {peer_count : Nat}
    {now : UInt64} {m : Message} (hm : m ∈ (n.produce peer_count now).1) :
    Says (fun _ => True) (fun v => v.height ≠ h) m := by
  rcases mem_produce hm with ⟨-, b, -, rfl⟩ | ⟨hp, v, hv, rfl⟩
  · trivial
  · refine says_vote ?_
    rw [(ho.steady.own_vote hv).2]
    intro heq
    have hturn := ho.turn
    simp only [hp, reduceCtorEq, false_or] at hturn
    rw [heq] at hturn
    exact hd.loop heq hturn

theorem Done.says_of_react (hd : n.Done set me h) {now : UInt64} {m : Message}
    (hm : m ∈ (n.react now).1) : Says (fun _ => True) (fun v => v.height ≠ h) m := by
  obtain ⟨v, hv, rfl⟩ := mem_react hm
  exact says_vote (hd.vote hv)

end ValidatorNode

/-! ## Out of reach -/

namespace Cluster

open BftConsensus

variable [VoteFormat] {validators : List Address} {N : Cluster}

omit [Crates] [VoteFormat] in
/-- Every node is orderly. -/
def Orderly (validators : List Address) (allocations : ExtTreeMap Address Account) (N : Cluster) :
    Prop :=
  ∀ i, (N.node i).Orderly (equal_set validators) (genesis_store allocations) (address validators i)

omit [Crates] [VoteFormat] in
theorem Orderly.set_node (hN : Orderly validators allocations N) {i : Nat}
    {v : ValidatorNode InMemoryBackend}
    (hv : v.Orderly (equal_set validators) (genesis_store allocations) (address validators i))
    {N' : Cluster} (hnode : N'.node = (N.set_node i v).node) :
    Orderly validators allocations N' := by
  intro k
  rw [hnode, set_node_node]
  split
  · rename_i hk
    subst hk
    exact hv
  · exact hN k

theorem Orderly.step (hN : Orderly validators allocations N) (n : Nat) (s : ClusterStep) :
    Orderly validators allocations (N.step n s) := by
  refine run_preserves (P := Orderly validators allocations) ?_ ?_ ?_ hN [s]
  · intro N i now hi hN
    exact hN.set_node ((hN i).produce (peer_count n i) now) rfl
  · intro N i j now m rest hc hr hlink hN
    exact hN.set_node ((hN j).receive now m) rfl
  · intro N i now hi hN
    exact hN.set_node ((hN i).react now) rfl

theorem lossy_run_orderly (validators : List Address) (allocations : ExtTreeMap Address Account)
    (genesis_hash : Hash) (n : Nat) (steps : List LossyStep) :
    Orderly validators allocations
      ((start validators allocations genesis_hash).lossy_run n steps) := by
  refine lossy_run_preserves (fun N s hN => hN.step n s) ?_ ?_ steps
  · intro N N' hnode _ hN i
    rw [hnode]
    exact hN i
  · intro i
    exact ValidatorNode.new_orderly _ _ _ _

/-- A validator is below a height and has votes of a group only for it, every peer is of the group
or done with the height, and no vote of another is on the way. -/
structure OutOfReach (validators group : List Address) (h : UInt64) (p : Nat) (N : Cluster) :
    Prop where
  starved : (N.node p).consensus.Starved (· ∈ group) h
  peers : ∀ i, Connected validators.length i p → address validators i ∈ group ∨
    (N.node i).Done (equal_set validators) (address validators i) h
  links : ∀ i, Connected validators.length i p → ∀ m ∈ N.link i p,
    Says (fun _ => True) (fun v => v.height = h → ⟨v.voter⟩ ∈ group) m

section Steps

variable {group : List Address} {p : Nat} (hd : validators.Nodup)
  (hsize : 2 * validators.length < 2 ^ 64) (hfew : 3 * group.length ≤ 2 * validators.length)
  (hp : address validators p ∈ group)

omit [VoteFormat] [Crates] in
include hd hsize in
theorem total_lt : (equal_set validators).total < 2 ^ 64 := by
  rw [equal_set_total hd]
  omega

omit [VoteFormat] [Crates] in
include hd hsize hfew in
/-- Two thirds of the validators are no quorum. -/
theorem group_few : (equal_set validators).validators.weight (· ∈ group) <
    (equal_set validators).quorum_threshold.toNat := by
  have hle : (equal_set validators).validators.weight (· ∈ group) ≤ group.length :=
    equal_set_weight_le group fun _ _ hmem => hmem
  rw [equal_set_threshold hd hsize]
  omega

omit [VoteFormat] [Crates] in
include hd hsize in
/-- A validator with a peer is no quorum. -/
theorem one_few {i j : Nat} (hc : Connected validators.length i j) (a : Address) :
    (equal_set validators).validators.weight (· = a) <
      (equal_set validators).quorum_threshold.toNat := by
  have hle : (equal_set validators).validators.weight (· = a) ≤ [a].length :=
    equal_set_weight_le [a] fun _ _ heq => List.mem_singleton.mpr heq
  obtain ⟨hi, hj, hij⟩ := connected_iff.mp hc
  rw [List.length_singleton] at hle
  rw [equal_set_threshold hd hsize]
  omega

omit [Crates] in
/-- A node goes on, and its messages go out. -/
theorem OutOfReach.broadcast (hN : OutOfReach validators group h p N) {i : Nat}
    {v : ValidatorNode InMemoryBackend} {out : List Message}
    (hstarved : i = p → v.consensus.Starved (· ∈ group) h)
    (hpeer : Connected validators.length i p → address validators i ∈ group ∨
      v.Done (equal_set validators) (address validators i) h)
    (hout : Connected validators.length i p → ∀ m ∈ out,
      Says (fun _ => True) (fun v => v.height = h → ⟨v.voter⟩ ∈ group) m) :
    OutOfReach validators group h p
      (Cluster.broadcast validators.length (N.set_node i v) i out) := by
  refine ⟨?_, ?_, ?_⟩
  · rw [broadcast_node, set_node_node]
    split
    · rename_i hpi
      exact hstarved hpi.symm
    · exact hN.starved
  · intro k hk
    rw [broadcast_node, set_node_node]
    split
    · rename_i hki
      subst hki
      exact hpeer hk
    · exact hN.peers k hk
  · intro k hk m hm
    rw [broadcast_link, set_node_link] at hm
    split at hm
    · rename_i hki
      rcases List.mem_append.mp hm with hm | hm
      · exact hN.links k hk m hm
      · exact hout hki.2 m hm
    · exact hN.links k hk m hm

omit [Crates] in
/-- Members of the group vote in their own name, and the others do not vote for the height. -/
theorem says_of_peer {i : Nat} {m : Message} {done : Prop}
    (hpeer : address validators i ∈ group ∨ done)
    (hown : Says (fun _ => True) (fun v => v.voter = (address validators i).bytes) m)
    (hdone : done → Says (fun _ => True) (fun v => v.height ≠ h) m) :
    Says (fun _ => True) (fun v => v.height = h → ⟨v.voter⟩ ∈ group) m := by
  rcases hpeer with hmem | hyes
  · refine hown.mono (fun _ hb => hb) fun v hv _ => ?_
    rw [hv]
    exact hmem
  · exact (hdone hyes).mono (fun _ hb => hb) fun v hv heq => absurd heq hv

include hd hsize hfew hp in
theorem OutOfReach.step (ho : Orderly validators allocations N)
    (hN : OutOfReach validators group h p N) (s : ClusterStep) :
    OutOfReach validators group h p (N.step validators.length s) := by
  have htotal := total_lt hd hsize
  have hgroup := group_few hd hsize hfew
  have hpos : h ≠ 0 := by
    have hbelow := hN.starved.below
    grind
  refine (run_preserves
    (P := fun N => Orderly validators allocations N ∧ OutOfReach validators group h p N)
    ?_ ?_ ?_ ⟨ho, hN⟩ [s]).2
  · rintro N i now hi ⟨ho, hN⟩
    refine ⟨ho.set_node ((ho i).produce _ now) rfl, hN.broadcast ?_ ?_ ?_⟩
    · rintro rfl
      exact ValidatorNode.produce_starved (ho i) hp htotal hgroup hN.starved _ now
    · intro hc
      exact (hN.peers i hc).imp_right fun hdone =>
        hdone.produce (ho i) htotal (one_few hd hsize hc _) hpos _ now
    · intro hc m hm
      exact says_of_peer (hN.peers i hc) ((ho i).says_of_produce hm) fun hdone =>
        hdone.says_of_produce (ho i) hm
  · rintro N i j now m rest hc - hlink ⟨ho, hN⟩
    refine ⟨ho.set_node ((ho j).receive now m) rfl, ?_⟩
    refine ⟨?_, ?_, ?_⟩
    · show ((N.set_node j ((N.node j).receive now m)).node p).consensus.Starved _ h
      rw [set_node_node]
      split
      · rename_i hpj
        subst hpj
        exact ValidatorNode.receive_starved (ho p) hp htotal hgroup hN.starved now
          (hN.links i hc m (hlink ▸ List.mem_cons_self))
      · exact hN.starved
    · intro k hk
      show _ ∨ ((N.set_node j ((N.node j).receive now m)).node k).Done _ _ h
      rw [set_node_node]
      split
      · rename_i hkj
        subst hkj
        exact (hN.peers k hk).imp_right fun hdone =>
          hdone.receive (ho k) htotal (one_few hd hsize hk _) now m
      · exact hN.peers k hk
    · intro k hk m' hm'
      dsimp only at hm'
      split at hm'
      · rename_i hki
        rw [hki.1] at hk
        refine hN.links i hk m' ?_
        rw [hki.2, hlink]
        exact List.mem_cons_of_mem m hm'
      · exact hN.links k hk m' hm'
  · rintro N i now hi ⟨ho, hN⟩
    refine ⟨ho.set_node ((ho i).react now) rfl, hN.broadcast ?_ ?_ ?_⟩
    · rintro rfl
      exact ValidatorNode.react_starved (ho i) htotal hgroup hN.starved now
    · intro hc
      exact (hN.peers i hc).imp_right fun hdone =>
        hdone.react (ho i) htotal (one_few hd hsize hc _) now
    · intro hc m hm
      exact says_of_peer (hN.peers i hc) ((ho i).says_of_react hm) fun hdone =>
        hdone.says_of_react hm

include hd hsize hfew hp in
theorem OutOfReach.lossy_run (ho : Orderly validators allocations N)
    (hN : OutOfReach validators group h p N) (steps : List LossyStep) :
    OutOfReach validators group h p (N.lossy_run validators.length steps) := by
  refine (lossy_run_preserves
    (P := fun N => Orderly validators allocations N ∧ OutOfReach validators group h p N)
    ?_ ?_ ⟨ho, hN⟩ steps).2
  · rintro N s ⟨ho, hN⟩
    exact ⟨ho.step validators.length s, hN.step hd hsize hfew hp ho s⟩
  · rintro N N' hnode hlink ⟨ho, hN⟩
    refine ⟨fun i => by rw [hnode]; exact ho i, ⟨?_, ?_, ?_⟩⟩
    · rw [hnode]
      exact hN.starved
    · rw [hnode]
      exact hN.peers
    · intro i hi m hm
      exact hN.links i hi m ((hlink i p).mem hm)

end Steps

/-- In a network that may lose messages, a validator that is out of reach of a height stays below
it in all that may come: what is not voted for in time is never voted for again. -/
theorem out_of_reach_for_good (validators group : List Address)
    (allocations : ExtTreeMap Address Account) (genesis_hash : Hash)
    (before after : List LossyStep) (h : UInt64) (p : Nat) (hd : validators.Nodup)
    (hsize : 2 * validators.length < 2 ^ 64) (hfew : 3 * group.length ≤ 2 * validators.length)
    (hp : address validators p ∈ group)
    (hout : OutOfReach validators group h p
      ((start validators allocations genesis_hash).lossy_run validators.length before)) :
    let N := (start validators allocations genesis_hash).lossy_run validators.length
      (before ++ after)
    (N.node p).consensus.height < h ∧ OutOfReach validators group h p N := by
  intro N
  have hN : OutOfReach validators group h p N := by
    have horderly := lossy_run_orderly validators allocations genesis_hash validators.length before
    show OutOfReach validators group h p (List.foldl _ _ (before ++ after))
    rw [List.foldl_append]
    exact hout.lossy_run hd hsize hfew hp horderly after
  exact ⟨hN.starved.below, hN⟩

end Cluster

end Pemrix

namespace Pemrix.Concrete

open Cluster BftConsensus

/-- The second of two validators proposes height 1. The first one votes and finalizes, and its
vote is lost. -/
def lost_vote : List LossyStep :=
  [.step (.produce 1 10), .step (.produce 1 10), .step (.produce 1 10), .step (.produce 1 10),
    .step (.deliver 1 0 20), .step (.react 0 20), .lose 0 1, .step (.react 0 20),
    .step (.deliver 1 0 30)]

theorem lost_vote_is_out_of_reach :
    OutOfReach [addr 1, addr 2] [addr 2] 1 1
      ((start [addr 1, addr 2] ∅ default).lossy_run [addr 1, addr 2].length lost_vote) := by
  generalize hN : (start [addr 1, addr 2] ∅ default).lossy_run [addr 1, addr 2].length lost_vote = N
  have hpeer : ∀ i, Connected [addr 1, addr 2].length i 1 → i = 0 := by
    intro i hc
    obtain ⟨hi, -, hij⟩ := connected_iff.mp hc
    simp only [List.length_cons, List.length_nil] at hi
    omega
  have hvoters : ((N.node 1).consensus.round 1).votes.toList.map Prod.fst = [addr 2] := by
    rw [← hN]
    decide +kernel
  have hlink : N.link 0 1 = [] := by
    rw [← hN]
    decide +kernel
  have hreceiving : (N.node 0).receiving = .next_event := by
    rw [← hN]
    decide +kernel
  refine ⟨⟨?_, ?_⟩, ?_, ?_⟩
  · rw [← hN]
    decide +kernel
  · intro a v hv
    have hmem : (a, v) ∈ ((N.node 1).consensus.round 1).votes.toList :=
      ExtTreeMap.mem_toList_iff_getElem?_eq_some.mpr hv
    rw [← hvoters]
    exact List.mem_map_of_mem hmem
  · intro i hc
    rw [hpeer i hc]
    refine Or.inr ⟨?_, fun _ => by decide +kernel, ?_⟩
    · rw [← hN]
      decide +kernel
    · intro v hv
      rw [hreceiving] at hv
      cases hv
  · intro i hc m hm
    rw [hpeer i hc, hlink] at hm
    cases hm

/-- The proposer broadcasts its block once more, and the first one refuses it. -/
def once_more : List LossyStep :=
  [.step (.produce 1 40), .step (.produce 1 40), .step (.produce 1 40), .step (.produce 1 40),
    .step (.deliver 1 0 50), .step (.react 0 50)]

theorem lost_vote_stalls_the_proposer :
    let N := (start [addr 1, addr 2] ∅ default).lossy_run [addr 1, addr 2].length
      (lost_vote ++ once_more)
    N.sent.length = 4 ∧ (N.node 0).consensus.height = 1 ∧ (N.node 1).consensus.height < 1 :=
  ⟨by decide +kernel, by decide +kernel,
    (out_of_reach_for_good [addr 1, addr 2] [addr 2] ∅ default lost_vote once_more 1 1 (by decide)
      (by decide) (by decide) (by decide) lost_vote_is_out_of_reach).1⟩

end Pemrix.Concrete
