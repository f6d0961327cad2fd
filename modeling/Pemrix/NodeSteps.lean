-- What the pieces of the two loops of a node do to its engine and what they send:
-- a node proposes empty blocks only, so its store and its set stay, and it votes
-- in its own name only.
import Pemrix.Bootstrap

open Std

namespace Pemrix

variable [Crates] {set : ValidatorSet} {allocations : ExtTreeMap Address Account} {me : Address}

/-! ## Engines that propose empty blocks -/

namespace BftConsensus

omit [Crates] in
/-- The engine keeps its name, its set and its store, and its rounds hold what belongs there. -/
structure Steady (set : ValidatorSet) (store : StateStore InMemoryBackend) (me : Address)
    (e : BftConsensus InMemoryBackend) : Prop where
  is_local : e.local_address = me
  is_set : e.validator_set = set
  is_store : e.state = store
  stored : ∀ h, Stored set (fun _ => True) h (e.round h)

variable {e : BftConsensus InMemoryBackend} {store : StateStore InMemoryBackend}

theorem handle_block_steady (hs : Steady set store me e) (b : Block) :
    Steady set store me (e.handle_block b).2 := by
  obtain ⟨hlocal, hset⟩ := e.handle_block_same b
  refine ⟨hlocal.trans hs.is_local, hset.trans hs.is_set, ?_,
    handle_block_stored hs.stored hs.is_set trivial⟩
  rcases e.handle_block_cases b with ⟨err, -, he⟩ | ⟨-, he⟩
  · rw [he]
    exact hs.is_store
  · rw [he]
    exact hs.is_store

omit [Crates] in
theorem handle_vote_steady (hs : Steady set store me e) (v : Vote) :
    Steady set store me (e.handle_vote v).2 := by
  obtain ⟨hlocal, hset⟩ := e.handle_vote_same v
  refine ⟨hlocal.trans hs.is_local, hset.trans hs.is_set, ?_, handle_vote_stored hs.stored v⟩
  rcases e.handle_vote_cases v with ⟨err, -, he⟩ | ⟨-, he⟩
  · rw [he]
    exact hs.is_store
  · rw [he]
    exact hs.is_store

theorem finalize_steady (hs : Steady set store me e) (hash : Hash) (now : UInt64) :
    Steady set store me (e.finalize hash now).2 := by
  have hstored := finalize_stored hs.stored hash now
  rcases e.finalize_cases hash now with he | ⟨-, -, he⟩ | ⟨b, p, -, -, -, -, -, he⟩
  · rw [he]
    exact hs
  · rw [he] at hstored ⊢
    exact ⟨hs.is_local, hs.is_set, hs.is_store, hstored⟩
  · rw [he] at hstored ⊢
    exact ⟨hs.is_local, hs.is_set, hs.is_store, hstored⟩

theorem finalize_pending_steady (hs : Steady set store me e) (now : UInt64) :
    Steady set store me (e.finalize_pending now).2 :=
  e.finalize_pending_preserves (P := Steady set store me)
    (fun _ hash now he => finalize_steady he hash now) now hs

/-- Without validator records the set stays as it is. -/
theorem next_set_genesis (set : ValidatorSet) :
    next_set set (Cluster.genesis_store allocations) = set := by
  have hrecords : (Cluster.genesis_store allocations).validator_records = .ok [] := by
    show StateStore.validator_records_loop
      (InMemoryBackend.entries_with ⟨allocations, ∅⟩ VALIDATOR_PREFIX) = .ok []
    have hentries : InMemoryBackend.entries_with ⟨allocations, ∅⟩ VALIDATOR_PREFIX = [] := by
      simp [InMemoryBackend.entries_with]
    rw [hentries]
    rfl
  unfold next_set
  rw [hrecords]
  simp [active_candidates, ValidatorSet.new, ValidatorSet.is_empty]

/-- The proposer of a height proposes an empty block, with the store and the set unchanged. -/
theorem propose_empty (hs : Steady set (Cluster.genesis_store allocations) me e) {height : UInt64}
    (hp : set.proposer height 0 = some me) (now : UInt64) :
    ∃ b, b.header.height = height ∧ b.header.proposer = me.bytes ∧
      e.propose height [] now = (.ok b, e.proposed height b e.state e.validator_set) := by
  rcases e.propose_cases height [] now with
    ⟨hne, -⟩ | ⟨-, ⟨err, set', ⟨⟨err', herr⟩, -⟩ | ⟨⟨err', herr⟩, -⟩, -⟩ | ⟨root, -, -, he⟩⟩
  · rw [hs.is_set, hs.is_local] at hne
    exact absurd hp hne
  · cases herr
  · rw [show (execute_all e.state []).2 = e.state from rfl, hs.is_store] at herr
    cases herr
  · have hnext : next_set e.validator_set (execute_all e.state []).2 = e.validator_set := by
      rw [show (execute_all e.state []).2 = e.state from rfl, hs.is_store]
      exact next_set_genesis e.validator_set
    refine ⟨e.built height [] now root, rfl, ?_, ?_⟩
    · show e.local_address.bytes = me.bytes
      rw [hs.is_local]
    · rw [he, hnext]
      rfl

theorem propose_steady (hs : Steady set (Cluster.genesis_store allocations) me e)
    (height now : UInt64) :
    Steady set (Cluster.genesis_store allocations) me (e.propose height [] now).2 := by
  have hstored := propose_stored hs.stored hs.is_set height [] now fun _ _ _ _ => trivial
  by_cases hp : set.proposer height 0 = some me
  · obtain ⟨b, -, -, he⟩ := propose_empty hs hp now
    rw [he] at hstored ⊢
    exact ⟨hs.is_local, hs.is_set, hs.is_store, hstored⟩
  · rcases e.propose_cases height [] now with ⟨-, he⟩ | ⟨hyes, -⟩
    · rw [he]
      exact hs
    · rw [hs.is_set, hs.is_local] at hyes
      exact absurd hyes hp

omit [Crates] in
theorem new_steady (set : ValidatorSet) (store : StateStore InMemoryBackend) (me : Address)
    (genesis : Hash) : Steady set store me (new_with_store me set store genesis) := by
  refine ⟨rfl, rfl, rfl, fun h => ?_⟩
  rw [new_round]
  refine ⟨fun hb => ?_, fun hp => absurd rfl hp, fun hv => ?_⟩
  · cases hb
  · change (∅ : ExtTreeMap Address Vote)[_]? = some _ at hv
    simp at hv

/-! ## Too few voters -/

omit [Crates] in
/-- All voters of the round are in a group. -/
def VotersIn (S : Address → Prop) (e : BftConsensus InMemoryBackend) (h : UInt64) : Prop :=
  ∀ a v, (e.round h).votes[a]? = some v → S a

omit [Crates] in
theorem TakesVotes.voters {S : Address → Prop} {e' : BftConsensus InMemoryBackend}
    {came : Option Vote} (ht : TakesVotes e e' came) (hme : S e.local_address) {h : UInt64}
    (hin : e.VotersIn S h) (hcame : ∀ v, came = some v → h = v.height → S ⟨v.voter⟩) :
    e'.VotersIn S h := by
  intro a v hv
  by_cases ha : a = e.local_address
  · rw [ha]
    exact hme
  · rcases ht h a v hv ha with hold | ⟨hc, rfl, hh⟩
    · exact hin a v hold
    · exact hcame v hc hh

omit [Crates] in
/-- A group with less power than the threshold is no quorum. -/
theorem no_quorum_of_voters {S : Address → Prop} [DecidablePred S] {h : UInt64}
    (hin : e.VotersIn S h) (htotal : e.validator_set.total < 2 ^ 64)
    (hfew : e.validator_set.validators.weight S < e.validator_set.quorum_threshold.toNat) :
    e.has_quorum h = false := by
  have hle : (e.validator_set.validators.weight fun a => a ∈ (e.round h).votes) ≤
      e.validator_set.validators.weight S := by
    refine ExtTreeMap.weight_mono ?_
    intro a ha
    obtain ⟨v, hv⟩ := Option.isSome_iff_exists.mp (ExtTreeMap.mem_iff_isSome_getElem?.mp ha)
    exact hin a v hv
  have hfits : (e.validator_set.validators.weight fun a => a ∈ (e.round h).votes) < 2 ^ 64 :=
    Nat.lt_of_le_of_lt ExtTreeMap.weight_le_totalWeight htotal
  rw [← Bool.not_eq_true, has_quorum_iff, UInt64.le_iff_toNat_le, toNat_vote_power e _ hfits]
  omega

omit [Crates] in
/-- A round with the votes of a quorum. -/
theorem has_quorum_of_voters {S : Address → Prop} [DecidablePred S] {h : UInt64}
    (hin : ∀ a, S a → a ∈ (e.round h).votes) (htotal : e.validator_set.total < 2 ^ 64)
    (hq : e.validator_set.quorum_threshold.toNat ≤ e.validator_set.validators.weight S) :
    e.has_quorum h = true := by
  have hfits : (e.validator_set.validators.weight fun a => a ∈ (e.round h).votes) < 2 ^ 64 :=
    Nat.lt_of_le_of_lt ExtTreeMap.weight_le_totalWeight htotal
  rw [has_quorum_iff, UInt64.le_iff_toNat_le, toNat_vote_power e _ hfits]
  exact Nat.le_trans hq (ExtTreeMap.weight_mono hin)

/-- Without a quorum for the next height, `finalize_pending` does nothing. -/
theorem finalize_pending_of_no_quorum (hq : e.has_quorum (e.height + 1) = false) (now : UInt64) :
    e.finalize_pending now = (none, e) :=
  finalize_candidates_of_idle (fun _ => hq) now _ _

end BftConsensus

/-! ## The loops of a node -/

/-- A property of the blocks and votes in a message. -/
def Says [VoteFormat] (block : Block → Prop) (vote : Vote → Prop) : Message → Prop
  | .Block b => block b
  | .Vote bytes => ∀ v, decode bytes = some v → vote v
  | _ => True

omit [Crates] in
theorem Says.mono [VoteFormat] {block block' : Block → Prop} {vote vote' : Vote → Prop}
    {m : Message} (h : Says block vote m) (hb : ∀ b, block b → block' b)
    (hv : ∀ v, vote v → vote' v) : Says block' vote' m := by
  cases m with
  | Block b => exact hb b h
  | Vote bytes => exact fun v hd => hv v (h v hd)
  | _ => trivial

namespace ValidatorNode

variable [VoteFormat] {n : ValidatorNode InMemoryBackend}

/-- What a piece of the production loop does to the engine. -/
theorem produce_consensus (n : ValidatorNode InMemoryBackend) (peer_count : Nat) (now : UInt64) :
    (n.produce peer_count now).2.consensus = n.consensus ∨
    (n.producing = .propose ∧
      (n.produce peer_count now).2.consensus = (n.consensus.propose n.height [] now).2) ∨
    (n.produce peer_count now).2.consensus = (n.consensus.finalize_pending now).2 := by
  unfold produce
  split
  · refine Or.inl ?_
    split
    · rfl
    · split
      · rfl
      · rfl
  · rename_i hp
    refine Or.inr (Or.inl ⟨hp, ?_⟩)
    split
    · rename_i he
      rw [he]
    · rename_i he
      rw [he]
  · exact Or.inl rfl
  · exact Or.inl rfl
  · exact Or.inr (Or.inr rfl)
  · refine Or.inl ?_
    split
    · rfl
    · rfl

theorem produce_receiving (n : ValidatorNode InMemoryBackend) (peer_count : Nat) (now : UInt64) :
    (n.produce peer_count now).2.receiving = n.receiving := by
  unfold produce
  split
  · split
    · rfl
    · split
      · rfl
      · rfl
  · split
    · rfl
    · rfl
  · rfl
  · rfl
  · rfl
  · split
    · rfl
    · rfl

/-- The height goes up when the engine has passed it, and no height is proposed twice. -/
theorem produce_position (n : ValidatorNode InMemoryBackend) (peer_count : Nat) (now : UInt64) :
    ((n.produce peer_count now).2.height = n.height ∧
      ((n.produce peer_count now).2.last_proposed_height = n.last_proposed_height ∨
        (n.produce peer_count now).2.last_proposed_height = some n.height) ∧
      ((n.produce peer_count now).2.producing = .propose →
        n.last_proposed_height ≠ some n.height)) ∨
    (n.height ≤ n.consensus.height ∧
      (n.produce peer_count now).2.height = n.consensus.height + 1) := by
  unfold produce
  split
  · rename_i hp
    refine Or.inl ?_
    split
    · refine ⟨rfl, Or.inl rfl, fun h => ?_⟩
      rw [hp] at h
      cases h
    · split
      · refine ⟨rfl, Or.inl rfl, fun h => ?_⟩
        dsimp only at h
        split at h
        · assumption
        · cases h
      · refine ⟨rfl, Or.inl rfl, fun h => ?_⟩
        cases h
  · refine Or.inl ?_
    split
    · refine ⟨rfl, Or.inr rfl, fun h => ?_⟩
      cases h
    · refine ⟨rfl, Or.inl rfl, fun h => ?_⟩
      cases h
  · refine Or.inl ⟨rfl, Or.inl rfl, fun h => ?_⟩
    cases h
  · refine Or.inl ⟨rfl, Or.inl rfl, fun h => ?_⟩
    cases h
  · refine Or.inl ⟨rfl, Or.inl rfl, fun h => ?_⟩
    cases h
  · split
    · rename_i hle
      exact Or.inr ⟨hle, rfl⟩
    · refine Or.inl ⟨rfl, Or.inl rfl, fun h => ?_⟩
      cases h

/-- A node that comes to its vote has broadcast the block. -/
theorem produce_block (n : ValidatorNode InMemoryBackend) {peer_count : Nat} {now : UInt64}
    (h : (n.produce peer_count now).2.producing = .broadcast_vote) :
    n.producing = .broadcast_block ∧ (n.produce peer_count now).2.height = n.height ∧
      (n.produce peer_count now).1 = (n.consensus.own_proposal n.height).toList.map .Block := by
  cases hp : n.producing with
  | check =>
    simp only [produce, hp] at h
    split at h
    · rw [hp] at h
      cases h
    · split at h
      · dsimp only at h
        split at h
        · cases h
        · cases h
      · cases h
  | propose =>
    simp only [produce, hp] at h
    split at h
    · cases h
    · cases h
  | broadcast_block =>
    simp only [produce, hp]
    exact ⟨trivial, trivial, trivial⟩
  | broadcast_vote =>
    simp only [produce, hp] at h
    cases h
  | finalize =>
    simp only [produce, hp] at h
    cases h
  | sleep =>
    simp only [produce, hp] at h
    split at h
    · cases h
    · cases h

/-- A node that is not the proposer only waits. -/
theorem produce_waits {peer_count : Nat} {now : UInt64}
    (hrest : n.producing = .check ∨ n.producing = .sleep)
    (hne : n.consensus.validator_set.proposer n.height 0 ≠ some n.consensus.local_address) :
    (n.produce peer_count now).2.producing = .check ∨
      (n.produce peer_count now).2.producing = .sleep := by
  rcases hrest with hp | hp
  · simp only [produce, hp]
    split
    · exact Or.inl hp
    · exact Or.inr rfl
  · simp only [produce, hp]
    split
    · exact Or.inl rfl
    · exact Or.inl rfl

/-- What a piece of the production loop broadcasts. -/
theorem mem_produce {peer_count : Nat} {now : UInt64} {m : Message}
    (hm : m ∈ (n.produce peer_count now).1) :
    (n.producing = .broadcast_block ∧
      ∃ b, n.consensus.own_proposal n.height = some b ∧ m = .Block b) ∨
    (n.producing = .broadcast_vote ∧
      ∃ v, n.consensus.own_vote n.height = some v ∧ m = .Vote (encode v)) := by
  unfold produce at hm
  split at hm
  · split at hm
    · cases hm
    · split at hm
      · cases hm
      · cases hm
  · split at hm
    · cases hm
    · cases hm
  · rename_i hp
    obtain ⟨b, hb, rfl⟩ := List.mem_map.mp hm
    exact Or.inl ⟨hp, b, Option.mem_toList.mp hb, rfl⟩
  · rename_i hp
    obtain ⟨v, hv, rfl⟩ := List.mem_map.mp hm
    exact Or.inr ⟨hp, v, Option.mem_toList.mp hv, rfl⟩
  · cases hm
  · split at hm
    · cases hm
    · cases hm

/-- What the arrival of a block does. -/
theorem receive_block (n : ValidatorNode InMemoryBackend) (now : UInt64) (b : Block) :
    (n.receive now (.Block b)).consensus = (n.consensus.handle_block b).2 ∧
      ((∃ v, (n.consensus.handle_block b).1 = .ok v ∧
          (n.receive now (.Block b)).receiving = .broadcast_vote v) ∨
        (∃ err, (n.consensus.handle_block b).1 = .error err) ∧
          (n.receive now (.Block b)).receiving = .finalize) := by
  simp only [receive]
  split
  · rename_i v e he
    rw [he]
    exact ⟨rfl, Or.inl ⟨v, rfl, rfl⟩⟩
  · rename_i err e he
    rw [he]
    exact ⟨rfl, Or.inr ⟨⟨err, rfl⟩, rfl⟩⟩

/-- What the arrival of a message does to the engine. -/
theorem receive_consensus (n : ValidatorNode InMemoryBackend) (now : UInt64) (m : Message) :
    ((n.receive now m).consensus = n.consensus ∧ (n.receive now m).receiving = n.receiving) ∨
    (∃ b, m = .Block b ∧ (n.receive now m).consensus = (n.consensus.handle_block b).2 ∧
      ((∃ v, (n.consensus.handle_block b).1 = .ok v ∧
          (n.receive now m).receiving = .broadcast_vote v) ∨
        (∃ err, (n.consensus.handle_block b).1 = .error err) ∧
          (n.receive now m).receiving = .finalize)) ∨
    ∃ bytes v, m = .Vote bytes ∧ decode bytes = some v ∧
      (n.receive now m).consensus = ((n.consensus.handle_vote v).2.finalize_pending now).2 ∧
      (n.receive now m).receiving = n.receiving := by
  cases m with
  | Block b => exact Or.inr (Or.inl ⟨b, rfl, n.receive_block now b⟩)
  | Vote bytes =>
    simp only [receive]
    split
    · exact Or.inl ⟨rfl, rfl⟩
    · rename_i v hv
      exact Or.inr (Or.inr ⟨bytes, v, rfl, hv, rfl, rfl⟩)
  | _ => exact Or.inl ⟨rfl, rfl⟩

theorem receive_position (n : ValidatorNode InMemoryBackend) (now : UInt64) (m : Message) :
    (n.receive now m).height = n.height ∧
      (n.receive now m).last_proposed_height = n.last_proposed_height ∧
      (n.receive now m).producing = n.producing := by
  unfold receive
  split
  · split
    · exact ⟨rfl, rfl, rfl⟩
    · exact ⟨rfl, rfl, rfl⟩
  · split
    · exact ⟨rfl, rfl, rfl⟩
    · exact ⟨rfl, rfl, rfl⟩
  · exact ⟨rfl, rfl, rfl⟩

/-- What the event loop does to the engine after a block. -/
theorem react_consensus (n : ValidatorNode InMemoryBackend) (now : UInt64) :
    (n.react now).2.consensus = n.consensus ∨
    (n.react now).2.consensus = (n.consensus.finalize_pending now).2 := by
  unfold react
  split
  · exact Or.inl rfl
  · exact Or.inl rfl
  · exact Or.inr rfl

theorem react_position (n : ValidatorNode InMemoryBackend) (now : UInt64) :
    (n.react now).2.height = n.height ∧
      (n.react now).2.last_proposed_height = n.last_proposed_height ∧
      (n.react now).2.producing = n.producing := by
  unfold react
  split
  · exact ⟨rfl, rfl, rfl⟩
  · exact ⟨rfl, rfl, rfl⟩
  · exact ⟨rfl, rfl, rfl⟩

theorem react_receiving (n : ValidatorNode InMemoryBackend) (now : UInt64) :
    (n.react now).2.receiving = .next_event ∨ (n.react now).2.receiving = .finalize := by
  unfold react
  split
  · rename_i h
    exact Or.inl h
  · exact Or.inr rfl
  · exact Or.inl rfl

theorem mem_react {now : UInt64} {m : Message} (hm : m ∈ (n.react now).1) :
    ∃ v, n.receiving = .broadcast_vote v ∧ m = .Vote (encode v) := by
  unfold react at hm
  split at hm
  · cases hm
  · rename_i v hv
    exact ⟨v, hv, List.mem_singleton.mp hm⟩
  · cases hm

end ValidatorNode

/-! ## Votes in the own name -/

omit [Crates] in
theorem encode_vote_inj [VoteFormat] {v v' : Vote} (h : encode v = encode v') : v = v' := by
  have hd : decode (encode v) = some v := VoteFormat.decode_encode v
  have hd' : decode (encode v') = some v' := VoteFormat.decode_encode v'
  rw [h, hd'] at hd
  exact (Option.some.inj hd).symm

omit [Crates] in
theorem says_vote [VoteFormat] {block : Block → Prop} {vote : Vote → Prop} {v : Vote} (h : vote v) :
    Says block vote (.Vote (encode v)) := by
  intro v' hd
  have hv : decode (encode v) = some v := VoteFormat.decode_encode v
  rw [hv] at hd
  cases hd
  exact h

namespace BftConsensus

variable {e : BftConsensus InMemoryBackend} {store : StateStore InMemoryBackend}

omit [Crates] in
theorem Steady.own_vote (hs : Steady set store me e) {h : UInt64} {v : Vote}
    (hv : e.own_vote h = some v) : v.voter = me.bytes ∧ v.height = h := by
  rw [own_vote_eq, hs.is_local] at hv
  exact ((hs.stored h).voted hv).2

omit [Crates] in
theorem Steady.own_proposal (hs : Steady set store me e) {h : UInt64} {b : Block}
    (hb : e.own_proposal h = some b) : b.header.height = h := by
  rw [own_proposal_eq] at hb
  exact ((hs.stored h).block hb).1

/-- The vote for a block is the vote of the engine. -/
theorem handle_block_vote {b : Block} {v : Vote} (h : (e.handle_block b).1 = .ok v) :
    v = e.local_vote b.hash b.header.height 0 := by
  rcases e.handle_block_cases b with ⟨err, -, he⟩ | ⟨-, he⟩
  · rw [he] at h
    cases h
  · rw [he] at h
    dsimp only at h
    split at h
    · cases h
    · cases h
      rfl

end BftConsensus

namespace ValidatorNode

open BftConsensus

variable [VoteFormat] {n : ValidatorNode InMemoryBackend}

/-- A steady engine, and a vote of its own to broadcast. -/
structure Tidy (set : ValidatorSet) (store : StateStore InMemoryBackend) (me : Address)
    (n : ValidatorNode InMemoryBackend) : Prop where
  steady : n.consensus.Steady set store me
  vote : ∀ {v : Vote}, n.receiving = .broadcast_vote v → v.voter = me.bytes

omit [Crates] [VoteFormat] in
theorem new_tidy (set : ValidatorSet) (store : StateStore InMemoryBackend) (me : Address)
    (genesis : Hash) : Tidy set store me (.new (new_with_store me set store genesis)) := by
  refine ⟨new_steady set store me genesis, ?_⟩
  intro v hv
  cases hv

theorem Tidy.produce (ht : n.Tidy set (Cluster.genesis_store allocations) me) (peer_count : Nat)
    (now : UInt64) :
    (n.produce peer_count now).2.Tidy set (Cluster.genesis_store allocations) me := by
  refine ⟨?_, ?_⟩
  · rcases n.produce_consensus peer_count now with he | ⟨-, he⟩ | he
    · rw [he]
      exact ht.steady
    · rw [he]
      exact propose_steady ht.steady n.height now
    · rw [he]
      exact finalize_pending_steady ht.steady now
  · rw [produce_receiving]
    exact ht.vote

theorem Tidy.receive {store : StateStore InMemoryBackend} (ht : n.Tidy set store me) (now : UInt64)
    (m : Message) : (n.receive now m).Tidy set store me := by
  rcases n.receive_consensus now m with
    ⟨he, hr⟩ | ⟨b, -, he, ⟨v, hv, hr⟩ | ⟨-, hr⟩⟩ | ⟨bytes, v, -, -, he, hr⟩
  · refine ⟨?_, ?_⟩
    · rw [he]
      exact ht.steady
    · rw [hr]
      exact ht.vote
  · refine ⟨?_, ?_⟩
    · rw [he]
      exact handle_block_steady ht.steady b
    · rw [hr]
      intro v' hv'
      cases hv'
      rw [handle_block_vote hv, ← ht.steady.is_local]
      rfl
  · refine ⟨?_, ?_⟩
    · rw [he]
      exact handle_block_steady ht.steady b
    · rw [hr]
      intro v' hv'
      cases hv'
  · refine ⟨?_, ?_⟩
    · rw [he]
      exact finalize_pending_steady (handle_vote_steady ht.steady v) now
    · rw [hr]
      exact ht.vote

theorem Tidy.react {store : StateStore InMemoryBackend} (ht : n.Tidy set store me) (now : UInt64) :
    (n.react now).2.Tidy set store me := by
  refine ⟨?_, ?_⟩
  · rcases n.react_consensus now with he | he
    · rw [he]
      exact ht.steady
    · rw [he]
      exact finalize_pending_steady ht.steady now
  · intro v hv
    rcases n.react_receiving now with hr | hr
    · rw [hr] at hv
      cases hv
    · rw [hr] at hv
      cases hv

/-- A node broadcasts votes in its own name only. -/
theorem Tidy.says_of_produce {store : StateStore InMemoryBackend} (ht : n.Tidy set store me)
    {peer_count : Nat} {now : UInt64} {m : Message} (hm : m ∈ (n.produce peer_count now).1) :
    Says (fun _ => True) (fun v => v.voter = me.bytes) m := by
  rcases mem_produce hm with ⟨-, b, -, rfl⟩ | ⟨-, v, hv, rfl⟩
  · trivial
  · exact says_vote (ht.steady.own_vote hv).1

theorem Tidy.says_of_react {store : StateStore InMemoryBackend} (ht : n.Tidy set store me)
    {now : UInt64} {m : Message} (hm : m ∈ (n.react now).1) :
    Says (fun _ => True) (fun v => v.voter = me.bytes) m := by
  obtain ⟨v, hv, rfl⟩ := mem_react hm
  exact says_vote (ht.vote hv)

end ValidatorNode

/-! ## Runs of the network -/

namespace Cluster

variable [VoteFormat]

/-- A property that every piece of a node keeps holds after every run. -/
theorem run_preserves {n : Nat} {P : Cluster → Prop}
    (hproduce : ∀ N i now, i < n → P N → P (broadcast n
      (N.set_node i ((N.node i).produce (peer_count n i) now).2) i
      ((N.node i).produce (peer_count n i) now).1))
    (hdeliver : ∀ N i j now m rest, Connected n i j → (N.node j).receiving = .next_event →
      N.link i j = m :: rest → P N →
      P { N.set_node j ((N.node j).receive now m) with
        link := fun a b => if a = i ∧ b = j then rest else N.link a b })
    (hreact : ∀ N i now, i < n → P N → P (broadcast n
      (N.set_node i ((N.node i).react now).2) i ((N.node i).react now).1))
    {N : Cluster} (hN : P N) (steps : List ClusterStep) : P (N.run n steps) := by
  induction steps generalizing N with
  | nil => exact hN
  | cons s steps ih =>
    refine ih (N := N.step n s) ?_
    cases s with
    | produce i now =>
      simp only [step]
      split
      · rename_i hi
        exact hproduce N i now hi hN
      · exact hN
    | deliver i j now =>
      simp only [step]
      split
      · rename_i h
        split
        · exact hN
        · rename_i m rest hlink
          exact hdeliver N i j now m rest h.1 h.2 hlink hN
      · exact hN
    | react i now =>
      simp only [step]
      split
      · rename_i hi
        exact hreact N i now hi hN
      · exact hN

/-- A property that every piece of a node and every loss keeps holds after every step. -/
theorem lossy_step_preserves {n : Nat} {P : Cluster → Prop}
    (hstep : ∀ N s, P N → P (N.step n s))
    (hlose : ∀ (N N' : Cluster), N'.node = N.node → (∀ i j, N'.link i j <:+ N.link i j) →
      P N → P N')
    {N : Cluster} (hN : P N) (s : LossyStep) : P (N.lossy_step n s) := by
  cases s with
  | step s => exact hstep N s hN
  | lose i j =>
    refine hlose N _ rfl ?_ hN
    intro a b
    dsimp only [lossy_step]
    split
    · rename_i hab
      rw [hab.1, hab.2]
      exact List.tail_suffix _
    · exact List.suffix_rfl

theorem lossy_run_preserves {n : Nat} {P : Cluster → Prop}
    (hstep : ∀ N s, P N → P (N.step n s))
    (hlose : ∀ (N N' : Cluster), N'.node = N.node → (∀ i j, N'.link i j <:+ N.link i j) →
      P N → P N')
    {N : Cluster} (hN : P N) (steps : List LossyStep) : P (N.lossy_run n steps) := by
  induction steps generalizing N with
  | nil => exact hN
  | cons s steps ih => exact ih (N := N.lossy_step n s) (lossy_step_preserves hstep hlose hN s)

end Cluster

end Pemrix
