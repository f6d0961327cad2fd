-- The validators of the BFT network never execute a transaction: the production
-- loop proposes empty blocks only, and nothing takes the transactions out of the
-- RPC state of a validator. So the ledger stays at the genesis allocations.
import Pemrix.NodeSteps
import Pemrix.Confirmed

open Std

namespace Pemrix

variable [Crates] {allocations : ExtTreeMap Address Account}

/-! ## The blocks that an engine knows -/

namespace BftConsensus

variable {known : Block → Prop} {e e' : BftConsensus InMemoryBackend}

omit [Crates] in
/-- Every block in the rounds and in the log is of one kind. -/
structure Knows (known : Block → Prop) (e : BftConsensus InMemoryBackend) : Prop where
  round : ∀ {h : UInt64} {b : Block}, (e.round h).block = some b → known b
  finalized : ∀ {h : UInt64} {b : Block}, e.finalized[h]? = some b → known b

omit [Crates] in
theorem new_knows (set : ValidatorSet) (store : StateStore InMemoryBackend) (me : Address)
    (genesis : Hash) : Knows known (new_with_store me set store genesis) := by
  refine ⟨?_, ?_⟩
  · intro h b hb
    rw [new_round] at hb
    cases hb
  · intro h b hb
    change (∅ : ExtTreeMap UInt64 Block)[h]? = some b at hb
    simp at hb

omit [Crates] in
/-- The same log, and no new block in the rounds. -/
theorem Knows.of_same (hk : Knows known e) (hfin : e'.finalized = e.finalized)
    (hblock : ∀ h, (e'.round h).block = (e.round h).block) : Knows known e' := by
  refine ⟨?_, ?_⟩
  · intro h b hb
    rw [hblock] at hb
    exact hk.round hb
  · intro h b hb
    rw [hfin] at hb
    exact hk.finalized hb

omit [Crates] in
/-- The same log, and a known block in one of the rounds. -/
theorem Knows.put (hk : Knows known e) {k : UInt64} {b : Block} (hb : known b)
    (hfin : e'.finalized = e.finalized)
    (hblock : ∀ h, (e'.round h).block = if k = h then some b else (e.round h).block) :
    Knows known e' := by
  refine ⟨?_, ?_⟩
  · intro h b' hb'
    rw [hblock] at hb'
    split at hb'
    · cases hb'
      exact hb
    · exact hk.round hb'
  · intro h b' hb'
    rw [hfin] at hb'
    exact hk.finalized hb'

theorem Knows.handle_block (hk : Knows known e) {b : Block} (hb : known b) :
    Knows known (e.handle_block b).2 := by
  rcases e.handle_block_cases b with ⟨err, -, he⟩ | ⟨-, he⟩
  · rw [he]
    exact hk
  · rw [he]
    refine hk.put (k := b.header.height) hb rfl fun h => ?_
    rw [admitting_block]
    rfl

omit [Crates] in
theorem Knows.handle_vote (hk : Knows known e) (v : Vote) : Knows known (e.handle_vote v).2 := by
  rcases e.handle_vote_cases v with ⟨err, -, he⟩ | ⟨-, he⟩
  · rw [he]
    exact hk
  · rw [he]
    exact hk.of_same rfl fun h => record_vote_block e v h

theorem Knows.commit (hk : Knows known e) {b : Block} (hb : known b) :
    Knows known (e.commit b) := by
  refine ⟨?_, ?_⟩
  · intro h b' hb'
    rw [commit_mark, mark_block] at hb'
    exact hk.round hb'
  · intro h b' hb'
    change (e.finalized.insert (e.height + 1) b)[h]? = some b' at hb'
    rw [ExtTreeMap.getElem?_insert] at hb'
    split at hb'
    · cases hb'
      exact hb
    · exact hk.finalized hb'

theorem Knows.finalize (hk : Knows known e) (hash : Hash) (now : UInt64) :
    Knows known (e.finalize hash now).2 ∧
      ∀ f, (e.finalize hash now).1 = .ok f → known f.block := by
  rw [finalize_eq]
  split
  · split
    · rename_i b _ hb
      refine ⟨hk, fun f hf => ?_⟩
      cases hf
      exact hk.round hb
    · exact ⟨hk, fun f hf => nomatch hf⟩
    · rename_i b _ hb
      refine ⟨hk.commit (hk.round hb), fun f hf => ?_⟩
      cases hf
      exact hk.round hb
    · exact ⟨hk.of_same rfl fun h => mark_block e h, fun f hf => nomatch hf⟩
  · exact ⟨hk, fun f hf => nomatch hf⟩

/-- The loop of `finalize_pending` hands out known blocks. -/
theorem Knows.finalize_candidates (now : UInt64) (heights : List UInt64) {found : Option Block}
    (hfound : ∀ b, found = some b → known b) (hk : Knows known e) :
    Knows known (finalize_candidates now heights found e).2 ∧
      ∀ b, (finalize_candidates now heights found e).1 = some b → known b := by
  induction heights generalizing found e with
  | nil => exact ⟨hk, hfound⟩
  | cons height rest ih =>
    unfold BftConsensus.finalize_candidates
    split
    · exact ih hfound hk
    · rename_i p _
      obtain ⟨hnext, hblock⟩ := hk.finalize p.block_hash now
      split
      · rename_i f e' hf
        rw [hf] at hnext hblock
        refine ih ?_ hnext
        intro b hb
        cases hb
        exact hblock f rfl
      · rename_i err e' hf
        rw [hf] at hnext
        exact ih hfound hnext

theorem Knows.finalize_pending (hk : Knows known e) (now : UInt64) :
    Knows known (e.finalize_pending now).2 ∧
      ∀ b, (e.finalize_pending now).1 = some b → known b :=
  Knows.finalize_candidates now _ (fun _ h => nomatch h) hk

theorem Knows.propose (hk : Knows known e) (height : UInt64) (transactions : List Transaction)
    (now : UInt64) (hb : ∀ b, (e.propose height transactions now).1 = .ok b → known b) :
    Knows known (e.propose height transactions now).2 := by
  rcases e.propose_cases height transactions now with
    ⟨-, he⟩ | ⟨-, ⟨err, set', -, he⟩ | ⟨root, -, -, he⟩⟩
  · rw [he]
    exact hk
  · rw [he]
    exact hk.of_same rfl fun _ => rfl
  · rw [he] at hb ⊢
    exact hk.put (hb _ rfl) rfl fun h => proposed_block e height _ _ _ h

end BftConsensus

/-! ## The blocks that a node passes on -/

namespace ValidatorNode

open BftConsensus

variable [VoteFormat] {known : Block → Prop} {n : ValidatorNode InMemoryBackend}

omit [Crates] [VoteFormat] in
/-- Every block in the engine and on the channel of finalized blocks is of one kind. -/
structure Knows (known : Block → Prop) (n : ValidatorNode InMemoryBackend) : Prop where
  engine : n.consensus.Knows known
  streamed : ∀ b ∈ n.finalized_tx, known b

omit [VoteFormat] in
theorem Knows.finalize_pending (hk : n.Knows known) (now : UInt64) :
    (n.finalize_pending now).Knows known := by
  obtain ⟨hengine, hblock⟩ := hk.engine.finalize_pending now
  refine ⟨hengine, ?_⟩
  intro b hb
  rcases List.mem_append.mp hb with hb | hb
  · exact hk.streamed b hb
  · exact hblock b (Option.mem_toList.mp hb)

/-- A node that proposes only known blocks passes only known blocks on. -/
theorem Knows.produce (hk : n.Knows known) (peer_count : Nat) (now : UInt64)
    (hpropose : ∀ b, (n.consensus.propose n.height [] now).1 = .ok b → known b) :
    (n.produce peer_count now).2.Knows known ∧
      ∀ m ∈ (n.produce peer_count now).1, Says known (fun _ => True) m := by
  refine ⟨?_, ?_⟩
  · unfold ValidatorNode.produce
    split
    · split
      · exact hk
      · split
        · exact ⟨hk.engine, hk.streamed⟩
        · exact ⟨hk.engine, hk.streamed⟩
    · have hengine := hk.engine.propose n.height [] now hpropose
      split
      · rename_i he
        rw [he] at hengine
        exact ⟨hengine, hk.streamed⟩
      · rename_i he
        rw [he] at hengine
        exact ⟨hengine, hk.streamed⟩
    · exact ⟨hk.engine, hk.streamed⟩
    · exact ⟨hk.engine, hk.streamed⟩
    · have hnext := hk.finalize_pending now
      exact ⟨hnext.engine, hnext.streamed⟩
    · split
      · exact ⟨hk.engine, hk.streamed⟩
      · exact ⟨hk.engine, hk.streamed⟩
  · intro m hm
    rcases mem_produce hm with ⟨-, b, hb, rfl⟩ | ⟨-, v, -, rfl⟩
    · rw [own_proposal_eq] at hb
      exact hk.engine.round hb
    · exact says_vote trivial

theorem Knows.receive (hk : n.Knows known) (now : UInt64) {m : Message}
    (hm : Says known (fun _ => True) m) : (n.receive now m).Knows known := by
  cases m with
  | Block b =>
    have hengine := hk.engine.handle_block (b := b) hm
    simp only [ValidatorNode.receive]
    split
    · rename_i he
      rw [he] at hengine
      exact ⟨hengine, hk.streamed⟩
    · rename_i he
      rw [he] at hengine
      exact ⟨hengine, hk.streamed⟩
  | Vote bytes =>
    simp only [ValidatorNode.receive]
    split
    · exact hk
    · rename_i v _
      exact Knows.finalize_pending (n := { n with consensus := (n.consensus.handle_vote v).2 })
        ⟨hk.engine.handle_vote v, hk.streamed⟩ now
  | _ => exact hk

theorem Knows.react (hk : n.Knows known) (now : UInt64) :
    (n.react now).2.Knows known ∧ ∀ m ∈ (n.react now).1, Says known (fun _ => True) m := by
  refine ⟨?_, ?_⟩
  · unfold ValidatorNode.react
    split
    · exact hk
    · exact ⟨hk.engine, hk.streamed⟩
    · have hnext := hk.finalize_pending now
      exact ⟨hnext.engine, hnext.streamed⟩
  · intro m hm
    obtain ⟨v, -, rfl⟩ := mem_react hm
    exact says_vote trivial

end ValidatorNode

/-! ## Empty blocks -/

/-- The block executes nothing on the genesis allocations. -/
structure Block.Empty (allocations : ExtTreeMap Address Account) (b : Block) : Prop where
  transactions : b.body.transactions = []
  tx_root : b.header.tx_root = Hash.hash_bytes (encode ([] : List Transaction))
  state_root : (Cluster.genesis_store allocations).state_root = .ok b.header.state_root

theorem BftConsensus.Steady.propose_empty {set : ValidatorSet} {me : Address}
    {e : BftConsensus InMemoryBackend} (hs : e.Steady set (Cluster.genesis_store allocations) me)
    {height now : UInt64} {b : Block} (hb : (e.propose height [] now).1 = .ok b) :
    b.Empty allocations := by
  rcases e.propose_cases height [] now with
    ⟨-, he⟩ | ⟨-, ⟨err, set', -, he⟩ | ⟨root, -, hroot, he⟩⟩
  · rw [he] at hb
    cases hb
  · rw [he] at hb
    cases hb
  · rw [he] at hb
    cases hb
    rw [show (execute_all e.state []).2 = e.state from rfl, hs.is_store] at hroot
    exact ⟨rfl, rfl, hroot⟩

namespace Cluster

variable [VoteFormat] {validators : List Address} {N : Cluster}

omit [VoteFormat] in
/-- Each node runs on the genesis store, and only empty blocks are about. -/
structure Idle (validators : List Address) (allocations : ExtTreeMap Address Account)
    (N : Cluster) : Prop where
  tidy : ∀ i, (N.node i).Tidy (equal_set validators) (genesis_store allocations)
    (address validators i)
  knows : ∀ i, (N.node i).Knows (Block.Empty allocations)
  link : ∀ {i j m}, m ∈ N.link i j → Says (Block.Empty allocations) (fun _ => True) m

/-- A piece of a node that sends only empty blocks. -/
theorem Idle.broadcast (hi : N.Idle validators allocations) {n i : Nat}
    {v : ValidatorNode InMemoryBackend} {out : List Message}
    (htidy : v.Tidy (equal_set validators) (genesis_store allocations) (address validators i))
    (hknows : v.Knows (Block.Empty allocations))
    (hout : ∀ m ∈ out, Says (Block.Empty allocations) (fun _ => True) m) :
    (Cluster.broadcast n (N.set_node i v) i out).Idle validators allocations := by
  refine ⟨fun k => ?_, fun k => ?_, ?_⟩
  · simp only [Cluster.broadcast, set_node]
    split
    · rename_i hk
      rw [hk]
      exact htidy
    · exact hi.tidy k
  · simp only [Cluster.broadcast, set_node]
    split
    · exact hknows
    · exact hi.knows k
  · intro a b m hm
    simp only [Cluster.broadcast, set_node] at hm
    split at hm
    · rcases List.mem_append.mp hm with hm | hm
      · exact hi.link hm
      · exact hout m hm
    · exact hi.link hm

theorem start_idle (validators : List Address) (allocations : ExtTreeMap Address Account)
    (genesis_hash : Hash) :
    (start validators allocations genesis_hash).Idle validators allocations :=
  ⟨fun _ => ValidatorNode.new_tidy _ _ _ _,
    fun _ => ⟨BftConsensus.new_knows _ _ _ _, fun _ h => nomatch h⟩, fun h => nomatch h⟩

theorem Idle.run (hi : N.Idle validators allocations) (n : Nat) (steps : List ClusterStep) :
    (N.run n steps).Idle validators allocations := by
  refine run_preserves (P := fun N => N.Idle validators allocations) ?_ ?_ ?_ hi steps
  · intro N i now _ hi
    obtain ⟨hknows, hout⟩ := (hi.knows i).produce (peer_count n i) now
      fun b hb => (hi.tidy i).steady.propose_empty hb
    exact hi.broadcast ((hi.tidy i).produce _ now) hknows hout
  · intro N i j now m rest _ _ hlink hi
    have hm : m ∈ N.link i j := by
      rw [hlink]
      exact List.mem_cons_self
    refine ⟨fun k => ?_, fun k => ?_, ?_⟩
    · simp only [set_node]
      split
      · rename_i hk
        rw [hk]
        exact (hi.tidy j).receive now m
      · exact hi.tidy k
    · simp only [set_node]
      split
      · exact (hi.knows j).receive now (hi.link hm)
      · exact hi.knows k
    · intro a b m' hm'
      dsimp only at hm'
      split at hm'
      · rename_i hab
        obtain ⟨rfl, rfl⟩ := hab
        refine hi.link (i := a) (j := b) ?_
        rw [hlink]
        exact List.mem_cons_of_mem _ hm'
      · exact hi.link hm'
  · intro N i now _ hi
    obtain ⟨hknows, hout⟩ := (hi.knows i).react now
    exact hi.broadcast ((hi.tidy i).react now) hknows hout

/-- Also when a connection loses messages. -/
theorem Idle.lossy_step (hi : N.Idle validators allocations) (n : Nat) (s : LossyStep) :
    (N.lossy_step n s).Idle validators allocations := by
  refine lossy_step_preserves (fun N s hi => hi.run n [s]) ?_ hi s
  intro N N' hnode hlink hi
  refine ⟨fun i => ?_, fun i => ?_, fun hm => hi.link ((hlink _ _).mem hm)⟩
  · rw [hnode]
    exact hi.tidy i
  · rw [hnode]
    exact hi.knows i

end Cluster

/-! ## The testnet around the validators -/

/-- The validators of `run_bft_testnet`, the services that they share, and how many blocks of
each validator the collector has taken from the channel. -/
structure BftTestnet where
  cluster : Cluster
  front : FrontState
  collected : Nat → Nat

/-- The validators take a step or their network loses a message, a client submits something to a
front end, or the collector takes the next finalized block of a validator. -/
inductive BftTestnetStep where
  | cluster (step : LossyStep)
  | submit (event : FrontEvent)
  | collect (i : Nat)

namespace BftTestnet

omit [Crates] in
/-- The genesis allocations go to the engines, and the seeded accounts to the services. -/
def start (validators : List Address) (allocations seeded : ExtTreeMap Address Account)
    (genesis_hash : Hash) : BftTestnet :=
  { cluster := .start validators allocations genesis_hash
    front := .start seeded
    collected := fun _ => 0 }

variable [VoteFormat]

/-- The services ingest what the collector takes, and nothing else. -/
def step (n : Nat) (faucet : FaucetState) (T : BftTestnet) : BftTestnetStep → BftTestnet
  | .cluster step => { T with cluster := T.cluster.lossy_step n step }
  | .submit (.ingest _) => T
  | .submit event => { T with front := T.front.step faucet event }
  | .collect i =>
    match (T.cluster.node i).finalized_tx[T.collected i]? with
    | none => T
    | some block =>
      { T with
        front := T.front.step faucet (.ingest block)
        collected := fun k => if k = i then T.collected i + 1 else T.collected k }

def run (n : Nat) (faucet : FaucetState) (T : BftTestnet) (steps : List BftTestnetStep) :
    BftTestnet :=
  steps.foldl (step n faucet) T

variable {validators : List Address} {seeded : ExtTreeMap Address Account}
  {T : BftTestnet}

/-- A step of the network, a step of the services that ingests a finalized block, or one that
ingests nothing, or no step. -/
theorem step_cases (n : Nat) (faucet : FaucetState) (T : BftTestnet) (s : BftTestnetStep) :
    (∃ c, T.step n faucet s = { T with cluster := T.cluster.lossy_step n c }) ∨
    (∃ i block collected, block ∈ (T.cluster.node i).finalized_tx ∧
      T.step n faucet s = { T with front := T.front.step faucet (.ingest block), collected }) ∨
    (∃ event, s = .submit event ∧ (∀ block, event ≠ .ingest block) ∧
      T.step n faucet s = { T with front := T.front.step faucet event }) ∨
    T.step n faucet s = T := by
  cases s with
  | cluster c => exact Or.inl ⟨c, rfl⟩
  | submit event =>
    cases event with
    | ingest block => exact Or.inr (Or.inr (Or.inr rfl))
    | _ => exact Or.inr (Or.inr (Or.inl ⟨_, rfl, fun _ h => (nomatch h), rfl⟩))
  | collect i =>
    simp only [step]
    split
    · exact Or.inr (Or.inr (Or.inr rfl))
    · rename_i block hb
      exact Or.inr (Or.inl ⟨i, block, _, List.mem_of_getElem? hb, rfl⟩)

/-! ## Every run of the testnet -/

omit [VoteFormat] in
/-- The validators are idle, and the services have the accounts of the start. -/
structure Frozen (validators : List Address) (allocations seeded : ExtTreeMap Address Account)
    (T : BftTestnet) : Prop where
  idle : T.cluster.Idle validators allocations
  accounts : T.front.rpc.accounts = seeded
  stored : ∀ b ∈ T.front.stored, b.Empty allocations

omit [VoteFormat] in
/-- An empty block leaves the accounts and what is pending. -/
theorem ingest_empty (rpc : RpcState) {block : Block} (hb : block.Empty allocations) :
    (Testnet.ingest_block rpc block).accounts = rpc.accounts ∧
      (Testnet.ingest_block rpc block).pending = rpc.pending := by
  unfold Testnet.ingest_block
  rw [hb.transactions, List.foldl_nil]
  obtain ⟨haccounts, -, -, hpending⟩ := rpc.store_frame block
  exact ⟨haccounts, hpending⟩

omit [VoteFormat] in
/-- A front end leaves the accounts and the blocks, and takes nothing out of the pending list or
the stored transactions. -/
theorem front_step (faucet : FaucetState) (f : FrontState) {event : FrontEvent}
    (hne : ∀ block, event ≠ .ingest block) :
    (f.step faucet event).rpc.accounts = f.rpc.accounts ∧
      (f.step faucet event).stored = f.stored ∧
      (∀ tx ∈ f.rpc.pending, tx ∈ (f.step faucet event).rpc.pending) ∧
      ∀ hash ∈ f.rpc.transactions, hash ∈ (f.step faucet event).rpc.transactions := by
  rcases f.step_cases faucet event with ⟨block, h, -⟩ | ⟨hstored, ⟨tx, -, hrpc⟩ | ⟨-, hrpc⟩⟩
  · exact absurd h (hne block)
  · rw [hrpc]
    refine ⟨rfl, hstored, fun tx' htx' => List.mem_append_left _ htx', fun hash hhash => ?_⟩
    exact (RpcState.mem_store_transaction f.rpc tx.hash tx hash).mpr (Or.inr hhash)
  · rw [hrpc]
    exact ⟨rfl, hstored, fun _ h => h, fun _ h => h⟩

theorem Frozen.step (hf : T.Frozen validators allocations seeded) (n : Nat) (faucet : FaucetState)
    (s : BftTestnetStep) :
    (T.step n faucet s).Frozen validators allocations seeded := by
  rcases T.step_cases n faucet s with
    ⟨c, hs⟩ | ⟨i, block, collected, hblock, hs⟩ | ⟨event, -, hne, hs⟩ | hs
  · rw [hs]
    exact ⟨hf.idle.lossy_step n c, hf.accounts, hf.stored⟩
  · have hempty := (hf.idle.knows i).streamed block hblock
    rw [hs]
    refine ⟨hf.idle, (ingest_empty _ hempty).1.trans hf.accounts, ?_⟩
    intro b hb
    rcases List.mem_append.mp hb with hb | hb
    · exact hf.stored b hb
    · rw [List.mem_singleton.mp hb]
      exact hempty
  · obtain ⟨haccounts, hstored, -⟩ := front_step faucet T.front hne
    rw [hs]
    refine ⟨hf.idle, haccounts.trans hf.accounts, ?_⟩
    dsimp only
    rw [hstored]
    exact hf.stored
  · rw [hs]
    exact hf

theorem Frozen.run (hf : T.Frozen validators allocations seeded) (n : Nat) (faucet : FaucetState)
    (steps : List BftTestnetStep) :
    (T.run n faucet steps).Frozen validators allocations seeded := by
  induction steps generalizing T with
  | nil => exact hf
  | cons s steps ih => exact ih (hf.step n faucet s)

theorem start_frozen (validators : List Address) (allocations seeded : ExtTreeMap Address Account)
    (genesis_hash : Hash) :
    (start validators allocations seeded genesis_hash).Frozen validators allocations seeded :=
  ⟨Cluster.start_idle validators allocations genesis_hash, rfl, fun _ h => nomatch h⟩

/-- What is pending stays pending, and what is stored stays stored. -/
theorem run_keeps (hf : T.Frozen validators allocations seeded) (n : Nat) (faucet : FaucetState)
    (steps : List BftTestnetStep) :
    (∀ tx ∈ T.front.rpc.pending, tx ∈ (T.run n faucet steps).front.rpc.pending) ∧
      ∀ hash ∈ T.front.rpc.transactions, hash ∈ (T.run n faucet steps).front.rpc.transactions := by
  induction steps generalizing T with
  | nil => exact ⟨fun _ h => h, fun _ h => h⟩
  | cons s steps ih =>
    obtain ⟨hpending, htransactions⟩ := ih (hf.step n faucet s)
    have hstep : (∀ tx ∈ T.front.rpc.pending, tx ∈ (T.step n faucet s).front.rpc.pending) ∧
        ∀ hash ∈ T.front.rpc.transactions, hash ∈ (T.step n faucet s).front.rpc.transactions := by
      rcases T.step_cases n faucet s with
        ⟨c, hs⟩ | ⟨i, block, collected, hblock, hs⟩ | ⟨event, -, hne, hs⟩ | hs
      · rw [hs]
        exact ⟨fun _ h => h, fun _ h => h⟩
      · have hempty := (hf.idle.knows i).streamed block hblock
        rw [hs]
        refine ⟨fun tx htx => ?_, fun hash hhash => ?_⟩
        · show tx ∈ (Testnet.ingest_block T.front.rpc block).pending
          rw [(ingest_empty _ hempty).2]
          exact htx
        · exact (mem_ingest_block T.front.rpc block hash).mpr (Or.inr hhash)
      · obtain ⟨-, -, hpending, htransactions⟩ := front_step faucet T.front hne
        rw [hs]
        exact ⟨hpending, htransactions⟩
      · rw [hs]
        exact ⟨fun _ h => h, fun _ h => h⟩
    exact ⟨fun tx htx => hpending tx (hstep.1 tx htx),
      fun hash hhash => htransactions hash (hstep.2 hash hhash)⟩

omit [VoteFormat] in
/-- The checks of the REST server read the accounts only. -/
theorem validate_of_accounts {rpc rpc' : RpcState} (h : rpc.accounts = rpc'.accounts)
    (tx : Transaction) :
    RpcServer.validate_transaction rpc tx = RpcServer.validate_transaction rpc' tx := by
  unfold RpcServer.validate_transaction RpcState.get_account
  rw [h]

omit [VoteFormat] in
theorem not_included_of_empty {blocks : List Block} (h : ∀ b ∈ blocks, b.Empty allocations)
    (hash : Hash) : ¬ Included blocks hash := by
  rintro ⟨block, hblock, tx, htx, -⟩
  rw [(h block hblock).transactions] at htx
  cases htx

/-- A front end that accepts a transaction promises what never happens. From then on, the
transaction is pending and both readers call it confirmed, no validator finalizes a block with a
transaction of its hash, and the REST server accepts it again and again. -/
theorem accepted_is_never_executed (validators : List Address)
    (allocations seeded : ExtTreeMap Address Account) (genesis_hash : Hash) (faucet : FaucetState)
    (before after : List BftTestnetStep) (event : FrontEvent) (tx : Transaction)
    (haccepted : ((start validators allocations seeded genesis_hash).run validators.length faucet
      before).front.accepted faucet event = some tx) :
    let T := (start validators allocations seeded genesis_hash).run validators.length faucet
      (before ++ .submit event :: after)
    tx ∈ T.front.rpc.pending ∧
    (∃ r, RpcServer.transaction_handler T.front.rpc tx.hash.to_string = .ok r ∧
      r.status = "confirmed") ∧
    (∃ r, GrpcService.get_transaction T.front.rpc tx.hash.to_string = .ok r ∧
      r.status = "confirmed") ∧
    ¬ Included T.front.stored tx.hash ∧
    (∀ (i : Nat) (height : UInt64) (block : Block),
      (T.cluster.node i).consensus.finalized[height]? = some block → ¬ Included [block] tx.hash) ∧
    (event = .rest tx → RpcServer.validate_transaction T.front.rpc tx = .ok tx.hash) := by
  intro T
  let T₀ := (start validators allocations seeded genesis_hash).run validators.length faucet before
  have hf₀ : T₀.Frozen validators allocations seeded :=
    (start_frozen validators allocations seeded genesis_hash).run validators.length faucet before
  have hf₁ := hf₀.step validators.length faucet (.submit event)
  have hT : T = (T₀.step validators.length faucet (.submit event)).run validators.length faucet
      after := by
    simp only [T, T₀, run, List.foldl_append, List.foldl_cons]
  have hf : T.Frozen validators allocations seeded := by
    rw [hT]
    exact hf₁.run validators.length faucet after
  -- The acceptance stores the transaction, and it stays.
  obtain ⟨hpending, htransactions⟩ := run_keeps hf₁ validators.length faucet after
  rw [← hT] at hpending htransactions
  have hrpc : (T₀.step validators.length faucet (.submit event)).front.rpc =
      T₀.front.rpc.submitted tx := by
    rw [← (FrontState.step_accepted haccepted).1]
    cases event with
    | ingest block => cases haccepted
    | _ => rfl
  rw [hrpc] at hpending htransactions
  have hin : tx ∈ T.front.rpc.pending :=
    hpending tx (List.mem_append_right _ List.mem_cons_self)
  have hhash : tx.hash ∈ T.front.rpc.transactions :=
    htransactions tx.hash ((RpcState.mem_store_transaction _ _ _ _).mpr (Or.inl rfl))
  obtain ⟨tx', htx'⟩ := Option.isSome_iff_exists.mp (ExtTreeMap.mem_iff_isSome_getElem?.mp hhash)
  have hget : T.front.rpc.get_transaction tx.hash = some tx' := htx'
  refine ⟨hin, ?_, ?_, ?_, ?_, ?_⟩
  · unfold RpcServer.transaction_handler
    simp only [Hash.from_str_to_string, hget]
    exact ⟨_, rfl, rfl⟩
  · have hparse : GrpcService.parse_hash tx.hash.to_string = .ok tx.hash := by
      simp only [GrpcService.parse_hash, Hash.from_str_to_string]
      rfl
    unfold GrpcService.get_transaction
    simp only [hparse, bind, Except.bind, hget]
    exact ⟨_, rfl, rfl⟩
  · exact not_included_of_empty hf.stored tx.hash
  · intro i height block hblock
    have hempty : ∀ b ∈ [block], b.Empty allocations := by
      intro b hb
      rw [List.mem_singleton.mp hb]
      exact (hf.idle.knows i).engine.finalized hblock
    exact not_included_of_empty hempty tx.hash
  · rintro rfl
    have hvalid : RpcServer.validate_transaction T₀.front.rpc tx = .ok tx.hash := by
      simp only [FrontState.accepted] at haccepted
      split at haccepted
      · rename_i hash hok
        rw [← validate_hash hok]
        exact hok
      · cases haccepted
    rw [← hvalid]
    exact validate_of_accounts (hf.accounts.trans hf₀.accounts.symm) tx

end BftTestnet

end Pemrix

namespace Pemrix.Concrete

/-- The accounts of the services: they know the money of the payer. -/
def seeded : ExtTreeMap Address Account := (∅ : ExtTreeMap Address Account).insert payer ⟨100, 0⟩

/-- A transfer of the payer that the REST server of a testnet of two accepts. -/
theorem transfer_is_never_executed :
    let T := (BftTestnet.start [addr 1, addr 2] ∅ seeded default).run [addr 1, addr 2].length faucet
      ([] ++ .submit (.rest transfer) ::
        [.cluster (.step (.produce 0 10)), .cluster (.lose 0 1), .collect 0])
    transfer ∈ T.front.rpc.pending ∧
      RpcServer.validate_transaction T.front.rpc transfer = .ok transfer.hash := by
  have haccepted : ((BftTestnet.start [addr 1, addr 2] ∅ seeded default).run
      [addr 1, addr 2].length faucet []).front.accepted faucet (.rest transfer) =
        some transfer := by
    rw [BftTestnet.run, List.foldl_nil, BftTestnet.start, FrontState.accepted,
      FrontState.start, seeded, ← funded, transfer_validates]
  obtain ⟨hpending, -, -, -, -, hagain⟩ := BftTestnet.accepted_is_never_executed
    [addr 1, addr 2] ∅ seeded default faucet []
    [.cluster (.step (.produce 0 10)), .cluster (.lose 0 1), .collect 0] (.rest transfer) transfer
    haccepted
  exact ⟨hpending, hagain rfl⟩

end Pemrix.Concrete
