-- The chain of the solo testnet, seen from outside: who knows the genesis
-- configuration can check every block of it and execute them again, and the hash of
-- the last block stands for the whole chain and for the state behind it. What is
-- submitted waits in line for its block.
import Pemrix.HashChain
import Pemrix.Genesis
import Pemrix.ChainLinks
import Pemrix.Commuting
import Pemrix.SoloLoop

open Std

namespace Pemrix

variable [Crates]

/-! ## Checking a chain -/

/-- The execution of the blocks of a chain on a store, with the state root of each compared. -/
def replay_chain (s : StateStore InMemoryBackend) :
    List Block → Option (StateStore InMemoryBackend)
  | [] => some s
  | block :: blocks =>
    match BftConsensus.execute_all s block.body.transactions with
    | (.error _, _) => none
    | (.ok (), s') =>
      match s'.state_root with
      | .error _ => none
      | .ok root => if root = block.header.state_root then replay_chain s' blocks else none

/-- A chain that can be checked from the genesis block on, and the state that it leads to. -/
structure Verifies (genesis_hash : Hash) (allocations : ExtTreeMap Address Account)
    (blocks : List Block) (state : StateStore InMemoryBackend) : Prop where
  linked : HashChain.Linked Block.hash (·.header.previous_hash) genesis_hash blocks
  heights : ∀ k b, blocks[k]? = some b → b.header.height.toNat = k + 1
  commits : ∀ b ∈ blocks, b.Commits
  replays : replay_chain (Cluster.genesis_store allocations) blocks = some state

theorem replay_chain_append (s : StateStore InMemoryBackend) (blocks more : List Block) :
    replay_chain s (blocks ++ more) = (replay_chain s blocks).bind (replay_chain · more) := by
  induction blocks generalizing s with
  | nil => rfl
  | cons block blocks ih =>
    rw [List.cons_append, replay_chain, replay_chain]
    split
    · rfl
    · split
      · rfl
      · split
        · exact ih _
        · rfl

theorem replay_chain_snoc {s s' : StateStore InMemoryBackend} {blocks : List Block} {block : Block}
    {last : StateStore InMemoryBackend} (h : replay_chain s blocks = some s')
    (hexec : BftConsensus.execute_all s' block.body.transactions = (.ok (), last))
    (hroot : last.state_root = .ok block.header.state_root) :
    replay_chain s (blocks ++ [block]) = some last := by
  rw [replay_chain_append, h, Option.bind_some, replay_chain, hexec]
  dsimp only
  rw [hroot]
  dsimp only
  rw [if_pos rfl]
  rfl

variable {genesis_hash : Hash} {allocations : ExtTreeMap Address Account} {blocks : List Block}
  {state : StateStore InMemoryBackend}

theorem Verifies.nil : Verifies genesis_hash allocations [] (Cluster.genesis_store allocations) :=
  ⟨trivial, fun _ _ h => absurd h (by simp), fun _ h => absurd h (by simp), rfl⟩

/-- One more block that names the tip. -/
theorem Verifies.snoc (h : Verifies genesis_hash allocations blocks state) {block : Block}
    {last : StateStore InMemoryBackend}
    (hparent : block.header.previous_hash = HashChain.tip Block.hash genesis_hash blocks)
    (hheight : block.header.height.toNat = blocks.length + 1) (hcommits : block.Commits)
    (hexec : BftConsensus.execute_all state block.body.transactions = (.ok (), last))
    (hroot : last.state_root = .ok block.header.state_root) :
    Verifies genesis_hash allocations (blocks ++ [block]) last := by
  refine ⟨HashChain.linked_snoc.mpr ⟨h.linked, hparent⟩, ?_, ?_,
    replay_chain_snoc h.replays hexec hroot⟩
  · intro k b hb
    rw [List.getElem?_append] at hb
    split at hb
    · exact h.heights k b hb
    · rename_i hge
      rw [List.getElem?_singleton] at hb
      split at hb
      · cases hb
        rw [hheight]
        omega
      · cases hb
  · intro b hb
    rcases List.mem_append.mp hb with hb | hb
    · exact h.commits b hb
    · rw [List.mem_singleton.mp hb]
      exact hcommits

/-! ## The chain of the loop -/

theorem SoloConsensus.propose_ok {c next : SoloConsensus} {height now : UInt64}
    {txs : List Transaction} {block : Block}
    (h : c.propose height txs now = (.ok block, next)) :
    BftConsensus.execute_all c.state txs = (.ok (), next.state) ∧
      next.state.state_root = .ok block.header.state_root ∧
      block.header.height = height ∧ block.header.previous_hash = c.previous_hash ∧
      block.body.transactions = txs ∧ block.Commits ∧ next.previous_hash = block.hash := by
  unfold propose at h
  rcases hexec : BftConsensus.execute_all c.state txs with ⟨e | u, s'⟩
  · rw [hexec] at h
    cases h
  · rw [hexec] at h
    dsimp only at h
    rcases hroot : s'.state_root with e | root
    · rw [hroot] at h
      cases h
    · rw [hroot] at h
      cases h
      exact ⟨rfl, hroot, rfl, rfl, rfl, rfl, rfl⟩

namespace SoloTestnet

variable {t t' : SoloTestnet}

/-- The blocks so far verify, and the loop knows their tip and their number. -/
structure OnChain (genesis_hash : Hash) (allocations : ExtTreeMap Address Account)
    (t : SoloTestnet) : Prop where
  verifies : Verifies genesis_hash allocations t.blocks t.consensus.state
  tip : t.consensus.previous_hash = HashChain.tip Block.hash genesis_hash t.blocks
  height : t.height.toNat = t.blocks.length + 1

theorem OnChain.produce (h : t.OnChain genesis_hash allocations) {now : UInt64}
    (hproduce : t.produce now = some t') : t'.OnChain genesis_hash allocations := by
  unfold SoloTestnet.produce at hproduce
  split at hproduce
  · cases hproduce
  rename_i hbound
  dsimp only at hproduce
  split at hproduce
  · cases hproduce
  rename_i block next hpropose
  cases hproduce
  obtain ⟨hexec, hroot, hheight, hparent, hbody, hcommits, hnext⟩ :=
    SoloConsensus.propose_ok hpropose
  refine ⟨?_, ?_, ?_⟩
  · refine h.verifies.snoc (hparent.trans h.tip) ?_ hcommits ?_ hroot
    · rw [hheight, h.height]
    · rw [hbody]
      exact hexec
  · dsimp only
    rw [HashChain.tip_snoc]
    exact hnext
  · dsimp only
    have hheight := h.height
    rw [UInt64.not_lt, UInt64.le_iff_toNat_le] at hbound
    rw [UInt64.toNat_add, List.length_append, List.length_singleton, ← hheight]
    have hsmall : t.height.toNat ≤ 100000 := hbound
    show (t.height.toNat + 1) % 2 ^ 64 = _
    omega

theorem OnChain.run {events : List SoloEvent} (h : t.OnChain genesis_hash allocations)
    (hrun : t.run events = some t') : t'.OnChain genesis_hash allocations := by
  induction events generalizing t with
  | nil =>
    cases hrun
    exact h
  | cons event events ih =>
    rw [← List.singleton_append, run_append, run_singleton] at hrun
    obtain ⟨t1, hstep, hrest⟩ := Option.bind_eq_some_iff.mp hrun
    refine ih ?_ hrest
    cases event with
    | submit tx =>
      cases hstep
      exact ⟨h.verifies, h.tip, h.height⟩
    | produce now => exact h.produce hstep

theorem start_onChain (proposer : Address) (genesis_hash : Hash)
    (allocations : ExtTreeMap Address Account) :
    (start proposer genesis_hash allocations).OnChain genesis_hash allocations :=
  ⟨.nil, rfl, rfl⟩

/-- In every run of the loop, the blocks are a chain from the genesis hash on with the heights
from 1 on, each commits to its transactions, their execution on the genesis allocations gives the
state root of every block and in the end the state of the engine, and the engine has their tip. -/
theorem solo_chain_verifies (proposer : Address) (genesis_hash : Hash)
    (allocations : ExtTreeMap Address Account) (events : List SoloEvent) (t : SoloTestnet)
    (hrun : (start proposer genesis_hash allocations).run events = some t) :
    Verifies genesis_hash allocations t.blocks t.consensus.state ∧
      t.consensus.previous_hash = HashChain.tip Block.hash genesis_hash t.blocks ∧
      t.height.toNat = t.blocks.length + 1 := by
  have h := (start_onChain proposer genesis_hash allocations).run hrun
  exact ⟨h.verifies, h.tip, h.height⟩

end SoloTestnet

end Pemrix

namespace Pemrix.Concrete

theorem transfer_chain_verifies :
    ∃ t, (SoloTestnet.start (addr 7) default paying).run [.submit transfer, .produce 0] = some t ∧
      t.consensus.state = paid ∧ Verifies default paying t.blocks paid := by
  obtain ⟨t, hrun, hstate, -⟩ := solo_produces_transfer
  have hverifies := (SoloTestnet.solo_chain_verifies (addr 7) default paying _ t hrun).1
  rw [hstate] at hverifies
  exact ⟨t, hrun, hstate, hverifies⟩

end Pemrix.Concrete

namespace Pemrix

variable [Crates]

/-! ## How long a transaction waits -/

/-- The number of the rounds. -/
def round_count : List SoloEvent → Nat
  | [] => 0
  | .submit _ :: events => round_count events
  | .produce _ :: events => round_count events + 1

omit [Crates] in
theorem length_snapshots_from (earlier : List Transaction) (events : List SoloEvent) :
    (snapshots_from earlier events).length = round_count events := by
  induction events generalizing earlier with
  | nil => rfl
  | cons event events ih =>
    cases event with
    | submit tx => exact ih (earlier ++ [tx])
    | produce now =>
      rw [snapshots_from, List.length_cons, ih]
      rfl

namespace SoloTestnet

variable {t t' : SoloTestnet}

theorem run_pending {events : List SoloEvent} (h : t.run events = some t') :
    t'.rpc_state.pending = t.rpc_state.pending ++ submissions events := by
  induction events generalizing t with
  | nil =>
    cases h
    rw [submissions, List.append_nil]
  | cons event events ih =>
    rw [← List.singleton_append, run_append, run_singleton] at h
    obtain ⟨t1, hstep, hrest⟩ := Option.bind_eq_some_iff.mp h
    have hpending := ih hrest
    cases event with
    | submit tx =>
      cases hstep
      rw [hpending, submissions]
      exact List.append_assoc _ [tx] _
    | produce now => rw [hpending, (produce_queue hstep).2, submissions]

/-- What is in the blocks and in the mempool has been submitted. -/
theorem mem_submissions_of_mem_queue {proposer : Address} {genesis_hash : Hash}
    {allocations : ExtTreeMap Address Account} {events : List SoloEvent}
    (h : (start proposer genesis_hash allocations).run events = some t) {tx : Transaction}
    (htx : tx ∈ t.queue.done ∨ tx ∈ t.queue.waiting) : tx ∈ submissions events := by
  have hall : t.queue.done ++ t.queue.waiting = (snapshots_from [] events).flatten := by
    rw [run_queue h]
    exact Refill.done_append_waiting 100 (snapshots_from [] events)
  have hmem : tx ∈ (snapshots_from [] events).flatten := by
    rw [← hall]
    exact List.mem_append.mpr htx
  obtain ⟨copy, hcopy, htx⟩ := List.mem_flatten.mp hmem
  exact ((snapshots_from_grow [] events).2 copy hcopy).2.mem htx

/-- A transaction that is submitted for the first time is in a block if and only if the rounds
after it have room for all that waits in the mempool and for all that was submitted before it,
which the next round queues once more. -/
theorem included_iff (proposer : Address) (genesis_hash : Hash)
    (allocations : ExtTreeMap Address Account) (before after : List SoloEvent) (tx : Transaction)
    (t t' : SoloTestnet)
    (hbefore : (start proposer genesis_hash allocations).run before = some t)
    (hafter : t.run (.submit tx :: after) = some t') (hfresh : tx ∉ submissions before) :
    tx ∈ transactions_of t'.blocks ↔
      t.mempool.transactions.length + (submissions before).length < 100 * round_count after := by
  have hpending : t.rpc_state.pending = submissions before := run_pending hbefore
  have hqueue : t'.queue =
      (snapshots_from (submissions before ++ [tx]) after).foldl (Refill.round 100) t.queue := by
    rw [run_queue hafter, hpending]
    rfl
  have hdone : tx ∉ t.queue.done := fun h => hfresh (mem_submissions_of_mem_queue hbefore (.inl h))
  have hwaiting : tx ∉ t.queue.waiting := fun h =>
    hfresh (mem_submissions_of_mem_queue hbefore (.inr h))
  change tx ∈ t'.queue.done ↔ t.queue.waiting.length + _ < _
  rw [← length_snapshots_from (submissions before ++ [tx]) after, hqueue]
  rcases hcopies : snapshots_from (submissions before ++ [tx]) after with _ | ⟨first, rest⟩
  · exact iff_of_false hdone (by simp)
  · -- The first round finds what was submitted before the transaction, and the transaction.
    have hfirst : submissions before ++ [tx] <+: first :=
      ((snapshots_from_grow (submissions before ++ [tx]) after).2 first (by simp [hcopies])).1
    obtain ⟨more, rfl⟩ := hfirst
    rw [List.append_assoc, List.singleton_append]
    exact Refill.mem_done_iff hdone hwaiting hfresh

end SoloTestnet

end Pemrix

namespace Pemrix.TwoPayers

open Concrete (addr transfer)

/-- The transfer is in a block already. The next round takes it once more, and has room for the
second transfer after it. -/
theorem second_is_included :
    ∃ t t', (SoloTestnet.start (addr 7) default accounts).run [.submit transfer, .produce 0] =
        some t ∧
      t.run [.submit second, .produce 0] = some t' ∧ second ∈ transactions_of t'.blocks := by
  let store : StateStore InMemoryBackend := ⟨⟨accounts, ∅⟩⟩
  let paid := (BftConsensus.execute_all store [transfer]).2
  have hall : BftConsensus.execute_all store [transfer] = (.ok (), paid) := by decide +kernel
  have hboth : BftConsensus.execute_all paid [transfer, second] =
      (.ok (), (BftConsensus.execute_all paid [transfer, second]).2) := by decide +kernel
  obtain ⟨t, hproduce, hstate, hheight⟩ := SoloTestnet.produce_of_execute_all
    (t := { SoloTestnet.start (addr 7) default accounts with
      rpc_state := (RpcState.from_genesis accounts).submit_transaction transfer })
    (by decide) hall 0
  obtain ⟨hqueue, hpending⟩ := SoloTestnet.produce_queue hproduce
  have hmempool : t.mempool.transactions = [] := congrArg Refill.Queue.waiting hqueue
  have hround : BftConsensus.execute_all t.consensus.state ((t.mempool.transactions ++
        (t.rpc_state.submit_transaction second).pending).take 100) =
      (.ok (), (BftConsensus.execute_all paid [transfer, second]).2) := by
    rw [hstate, hmempool, RpcState.submit_transaction, hpending]
    exact hboth
  obtain ⟨t', hproduce', -⟩ := SoloTestnet.produce_of_execute_all
    (t := { t with rpc_state := t.rpc_state.submit_transaction second })
    (by rw [hheight]; decide) hround 0
  have hbefore := (SoloTestnet.run_submit_produce (.start (addr 7) default accounts) transfer
    0).trans hproduce
  have hafter := (SoloTestnet.run_submit_produce t second 0).trans hproduce'
  refine ⟨t, t', hbefore, hafter, (SoloTestnet.included_iff (addr 7) default accounts
    [.submit transfer, .produce 0] [.produce 0] second t t' hbefore hafter ?_).mpr ?_⟩
  · decide +kernel
  · rw [hmempool]
    decide

end Pemrix.TwoPayers

namespace Pemrix

/-! ## The tip stands for the chain -/

/-- The texts that the hashes of a list of blocks are made of. -/
def hashed_texts [Crates] (blocks : List Block) : Set Bytes :=
  {text | ∃ b ∈ blocks, encode b.header = text ∨ encode b.body.transactions = text}

/-- Blocks that commit have one hash only if they are the same. -/
theorem eq_of_hash (blake3 : Bytes → Bytes32) (verify : Bytes → Bytes → Bytes → Bool)
    {blocks : List Block} :
    letI := serde_crates blake3 verify
    CollisionFree (hashed_texts blocks) → (∀ b ∈ blocks, b.Commits) →
      Set.InjOn Block.hash {b | b ∈ blocks} := by
  let _ := serde_crates blake3 verify
  intro hfree hcommits b hb b' hb' hhash
  have hheader : b.header = b'.header :=
    Forms.header.to_vec_inj (hfree ⟨b, hb, .inl rfl⟩ ⟨b', hb', .inl rfl⟩ hhash)
  have hroots : Hash.hash_bytes (encode b.body.transactions) =
      Hash.hash_bytes (encode b'.body.transactions) := by
    rw [← hcommits b hb, ← hcommits b' hb', hheader]
  have htransactions : b.body.transactions = b'.body.transactions :=
    Forms.transaction.seq.to_vec_inj (hfree ⟨b, hb, .inr rfl⟩ ⟨b', hb', .inr rfl⟩ hroots)
  obtain ⟨header, ⟨transactions⟩⟩ := b
  obtain ⟨header', ⟨transactions'⟩⟩ := b'
  cases hheader
  cases htransactions
  rfl

/-- Two chains that can be checked from one genesis block on and have one tip are the same, and
so are the states that they lead to. -/
theorem Verifies.eq_of_tip (blake3 : Bytes → Bytes32) (verify : Bytes → Bytes → Bytes → Bool)
    {genesis : Block} (hgenesis : genesis.header.height = 0)
    {allocations : ExtTreeMap Address Account} {blocks blocks' : List Block}
    {state state' : StateStore InMemoryBackend} :
    letI := serde_crates blake3 verify
    Verifies genesis.hash allocations blocks state →
      Verifies genesis.hash allocations blocks' state' →
      CollisionFree (hashed_texts (genesis :: (blocks ++ blocks'))) →
      HashChain.tip Block.hash genesis.hash blocks = HashChain.tip Block.hash genesis.hash blocks' →
      blocks = blocks' ∧ state = state' := by
  let _ := serde_crates blake3 verify
  intro h h' hfree htip
  have hcommits : ∀ b ∈ blocks ++ blocks', b.Commits := by
    intro b hb
    rcases List.mem_append.mp hb with hb | hb
    · exact h.commits b hb
    · exact h'.commits b hb
  have hpos : ∀ b ∈ blocks ++ blocks', 0 < b.header.height.toNat := by
    intro b hb
    rcases List.mem_append.mp hb with hb | hb
    · obtain ⟨k, hk⟩ := List.mem_iff_getElem?.mp hb
      rw [h.heights k b hk]
      exact Nat.succ_pos k
    · obtain ⟨k, hk⟩ := List.mem_iff_getElem?.mp hb
      rw [h'.heights k b hk]
      exact Nat.succ_pos k
  have hstart : ∀ b ∈ blocks ++ blocks', b.hash ≠ genesis.hash := by
    intro b hb hhash
    have hheader : b.header = genesis.header :=
      Forms.header.to_vec_inj (hfree ⟨b, List.mem_cons_of_mem _ hb, .inl rfl⟩
        ⟨genesis, List.mem_cons_self, .inl rfl⟩ hhash)
    have hheight := hpos b hb
    rw [hheader, hgenesis] at hheight
    exact absurd hheight (by decide)
  have hsub : hashed_texts (blocks ++ blocks') ⊆ hashed_texts (genesis :: (blocks ++ blocks')) := by
    rintro text ⟨b, hb, htext⟩
    exact ⟨b, List.mem_cons_of_mem _ hb, htext⟩
  have hblocks : blocks = blocks' :=
    HashChain.eq_of_tip hstart (eq_of_hash blake3 verify (hfree.mono hsub) hcommits) h.linked
      h'.linked htip
  refine ⟨hblocks, ?_⟩
  have hreplays := h.replays
  rw [hblocks, h'.replays] at hreplays
  exact (Option.some.inj hreplays).symm

/-- Whoever has the genesis configuration and the tip of a run of the loop, and finds blocks that
can be checked and have this tip, has the blocks and the state of the run. -/
theorem SoloTestnet.tip_fixes_the_chain (blake3 : Bytes → Bytes32)
    (verify : Bytes → Bytes → Bytes → Bool) (g : GenesisConfig) :
    letI := serde_crates blake3 verify
    ∀ (genesis : Block) (proposer : Address) (events : List SoloEvent) (t : SoloTestnet)
      (blocks : List Block) (state : StateStore InMemoryBackend),
      g.genesis_block = .ok genesis →
      (start proposer genesis.hash g.allocations).run events = some t →
      Verifies genesis.hash g.allocations blocks state →
      HashChain.tip Block.hash genesis.hash blocks = t.consensus.previous_hash →
      CollisionFree (hashed_texts (genesis :: (blocks ++ t.blocks))) →
      blocks = t.blocks ∧ state = t.consensus.state := by
  let _ := serde_crates blake3 verify
  intro genesis proposer events t blocks state hgenesis hrun hverifies htip hfree
  have honchain := (start_onChain proposer genesis.hash g.allocations).run hrun
  have hheight : genesis.header.height = 0 := by
    obtain ⟨root, -, hok⟩ := g.genesis_block_ok
    rw [hgenesis] at hok
    cases hok
    rfl
  exact Verifies.eq_of_tip blake3 verify hheight hverifies honchain.verifies hfree
    (htip.trans honchain.tip)

end Pemrix

namespace Pemrix.Concrete

/-- The hash does not collide on a list of texts whose hashes are all different. -/
theorem collisionFree_of_nodup [Crates] {blocks : List Block} (texts : List Bytes)
    (hmem : ∀ b ∈ blocks, encode b.header ∈ texts ∧ encode b.body.transactions ∈ texts)
    (hnodup : (texts.map Hash.hash_bytes).Nodup) : CollisionFree (hashed_texts blocks) := by
  rintro _ ⟨b, hb, htext⟩ _ ⟨b', hb', htext'⟩ hhash
  refine List.inj_on_of_nodup_map hnodup ?_ ?_ hhash
  · rcases htext with rfl | rfl
    · exact (hmem b hb).1
    · exact (hmem b hb).2
  · rcases htext' with rfl | rfl
    · exact (hmem b' hb').1
    · exact (hmem b' hb').2

def seeded_genesis : GenesisConfig := ⟨"pemrix-local", 1, paying, [addr 7]⟩

/-- The genesis block and the run with one transfer in one block. -/
def seeded_run [Crates] : Option (Block × SoloTestnet) :=
  match seeded_genesis.genesis_block with
  | .error _ => none
  | .ok genesis =>
    ((SoloTestnet.start (addr 7) genesis.hash seeded_genesis.allocations).run
      [.submit transfer, .produce 2]).map fun t => (genesis, t)

def all_texts [Crates] (blocks : List Block) : List Bytes :=
  blocks.flatMap fun b => [encode b.header, encode b.body.transactions]

theorem seeded_run_texts :
    letI := serde_crates Blake3.hash fun _ _ _ => true
    ∃ p, seeded_run = some p ∧ transactions_of p.2.blocks = [transfer] ∧
      ((all_texts (p.1 :: p.2.blocks)).map Hash.hash_bytes).Nodup := by
  let _ := serde_crates Blake3.hash fun _ _ _ => true
  have hrun : (seeded_run.map fun p => (decide (transactions_of p.2.blocks = [transfer]),
      decide ((all_texts (p.1 :: p.2.blocks)).map Hash.hash_bytes).Nodup)) = some (true, true) := by
    decide +kernel
  obtain ⟨p, hp, hpair⟩ := Option.map_eq_some_iff.mp hrun
  obtain ⟨htransactions, hnodup⟩ := Prod.mk.inj hpair
  exact ⟨p, hp, of_decide_eq_true htransactions, of_decide_eq_true hnodup⟩

/-- The run in which the transfer goes into block 1 has a tip that fixes it. -/
theorem seeded_tip_fixes_the_chain :
    letI := serde_crates Blake3.hash fun _ _ _ => true
    ∃ (genesis : Block) (t : SoloTestnet) (blocks : List Block)
      (state : StateStore InMemoryBackend), seeded_genesis.genesis_block = .ok genesis ∧
      Verifies genesis.hash seeded_genesis.allocations blocks state ∧
      transactions_of blocks = [transfer] ∧ blocks = t.blocks ∧ state = t.consensus.state := by
  let _ := serde_crates Blake3.hash fun _ _ _ => true
  obtain ⟨⟨genesis, t⟩, hfunded, htransactions, hnodup⟩ := seeded_run_texts
  unfold seeded_run at hfunded
  split at hfunded
  · cases hfunded
  rename_i block hgenesis
  obtain ⟨t', hrun, hpair⟩ := Option.map_eq_some_iff.mp hfunded
  obtain ⟨rfl, rfl⟩ := Prod.mk.inj hpair
  have honchain :=
    (SoloTestnet.start_onChain (addr 7) block.hash seeded_genesis.allocations).run hrun
  have hfree : CollisionFree (hashed_texts (block :: (t'.blocks ++ t'.blocks))) := by
    refine collisionFree_of_nodup (all_texts (block :: t'.blocks)) ?_ hnodup
    intro b hb
    have hmem : b ∈ block :: t'.blocks := by simpa using hb
    exact ⟨List.mem_flatMap.mpr ⟨b, hmem, by simp⟩, List.mem_flatMap.mpr ⟨b, hmem, by simp⟩⟩
  exact ⟨block, t', t'.blocks, t'.consensus.state, hgenesis, honchain.verifies, htransactions,
    SoloTestnet.tip_fixes_the_chain Blake3.hash (fun _ _ _ => true) seeded_genesis block (addr 7) _
      t' t'.blocks t'.consensus.state hgenesis hrun honchain.verifies honchain.tip.symm hfree⟩

end Pemrix.Concrete
