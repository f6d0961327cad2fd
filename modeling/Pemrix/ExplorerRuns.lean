-- What the explorer shows in every run of the solo testnet: the newest blocks, each
-- transaction at the last block that has it, and the accounts of genesis.
import Pemrix.Served

open Std

namespace Pemrix

variable [Crates]

/-! ## The explorer after a list of blocks -/

section Lists

/-- The last block with a transaction of this hash, by its height, and the transaction. -/
def last_inclusion (blocks : List Block) (hash : Hash) : Option (UInt64 × Transaction) :=
  blocks.reverse.findSome? fun block =>
    (block.body.transactions.reverse.find? (·.hash = hash)).map fun tx => (block.header.height, tx)

/-- The transactions of one block over those that were there. -/
theorem getElem?_foldl_transactions (height : UInt64) (hash : Hash) (txs : List Transaction)
    (m : ExtTreeMap Hash (UInt64 × Transaction)) :
    (txs.foldl (fun m tx => m.insert tx.hash (height, tx)) m)[hash]? =
      ((txs.reverse.find? (·.hash = hash)).map fun tx => (height, tx)).or m[hash]? := by
  induction txs using List.reverseRecOn with
  | nil => rfl
  | append_singleton txs tx ih =>
    rw [List.foldl_append, List.foldl_cons, List.foldl_nil, ExtTreeMap.getElem?_insert,
      List.reverse_append, List.reverse_singleton, List.singleton_append]
    by_cases hhash : tx.hash = hash
    · rw [if_pos (LawfulEqCmp.compare_eq_iff_eq.mpr hhash), List.find?_cons_of_pos (by simpa)]
      rfl
    · rw [if_neg (fun heq => hhash (LawfulEqCmp.eq_of_compare heq)), ih,
        List.find?_cons_of_neg (by simpa)]

theorem transaction_ingest_blocks (blocks : List Block) (hash : Hash) :
    (ExplorerState.new.ingest_blocks blocks).transactions[hash]? = last_inclusion blocks hash := by
  unfold last_inclusion ExplorerState.ingest_blocks
  induction blocks using List.reverseRecOn with
  | nil => exact ExtTreeMap.getElem?_empty
  | append_singleton blocks block ih =>
    rw [List.foldl_append, List.foldl_cons, List.foldl_nil, List.reverse_append,
      List.reverse_singleton, List.singleton_append, List.findSome?_cons]
    have hlast := getElem?_foldl_transactions block.header.height hash block.body.transactions
      (blocks.foldl ExplorerState.ingest_block .new).transactions
    refine hlast.trans ?_
    rw [ih]
    cases block.body.transactions.reverse.find? (·.hash = hash) with
    | none => rfl
    | some tx => rfl

theorem blocks_ingest_blocks (blocks : List Block) :
    (ExplorerState.new.ingest_blocks blocks).blocks =
      blocks.foldl (fun m b => m.insert b.header.height b) ∅ := by
  unfold ExplorerState.ingest_blocks
  induction blocks using List.reverseRecOn with
  | nil => rfl
  | append_singleton blocks block ih =>
    rw [List.foldl_append, List.foldl_append, ← ih]
    rfl

/-- The heights go up. -/
def Rising (blocks : List Block) : Prop :=
  blocks.Pairwise fun a b => a.header.height < b.header.height

variable {blocks : List Block}

theorem getElem?_of_rising (h : Rising blocks) {height : UInt64} {b : Block} :
    (ExplorerState.new.ingest_blocks blocks).blocks[height]? = some b ↔
      b ∈ blocks ∧ b.header.height = height := by
  have hdist : blocks.Pairwise fun a b => a.header.height ≠ b.header.height :=
    h.imp UInt64.ne_of_lt
  rw [blocks_ingest_blocks]
  refine (ExtTreeMap.getElem?_foldl_insert (fun b : Block => b.header.height) (fun b => b) hdist
    (∅ : ExtTreeMap UInt64 Block) height b).trans ?_
  rw [ExtTreeMap.getElem?_empty]
  constructor
  · rintro (⟨c, hc, hheight, rfl⟩ | ⟨-, hnone⟩)
    · exact ⟨hc, hheight⟩
    · cases hnone
  · rintro ⟨hb, hheight⟩
    exact Or.inl ⟨b, hb, hheight, rfl⟩

/-- The keys are the heights, in their order. -/
theorem keys_of_rising (h : Rising blocks) :
    (ExplorerState.new.ingest_blocks blocks).blocks.keys = blocks.map (·.header.height) := by
  have hkeys : (ExplorerState.new.ingest_blocks blocks).blocks.keys.Pairwise (· < ·) := by
    refine List.Pairwise.imp ?_ ExtTreeMap.ordered_keys
    intro a b hlt
    exact Std.compare_eq_lt.mp hlt
  have hheights : (blocks.map (·.header.height)).Pairwise (· < ·) := List.pairwise_map.mpr h
  refine List.Perm.eq_of_pairwise (fun a b _ _ hab hba => absurd hab (UInt64.lt_asymm hba)) hkeys
    hheights ((List.perm_ext_iff_of_nodup (hkeys.imp UInt64.ne_of_lt)
      (hheights.imp UInt64.ne_of_lt)).mpr fun height => ?_)
  rw [ExtTreeMap.mem_keys, ExtTreeMap.mem_iff_isSome_getElem?, Option.isSome_iff_exists,
    List.mem_map]
  exact exists_congr fun b => getElem?_of_rising h

theorem recent_of_rising (h : Rising blocks) (limit : Nat) :
    (ExplorerState.new.ingest_blocks blocks).recent_blocks limit = blocks.reverse.take limit := by
  unfold ExplorerState.recent_blocks
  rw [keys_of_rising h, ← List.map_reverse, ← List.map_take, List.filterMap_map]
  have hsome : ∀ b ∈ blocks.reverse.take limit,
      ((fun height => (ExplorerState.new.ingest_blocks blocks).blocks[height]?) ∘
        fun b : Block => b.header.height) b = some b := by
    intro b hb
    exact (getElem?_of_rising h).mpr ⟨List.mem_reverse.mp (List.mem_of_mem_take hb), rfl⟩
  rw [List.filterMap_congr hsome, List.filterMap_some]

end Lists

/-! ## Whole runs -/

namespace ServedTestnet

variable {hmac_sha256 : Bytes → Bytes → Bytes} {s s' : ServedTestnet} {genesis : GenesisConfig}
  {genesis_block : Block}

/-- The explorer has the genesis block and the blocks of the loop, and the allocations. -/
structure Explored (genesis : GenesisConfig) (genesis_block : Block) (s : ServedTestnet) :
    Prop where
  explorer : s.explorer = { ExplorerState.new.ingest_blocks (genesis_block :: s.testnet.blocks) with
    accounts := genesis.allocations }
  chain : s.testnet.OnChain genesis_block.hash genesis.allocations

theorem Explored.step {event : ServedEvent} (h : s.Explored genesis genesis_block)
    (hstep : s.step hmac_sha256 event = some s') : s'.Explored genesis genesis_block := by
  cases event with
  | submit tx =>
    cases hstep
    exact ⟨h.explorer, ⟨h.chain.verifies, h.chain.tip, h.chain.height⟩⟩
  | produce now =>
    rcases produce_cases hstep with ⟨-, rfl⟩ | ⟨testnet, block, -, hproduce, hblocks, rfl⟩
    · exact h
    · refine ⟨?_, h.chain.produce hproduce⟩
      dsimp only
      rw [hblocks, ← List.cons_append]
      unfold ExplorerState.ingest_blocks
      rw [List.foldl_append, h.explorer]
      rfl
  | notify =>
    cases hstep
    unfold ServedTestnet.notify
    split
    · exact h
    · exact ⟨h.explorer, h.chain⟩
  | subscribe request id secret =>
    cases hstep
    exact ⟨h.explorer, h.chain⟩
  | unsubscribe id =>
    cases hstep
    exact ⟨h.explorer, h.chain⟩

theorem Explored.run {events : List ServedEvent} (h : s.Explored genesis genesis_block)
    (hrun : s.run hmac_sha256 events = some s') : s'.Explored genesis genesis_block := by
  induction events generalizing s with
  | nil =>
    cases hrun
    exact h
  | cons event events ih =>
    rw [run_cons] at hrun
    obtain ⟨s1, hstep, hrun⟩ := Option.bind_eq_some_iff.mp hrun
    exact ih (h.step hstep) hrun

/-- The genesis block has height 0, and the blocks of the loop follow. -/
theorem Explored.rising (h : s.Explored genesis genesis_block)
    (hgenesis : genesis_block.header.height = 0) :
    Rising (genesis_block :: s.testnet.blocks) := by
  have hheights := h.chain.verifies.heights
  refine List.pairwise_cons.mpr ⟨?_, ?_⟩
  · intro b hb
    obtain ⟨k, hk⟩ := List.mem_iff_getElem?.mp hb
    rw [hgenesis, UInt64.lt_iff_toNat_lt, hheights k b hk]
    exact Nat.succ_pos k
  · rw [List.pairwise_iff_getElem]
    intro i j hi hj hij
    rw [UInt64.lt_iff_toNat_lt, hheights i _ (List.getElem?_eq_getElem hi),
      hheights j _ (List.getElem?_eq_getElem hj)]
    omega

/-- The height of the explorer is the number of the rounds. -/
theorem Explored.status_height (h : s.Explored genesis genesis_block)
    (hgenesis : genesis_block.header.height = 0) :
    (ExplorerState.new.ingest_blocks (genesis_block :: s.testnet.blocks)).status.height.toNat =
      s.testnet.blocks.length := by
  have hheights := h.chain.verifies.heights
  have hhighest := (ingested (genesis_block :: s.testnet.blocks)).highest
  obtain ⟨b, hb, heq⟩ := hhighest.reached (List.cons_ne_nil _ _)
  have hle : s.testnet.blocks.length ≤ (ExplorerState.new.ingest_blocks
      (genesis_block :: s.testnet.blocks)).status.height.toNat := by
    rcases Nat.eq_zero_or_pos s.testnet.blocks.length with hzero | hpos
    · rw [hzero]
      exact Nat.zero_le _
    · have hlast := List.getElem?_eq_getElem
        (show s.testnet.blocks.length - 1 < s.testnet.blocks.length by omega)
      have hbound := hhighest.bound _ (List.mem_cons_of_mem _ (List.mem_of_getElem? hlast))
      rw [UInt64.le_iff_toNat_le, hheights _ _ hlast] at hbound
      omega
  refine Nat.le_antisymm ?_ hle
  rw [← heq]
  rcases List.mem_cons.mp hb with rfl | hb
  · rw [hgenesis]
    exact Nat.zero_le _
  · obtain ⟨k, hk⟩ := List.mem_iff_getElem?.mp hb
    rw [hheights k b hk]
    exact (List.getElem?_eq_some_iff.mp hk).1

/-- What the explorer shows in every run, with the loop and the requests in any order: the newest
blocks of the chain from genesis on, each transaction at the last block that has it, and the
accounts of genesis, which never move. -/
theorem explorer_shows_the_chain (hstart : start genesis = .ok s) (events : List ServedEvent)
    (hrun : s.run hmac_sha256 events = some s') :
    ∃ genesis_block, genesis.genesis_block = .ok genesis_block ∧
      (∀ limit, s'.explorer.recent_blocks limit =
        (genesis_block :: s'.testnet.blocks).reverse.take limit) ∧
      s'.explorer.status.height.toNat = s'.testnet.blocks.length ∧
      (∀ hash, s'.explorer.transaction hash = last_inclusion s'.testnet.blocks hash) ∧
      ∀ address, s'.explorer.account address = genesis.allocations[address]? := by
  obtain ⟨genesis_block, hgenesis, htestnet, hexplorer, -⟩ := start_cases hstart
  obtain ⟨root, -, hblock⟩ := genesis.genesis_block_ok
  rw [hblock] at hgenesis
  obtain ⟨hheight, hempty⟩ :
      genesis_block.header.height = 0 ∧ genesis_block.body.transactions = [] := by
    cases hgenesis
    exact ⟨rfl, rfl⟩
  have h0 : s.Explored genesis genesis_block := by
    refine ⟨?_, ?_⟩
    · rw [hexplorer, htestnet]
      rfl
    · rw [htestnet]
      exact SoloTestnet.start_onChain genesis.proposer genesis_block.hash genesis.allocations
  have h := h0.run hrun
  have hrising := h.rising hheight
  refine ⟨genesis_block, hblock.trans hgenesis, ?_, ?_, ?_, ?_⟩
  · intro limit
    rw [h.explorer]
    exact recent_of_rising hrising limit
  · rw [h.explorer]
    exact h.status_height hheight
  · intro hash
    rw [h.explorer]
    refine (transaction_ingest_blocks _ hash).trans ?_
    unfold last_inclusion
    rw [List.reverse_cons, List.findSome?_append]
    have hnone : [genesis_block].findSome? (fun block =>
        (block.body.transactions.reverse.find? (·.hash = hash)).map fun tx =>
          (block.header.height, tx)) = none := by
      rw [List.findSome?_cons, hempty]
      rfl
    rw [hnone, Option.or_none]
  · intro address
    rw [h.explorer]
    rfl

end ServedTestnet

end Pemrix

namespace Pemrix.Concrete

/-- The transfer, and two rounds with the events of the first one. -/
def explored_events : List ServedEvent :=
  [.submit transfer, .produce 0, .notify, .notify, .produce 2]

def explored_run : Option (ServedTestnet × ServedTestnet) :=
  match ServedTestnet.start seeded_genesis with
  | .error _ => none
  | .ok s => (s.run (fun _ _ => []) explored_events).map fun s' => (s, s')

/-- The payer has paid in the first block, and the explorer shows its balance of genesis, and the
transfer at the second block, which has it again. -/
theorem explorer_shows_old_accounts :
    ∃ s s', ServedTestnet.start seeded_genesis = .ok s ∧
      s.run (fun _ _ => []) explored_events = some s' ∧
      s'.testnet.consensus.state.balance payer = .ok 94 ∧
      s'.explorer.account payer = some ⟨100, 0⟩ ∧
      s'.explorer.transaction transfer.hash = last_inclusion s'.testnet.blocks transfer.hash ∧
      last_inclusion s'.testnet.blocks transfer.hash = some (2, transfer) := by
  have hrun : (explored_run.map fun p =>
      (decide (p.2.testnet.consensus.state.balance payer = .ok 94),
        decide (last_inclusion p.2.testnet.blocks transfer.hash = some (2, transfer)))) =
      some (true, true) := by
    decide +kernel
  obtain ⟨⟨s, s'⟩, hp, hpair⟩ := Option.map_eq_some_iff.mp hrun
  obtain ⟨hbalance, hlast⟩ := Prod.mk.inj hpair
  unfold explored_run at hp
  split at hp
  · cases hp
  rename_i s0 hstart
  obtain ⟨s1, hrun, hpair⟩ := Option.map_eq_some_iff.mp hp
  obtain ⟨rfl, rfl⟩ := Prod.mk.inj hpair
  obtain ⟨-, -, -, -, htransaction, haccount⟩ :=
    ServedTestnet.explorer_shows_the_chain hstart explored_events hrun
  refine ⟨s0, s1, hstart, hrun, of_decide_eq_true hbalance, ?_, htransaction transfer.hash,
    of_decide_eq_true hlast⟩
  rw [haccount]
  decide +kernel

end Pemrix.Concrete
