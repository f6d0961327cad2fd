-- The lookups of the explorer and of the RPC server. The RPC server keeps a block for each
-- height and one for each hash. The explorer keeps a block for each height, and for a hash
-- only the height, where another block may stand in the meantime.
import Pemrix.Canonical
import Pemrix.FilledMaps
import Pemrix.Rpc

open Std
open FilledMaps (Filled)

namespace Pemrix

/-! ## The explorer -/

structure ExplorerState where
  blocks : ExtTreeMap UInt64 Block
  blocks_by_hash : ExtTreeMap Hash UInt64
  transactions : ExtTreeMap Hash (UInt64 × Transaction)
  accounts : ExtTreeMap Address Account

structure ExplorerStatus where
  height : UInt64
  transaction_count : Nat
  account_count : Nat

namespace ExplorerState

def new : ExplorerState := ⟨∅, ∅, ∅, ∅⟩

def ingest_block [Crates] (s : ExplorerState) (block : Block) : ExplorerState :=
  { s with
    blocks := s.blocks.insert block.header.height block
    blocks_by_hash := s.blocks_by_hash.insert block.hash block.header.height
    transactions := block.body.transactions.foldl
      (fun m tx => m.insert tx.hash (block.header.height, tx)) s.transactions }

def status (s : ExplorerState) : ExplorerStatus :=
  { height := s.blocks.maxKey?.getD 0
    transaction_count := s.transactions.size
    account_count := s.accounts.size }

def block_by_height (s : ExplorerState) (height : UInt64) : Option Block := s.blocks[height]?

def block_by_hash (s : ExplorerState) (hash : Hash) : Option Block :=
  s.blocks_by_hash[hash]?.bind fun h => s.blocks[h]?

/-- The blocks one after another. -/
def ingest_blocks [Crates] (s : ExplorerState) (blocks : List Block) : ExplorerState :=
  blocks.foldl ingest_block s

end ExplorerState

namespace RpcState

def get_block_by_height (s : RpcState) (height : UInt64) : Option Block := s.blocks[height]?

def get_block_by_hash (s : RpcState) (hash : Hash) : Option Block := s.blocks_by_hash[hash]?

/-- The blocks one after another. -/
def store_blocks [Crates] (s : RpcState) (blocks : List Block) : RpcState :=
  blocks.foldl store_block s

end RpcState

/-! ## What a lookup should give -/

section Lookups

variable [Crates] {blocks : List Block}

/-- The height is the largest of the blocks, and zero before the first one. -/
structure Highest (blocks : List Block) (height : UInt64) : Prop where
  bound : ∀ b ∈ blocks, b.header.height ≤ height
  reached : blocks ≠ [] → ∃ b ∈ blocks, b.header.height = height
  start : blocks = [] → height = 0

structure SoundLookups (blocks : List Block) (by_hash : Hash → Option Block)
    (by_height : UInt64 → Option Block) (height : UInt64) : Prop where
  hash_eq : ∀ H b, by_hash H = some b → b.hash = H
  resolvable : ∀ b ∈ blocks, ∃ b', by_hash b.hash = some b'
  height_eq : ∀ h b, by_height h = some b → b.header.height = h
  highest : Highest blocks height

/-- The ingested blocks of one height have one hash. -/
def OneHashPerHeight (blocks : List Block) : Prop :=
  ∀ a ∈ blocks, ∀ b ∈ blocks, a.header.height = b.header.height → a.hash = b.hash

/-- No two of the blocks have one hash and different heights: the hash covers the height. -/
def HeightFromHash (blocks : List Block) : Prop :=
  ∀ a ∈ blocks, ∀ b ∈ blocks, a.hash = b.hash → a.header.height = b.header.height

omit [Crates] in
/-- A hash function that does not collide on the headers is enough for that. -/
theorem heightFromHash_of_collisionFree (blake3 : Bytes → Bytes32)
    (verify : Bytes → Bytes → Bytes → Bool) (blocks : List Block) :
    letI := serde_crates blake3 verify
    CollisionFree {text | ∃ b ∈ blocks, encode b.header = text} → HeightFromHash blocks := by
  let _ := serde_crates blake3 verify
  intro hfree a ha b hb hhash
  have htext : encode a.header = encode b.header := hfree ⟨a, ha, rfl⟩ ⟨b, hb, rfl⟩ hhash
  exact congrArg BlockHeader.height ((JsonForm.canonical Forms.header).encode_inj _ _ htext)

/-! ## The RPC server -/

structure Stored (blocks : List Block) (s : RpcState) : Prop where
  by_height : Filled (·.header.height) id blocks s.blocks
  by_hash : Filled Block.hash id blocks s.blocks_by_hash
  highest : Highest blocks s.height

theorem stored_new : Stored [] RpcState.new := by
  refine ⟨FilledMaps.filled_nil, FilledMaps.filled_nil, ?_, fun h => absurd rfl h, fun _ => rfl⟩
  intro b hb
  cases hb

omit [Crates] in
theorem Highest.snoc {height : UInt64} (h : Highest blocks height) (b : Block) :
    Highest (blocks ++ [b]) (if b.header.height > height then b.header.height else height) := by
  have hne : blocks ++ [b] ≠ [] := List.concat_ne_nil b blocks
  by_cases hlt : b.header.height > height
  · rw [if_pos hlt]
    refine ⟨?_, fun _ => ⟨b, List.mem_concat_self, rfl⟩, fun hnil => absurd hnil hne⟩
    intro c hc
    rcases List.mem_append.mp hc with hc | hc
    · exact UInt64.le_trans (h.bound c hc) (UInt64.le_of_lt hlt)
    · rw [List.mem_singleton.mp hc]
      exact UInt64.le_refl _
  · rw [if_neg hlt]
    have hle : b.header.height ≤ height := UInt64.not_lt.mp hlt
    refine ⟨?_, fun _ => ?_, fun hnil => absurd hnil hne⟩
    · intro c hc
      rcases List.mem_append.mp hc with hc | hc
      · exact h.bound c hc
      · rw [List.mem_singleton.mp hc]
        exact hle
    · by_cases hnil : blocks = []
      · -- The first block does not pass the initial height zero, so it is at height zero.
        rw [h.start hnil] at hle ⊢
        exact ⟨b, List.mem_concat_self, UInt64.le_zero_iff.mp hle⟩
      · obtain ⟨c, hc, hheight⟩ := h.reached hnil
        exact ⟨c, List.mem_append_left _ hc, hheight⟩

theorem Stored.store_block {s : RpcState} (h : Stored blocks s) (b : Block) :
    Stored (blocks ++ [b]) (s.store_block b) :=
  ⟨h.by_height.snoc b, h.by_hash.snoc b, h.highest.snoc b⟩

theorem stored (blocks : List Block) : Stored blocks (RpcState.new.store_blocks blocks) := by
  induction blocks using List.reverseRecOn with
  | nil => exact stored_new
  | append_singleton blocks b ih =>
    unfold RpcState.store_blocks
    rw [List.foldl_append]
    exact ih.store_block b

theorem Stored.sound {s : RpcState} (h : Stored blocks s) :
    SoundLookups blocks s.get_block_by_hash s.get_block_by_height s.height := by
  refine ⟨?_, h.by_hash.kept, ?_, h.highest⟩
  · intro H b hb
    obtain ⟨c, -, hhash, rfl⟩ := h.by_hash.entry H b hb
    exact hhash
  · intro k b hb
    obtain ⟨c, -, hheight, rfl⟩ := h.by_height.entry k b hb
    exact hheight

/-! ## The explorer's index -/

structure Ingested (blocks : List Block) (s : ExplorerState) : Prop where
  by_height : Filled (·.header.height) id blocks s.blocks
  by_hash : Filled Block.hash (·.header.height) blocks s.blocks_by_hash

theorem Ingested.ingest_block {s : ExplorerState} (h : Ingested blocks s) (b : Block) :
    Ingested (blocks ++ [b]) (s.ingest_block b) :=
  ⟨h.by_height.snoc b, h.by_hash.snoc b⟩

theorem ingested (blocks : List Block) :
    Ingested blocks (ExplorerState.new.ingest_blocks blocks) := by
  induction blocks using List.reverseRecOn with
  | nil => exact ⟨FilledMaps.filled_nil, FilledMaps.filled_nil⟩
  | append_singleton blocks b ih =>
    unfold ExplorerState.ingest_blocks
    rw [List.foldl_append]
    exact ih.ingest_block b

theorem Ingested.highest {s : ExplorerState} (h : Ingested blocks s) :
    Highest blocks s.status.height := by
  unfold ExplorerState.status
  rcases hmax : s.blocks.maxKey? with _ | k
  · have hnil := h.by_height.nil_of_maxKey hmax
    subst hnil
    refine ⟨?_, fun hne => absurd rfl hne, fun _ => rfl⟩
    intro b hb
    cases hb
  · obtain ⟨⟨c, hc, hheight⟩, hle⟩ := h.by_height.maxKey hmax
    refine ⟨?_, fun _ => ⟨c, hc, hheight⟩, ?_⟩
    · intro b hb
      exact LawfulOrderOrd.isLE_compare _ _ |>.mp (hle b hb)
    · rintro rfl
      cases hc

/-- A hash gives its height, and the height gives the block that stands there last. -/
theorem Ingested.found {s : ExplorerState} (h : Ingested blocks s) {H : Hash} {b : Block}
    (hb : s.block_by_hash H = some b) :
    ∃ a ∈ blocks, a.hash = H ∧ b ∈ blocks ∧ b.header.height = a.header.height := by
  unfold ExplorerState.block_by_hash at hb
  rw [Option.bind_eq_some_iff] at hb
  obtain ⟨k, hk, hat⟩ := hb
  obtain ⟨a, ha, hhash, rfl⟩ := h.by_hash.entry H k hk
  obtain ⟨c, hc, hheight, rfl⟩ := h.by_height.entry _ b hat
  exact ⟨a, ha, hhash, hc, hheight⟩

theorem Ingested.resolvable {s : ExplorerState} (h : Ingested blocks s) {b : Block}
    (hb : b ∈ blocks) : ∃ b', s.block_by_hash b.hash = some b' := by
  obtain ⟨k, hk⟩ := h.by_hash.kept b hb
  obtain ⟨a, ha, -, rfl⟩ := h.by_hash.entry _ k hk
  obtain ⟨c, hc⟩ := h.by_height.kept a ha
  refine ⟨c, ?_⟩
  unfold ExplorerState.block_by_hash
  rw [hk]
  exact hc

/-- The lookups of the RPC server are sound. Those of the explorer are but for the lookup by
hash, which needs that the blocks of a height have one hash. -/
theorem lookups_sound_iff_one_hash_per_height (blocks : List Block) :
    let rpc := RpcState.new.store_blocks blocks
    let explorer := ExplorerState.new.ingest_blocks blocks
    let by_rpc := SoundLookups blocks rpc.get_block_by_hash rpc.get_block_by_height rpc.height
    let by_explorer := SoundLookups blocks explorer.block_by_hash explorer.block_by_height
      explorer.status.height
    by_rpc ∧
    ((∀ b ∈ blocks, ∃ b', explorer.block_by_hash b.hash = some b') ∧
      (∀ h b, explorer.block_by_height h = some b → b.header.height = h) ∧
      Highest blocks explorer.status.height) ∧
    (OneHashPerHeight blocks → by_rpc ∧ by_explorer) ∧
    (HeightFromHash blocks → (by_rpc ∧ by_explorer ↔ OneHashPerHeight blocks)) := by
  intro rpc explorer by_rpc by_explorer
  have hindex : Ingested blocks explorer := ingested blocks
  have hrpc : by_rpc := (stored blocks).sound
  have hheight : ∀ h b, explorer.block_by_height h = some b → b.header.height = h := by
    intro h b hb
    obtain ⟨c, -, hheight, rfl⟩ := hindex.by_height.entry h b hb
    exact hheight
  have hsound : OneHashPerHeight blocks → by_explorer := by
    intro hone
    refine ⟨?_, fun b hb => hindex.resolvable hb, hheight, hindex.highest⟩
    intro H b hb
    obtain ⟨a, ha, hhash, hmem, heq⟩ := hindex.found hb
    rw [hone b hmem a ha heq, hhash]
  refine ⟨hrpc, ⟨fun b hb => hindex.resolvable hb, hheight, hindex.highest⟩,
    fun hone => ⟨hrpc, hsound hone⟩, fun hfree => ⟨?_, fun hone => ⟨hrpc, hsound hone⟩⟩⟩
  rintro ⟨-, hexplorer⟩
  -- Every hash of the height leads to the one block that stands there.
  have hlast : ∀ a ∈ blocks, ∀ c, explorer.blocks[a.header.height]? = some c → c.hash = a.hash := by
    intro a ha c hc
    refine hexplorer.hash_eq a.hash c ?_
    obtain ⟨k, hk⟩ := hindex.by_hash.kept a ha
    obtain ⟨a', ha', hhash, rfl⟩ := hindex.by_hash.entry _ k hk
    unfold ExplorerState.block_by_hash
    rw [hk, Option.bind_some, hfree a' ha' a ha hhash]
    exact hc
  intro a ha b hb heq
  obtain ⟨c, hc⟩ := hindex.by_height.kept a ha
  rw [← hlast a ha c hc, hlast b hb c (by rw [← heq]; exact hc)]

end Lookups

end Pemrix

namespace Pemrix.Concrete

/-- An empty block of the payer. -/
def stamped_block (height timestamp : UInt64) : Block :=
  ⟨⟨height, timestamp, default, default, default, payer.bytes⟩, ⟨[]⟩⟩

/-- The second block of a height takes the place of the first one in the explorer, which then
gives it for the hash of the first one. -/
theorem explorer_gives_another_block :
    let first := stamped_block 1 0
    let second := stamped_block 1 1
    let explorer := ExplorerState.new.ingest_blocks [first, second]
    explorer.block_by_hash first.hash = some second ∧ second.hash ≠ first.hash ∧
      ¬ SoundLookups [first, second] explorer.block_by_hash explorer.block_by_height
        explorer.status.height := by
  intro first second explorer
  have hfound : explorer.block_by_hash first.hash = some second := by decide +kernel
  have hne : second.hash ≠ first.hash := by decide +kernel
  exact ⟨hfound, hne, fun hsound => hne (hsound.hash_eq _ _ hfound)⟩

/-- Blocks of two heights, one of them twice. -/
theorem lookups_sound_of_repeated_block :
    let blocks := [stamped_block 2 0, stamped_block 1 0, stamped_block 2 0]
    let explorer := ExplorerState.new.ingest_blocks blocks
    OneHashPerHeight blocks ∧ HeightFromHash blocks ∧
      SoundLookups blocks explorer.block_by_hash explorer.block_by_height
        explorer.status.height := by
  intro blocks explorer
  have hone : OneHashPerHeight blocks := by unfold OneHashPerHeight; decide +kernel
  have hfree : HeightFromHash blocks := by unfold HeightFromHash; decide +kernel
  exact ⟨hone, hfree,
    (((lookups_sound_iff_one_hash_per_height blocks).2.2.2 hfree).mpr hone).2⟩

end Pemrix.Concrete
