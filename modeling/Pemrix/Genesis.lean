-- The genesis configuration and the block 0 that is made of it. The hash of the
-- block stands for the time, the allocations and the first validator; the chain id
-- and the other validators leave no trace in it.
import Pemrix.Bootstrap
import Pemrix.StateRoot

open Std

namespace Pemrix

structure GenesisConfig where
  chain_id : String
  timestamp : UInt64
  allocations : ExtTreeMap Address Account
  validators : List Address

namespace GenesisConfig

instance : Inhabited GenesisConfig := ⟨⟨"pemrix-local", 0, ∅, []⟩⟩

def local_development (funded : List (Address × Balance)) (now : UInt64) : GenesisConfig where
  chain_id := "pemrix-local"
  timestamp := now
  allocations := funded.foldl (fun m f => m.insert f.1 ⟨f.2, 0⟩) ∅
  validators := []

/-- The first validator proposes the genesis block. -/
def proposer (g : GenesisConfig) : Address := g.validators.head?.getD default

/-- The hash of the transactions is that of no bytes at all. -/
def genesis_block [Crates] (g : GenesisConfig) : Except StorageError Block :=
  match start_up StateStore.new_in_memory g.allocations with
  | (.error e, _) => .error e
  | (.ok (), state) =>
    match state.state_root with
    | .error e => .error e
    | .ok state_root =>
      let header : BlockHeader :=
        { height := 0, timestamp := g.timestamp, previous_hash := default, state_root,
          tx_root := Hash.hash_bytes [], proposer := g.proposer.bytes }
      .ok ⟨header, ⟨[]⟩⟩

end GenesisConfig

/-! ## The seeded store -/

theorem seed_in_memory [Crates] (accounts : ExtTreeMap Address Account)
    (raw : ExtTreeMap Bytes Bytes) (l : List (Address × Account)) :
    seed_genesis (⟨⟨accounts, raw⟩⟩ : StateStore InMemoryBackend) l =
      (.ok (), ⟨⟨l.foldl (fun m e => m.insert e.1 e.2) accounts, raw⟩⟩) := by
  induction l generalizing accounts with
  | nil => rfl
  | cons e l ih => exact ih (accounts.insert e.1 e.2)

/-- A node that starts in memory has the genesis store. -/
theorem start_up_in_memory [Crates] (allocations : ExtTreeMap Address Account) :
    start_up StateStore.new_in_memory allocations =
      (.ok (), Cluster.genesis_store allocations) := by
  unfold start_up StateStore.new_in_memory InMemoryBackend.new
  rw [seed_in_memory, ExtTreeMap.foldl_insert_toList]
  rfl

namespace GenesisConfig

/-- The genesis store of a configuration. -/
def store (g : GenesisConfig) : StateStore InMemoryBackend := Cluster.genesis_store g.allocations

theorem genesis_block_ok [Crates] (g : GenesisConfig) :
    ∃ root, g.store.state_root = .ok root ∧ g.genesis_block = .ok ⟨⟨0, g.timestamp, default, root,
      Hash.hash_bytes [], g.proposer.bytes⟩, ⟨[]⟩⟩ := by
  unfold genesis_block
  rw [start_up_in_memory]
  exact ⟨_, rfl, rfl⟩

/-- Two configurations have genesis blocks of height 0 without transactions. If the hash collides
neither on their headers nor on their snapshots, the blocks have one hash if and only if the two
agree on the time, on every allocation and on the first validator. -/
theorem genesis_hash_commits (blake3 : Bytes → Bytes32) (verify : Bytes → Bytes → Bytes → Bool)
    (g g' : GenesisConfig) :
    letI := serde_crates blake3 verify
    ∃ b b' : Block, g.genesis_block = .ok b ∧ g'.genesis_block = .ok b' ∧
      (b.header.height = 0 ∧ b.body.transactions = []) ∧
      (b'.header.height = 0 ∧ b'.body.transactions = []) ∧
      (CollisionFree {encode b.header, encode b'.header} →
        CollisionFree {encode g.store.backend.snapshot, encode g'.store.backend.snapshot} →
        (b.hash = b'.hash ↔
          g.timestamp = g'.timestamp ∧ g.allocations = g'.allocations ∧
            g.proposer = g'.proposer)) := by
  let _ := serde_crates blake3 verify
  have _ := serde_crates_injective blake3 verify
  obtain ⟨root, hroot, hb⟩ := g.genesis_block_ok
  obtain ⟨root', hroot', hb'⟩ := g'.genesis_block_ok
  refine ⟨_, _, hb, hb', ⟨rfl, rfl⟩, ⟨rfl, rfl⟩, fun hheaders hsnapshots => ?_⟩
  have hstores : g.store.state_root = g'.store.state_root ↔ g.allocations = g'.allocations := by
    have hs : g.store.Holds ⟨g.allocations, ∅, ∅⟩ := represents_of_accounts g.allocations
    have hs' : g'.store.Holds ⟨g'.allocations, ∅, ∅⟩ := represents_of_accounts g'.allocations
    rw [Represents.snapshot hs, Represents.snapshot hs'] at hsnapshots
    rw [hs.state_root_eq_iff hs' hsnapshots, Ledger.mk.injEq]
    simp
  rw [hroot, hroot', Except.ok.injEq] at hstores
  constructor
  · intro hhash
    have hheader := Forms.header.to_vec_inj (hheaders.eq hhash)
    obtain ⟨-, htime, -, hsame, -, hproposer⟩ := BlockHeader.mk.inj hheader
    exact ⟨htime, hstores.mp hsame, Address.as_bytes_inj (congrArg Vector.toList hproposer)⟩
  · rintro ⟨htime, hallocations, hproposer⟩
    rw [hstores.mpr hallocations, htime, hproposer]

end GenesisConfig

end Pemrix
