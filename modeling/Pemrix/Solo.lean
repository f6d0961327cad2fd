-- The solo engine of the testnet (`SoloConsensus` of `pemrix-consensus`), which executes
-- a block when it proposes it, and the RPC state of the testnet, which replays its blocks.
import Pemrix.Mirror
import Pemrix.Bft

open Std

namespace Pemrix

structure SoloConsensus where
  state : StateStore InMemoryBackend
  height : UInt64
  proposer : Address
  previous_hash : Hash

namespace SoloConsensus

def new_with_previous_hash (proposer : Address) (previous_hash : Hash) : SoloConsensus :=
  ⟨.new_in_memory, 0, proposer, previous_hash⟩

/-- The engine with a store that holds some allocations. -/
def with_allocations (proposer : Address) (previous_hash : Hash)
    (allocations : ExtTreeMap Address Account) : SoloConsensus :=
  { new_with_previous_hash proposer previous_hash with state := ⟨⟨allocations, ∅⟩⟩ }

variable [Crates]

/-- The loop over the transactions is the one of `BftConsensus`: it stops at the first error
and keeps what was executed. -/
def propose (c : SoloConsensus) (height : UInt64) (transactions : List Transaction)
    (now : UInt64) : Except ConsensusError Block × SoloConsensus :=
  match BftConsensus.execute_all c.state transactions with
  | (.error err, state) => (.error (.ExecutionFailed err.to_string), { c with state })
  | (.ok (), state) =>
    match state.state_root with
    | .error _ => (.error .Storage, { c with state })
    | .ok state_root =>
      let header : BlockHeader :=
        { height, timestamp := now, previous_hash := c.previous_hash, state_root,
          tx_root := Hash.hash_bytes (encode transactions), proposer := c.proposer.bytes }
      let block : Block := ⟨header, ⟨transactions⟩⟩
      (.ok block, { c with state, previous_hash := block.hash, height })

/-- The blocks of a run of proposals that all go through. -/
inductive Produces : SoloConsensus → List Block → SoloConsensus → Prop
  | nil (c : SoloConsensus) : Produces c [] c
  | cons {c next last : SoloConsensus} {height now : UInt64} {transactions : List Transaction}
      {block : Block} {blocks : List Block} :
      c.propose height transactions now = (.ok block, next) → Produces next blocks last →
      Produces c (block :: blocks) last

/-! ## What a run of proposals executes -/

theorem execute_all_ok {s s' : StateStore InMemoryBackend} {txs : List Transaction}
    (h : BftConsensus.execute_all s txs = (.ok (), s')) :
    s' = runTransactions s txs ∧ RunMeets Succeeds s txs := by
  induction txs generalizing s with
  | nil => exact ⟨(Prod.mk.inj h).2.symm, trivial⟩
  | cons tx txs ih =>
    unfold BftConsensus.execute_all at h
    rcases hexec : BlockExecutor.execute s tx with ⟨e | r, next⟩
    · rw [hexec] at h
      cases h
    · rw [hexec] at h
      obtain ⟨hrun, hmeets⟩ := ih h
      refine ⟨?_, ?_, ?_⟩
      · unfold runTransactions
        rw [hexec]
        exact hrun
      · exact ⟨r, by rw [hexec]⟩
      · rw [hexec]
        exact hmeets

/-- A proposal goes through if its transactions do. -/
theorem propose_cases (c : SoloConsensus) (height : UInt64) (txs : List Transaction)
    (now : UInt64) :
    (∃ e, (c.propose height txs now).1 = .error e) ∨
    ∃ s' block next, BftConsensus.execute_all c.state txs = (.ok (), s') ∧
      c.propose height txs now = (.ok block, next) ∧ next.state = s' ∧
      block.body.transactions = txs := by
  unfold propose
  rcases BftConsensus.execute_all c.state txs with ⟨e | u, s'⟩
  · exact Or.inl ⟨_, rfl⟩
  · dsimp only
    rcases s'.state_root with e | root
    · exact Or.inl ⟨_, rfl⟩
    · exact Or.inr ⟨s', _, _, rfl, rfl, rfl, rfl⟩

theorem propose_of_execute_all {c : SoloConsensus} {txs : List Transaction}
    {s' : StateStore InMemoryBackend} (h : BftConsensus.execute_all c.state txs = (.ok (), s'))
    (height now : UInt64) :
    ∃ block next, c.propose height txs now = (.ok block, next) ∧ next.state = s' ∧
      block.body.transactions = txs := by
  unfold propose
  rw [h]
  exact ⟨_, _, rfl, rfl, rfl⟩

theorem Produces.executes {c last : SoloConsensus} {blocks : List Block}
    (h : Produces c blocks last) :
    last.state = runTransactions c.state (transactions_of blocks) ∧
      RunMeets Succeeds c.state (transactions_of blocks) := by
  induction h with
  | nil c => exact ⟨rfl, trivial⟩
  | @cons c next last height now txs block blocks hpropose _ ih =>
    rcases c.propose_cases height txs now with ⟨e, he⟩ | ⟨s', b, n, hall, he, hstate, hbody⟩
    · rw [hpropose] at he
      cases he
    · rw [hpropose] at he
      obtain ⟨hblock, rfl⟩ := Prod.mk.inj he
      cases hblock
      obtain ⟨hrun, hmeets⟩ := execute_all_ok hall
      have hsplit : transactions_of (block :: blocks) = txs ++ transactions_of blocks := by
        rw [← hbody]
        rfl
      rw [hstate, hrun] at ih
      rw [hsplit, runTransactions_append, runMeets_append]
      exact ⟨ih.1, hmeets, ih.2⟩

end SoloConsensus

/-! ## The mirror -/

variable [Crates]

theorem RunMeets.and {P Q : StateStore InMemoryBackend → Transaction → Prop}
    {s : StateStore InMemoryBackend} {txs : List Transaction} (hp : RunMeets P s txs)
    (hq : RunMeets Q s txs) : RunMeets (fun s tx => P s tx ∧ Q s tx) s txs := by
  induction txs generalizing s with
  | nil => trivial
  | cons tx txs ih => exact ⟨⟨hp.1, hq.1⟩, ih hp.2 hq.2⟩

theorem runMeets_of_forall {p : Transaction → Prop} (s : StateStore InMemoryBackend)
    {txs : List Transaction} (h : ∀ tx ∈ txs, p tx) : RunMeets (fun _ tx => p tx) s txs := by
  induction txs generalizing s with
  | nil => trivial
  | cons tx txs ih =>
    exact ⟨h tx (List.mem_cons_self ..), ih _ fun tx' h' => h tx' (List.mem_cons_of_mem _ h')⟩

variable [LawfulRecords]

/-- The RPC state of the testnet mirrors the solo engine after every run of proposals of
transfers in which the sender of each one that is charged has the amount and the fee. -/
theorem testnet_mirrors_every_covered_run (proposer : Address) (previous_hash : Hash)
    (allocations : ExtTreeMap Address Account) (blocks : List Block) (last : SoloConsensus)
    (hrun : SoloConsensus.Produces
      (.with_allocations proposer previous_hash allocations) blocks last)
    (hnil : ∀ tx ∈ transactions_of blocks, tx.payload = [])
    (hcovered : RunMeets (fun s tx => s.Charges tx → Covered s tx) ⟨⟨allocations, ∅⟩⟩
      (transactions_of blocks)) :
    Mirrors last.state (blocks.foldl Testnet.ingest_block (.from_genesis allocations)) := by
  obtain ⟨hlast, hsucceeds⟩ := hrun.executes
  have hmeets := (hsucceeds.and (runMeets_of_forall _ hnil)).and hcovered
  obtain ⟨L, hr, h⟩ := run_blocks_sameView Testnet.ingest_transaction
    (fun hr h hp => testnet_step hr h hp.1.1 hp.1.2 hp.2) blocks
    (represents_of_accounts allocations) (sameView_genesis allocations) hmeets
  rw [hlast]
  exact mirrors_of_sameView hr h

end Pemrix

namespace Pemrix.Concrete

/-- The solo engine proposes the transfer, which the payer can pay with its fee. -/
theorem testnet_mirrors_a_transfer :
    ∃ block last, SoloConsensus.Produces (.with_allocations (addr 7) default paying) [block] last ∧
      block.body.transactions = [transfer] ∧
      Mirrors last.state ([block].foldl Testnet.ingest_block (.from_genesis paying)) := by
  have hall : BftConsensus.execute_all (⟨⟨paying, ∅⟩⟩ : StateStore InMemoryBackend) [transfer] =
      (.ok (), ⟨⟨(paying.insert payer ⟨94, 1⟩).insert (addr 9) ⟨5, 0⟩, ∅⟩⟩) := by
    decide +kernel
  obtain ⟨block, last, hpropose, -, hbody⟩ := SoloConsensus.propose_of_execute_all
    (c := .with_allocations (addr 7) default paying) hall 1 0
  have hrun := SoloConsensus.Produces.cons hpropose (.nil last)
  have htxs : transactions_of [block] = [transfer] := by
    simp [transactions_of, hbody]
  refine ⟨block, last, hrun, hbody, ?_⟩
  refine testnet_mirrors_every_covered_run (addr 7) default paying [block] last hrun ?_ ?_
  · rw [htxs]
    decide
  · rw [htxs]
    exact ⟨fun _ => transfer_covered, trivial⟩

/-- The payer has less than the amount. -/
def poor : ExtTreeMap Address Account := (∅ : ExtTreeMap Address Account).insert payer ⟨3, 0⟩

/-- The engine takes the fee of a transfer that is not covered and moves the nonce on. The
replay skips it. -/
theorem testnet_skips_a_failed_transfer :
    ∃ block last, SoloConsensus.Produces (.with_allocations (addr 7) default poor) [block] last ∧
      block.body.transactions = [transfer] ∧ last.state.get_account payer = .ok (some ⟨2, 1⟩) ∧
      (Testnet.ingest_block (.from_genesis poor) block).get_account payer = some ⟨3, 0⟩ ∧
      ¬ Mirrors last.state ([block].foldl Testnet.ingest_block (.from_genesis poor)) := by
  have hall : BftConsensus.execute_all (⟨⟨poor, ∅⟩⟩ : StateStore InMemoryBackend) [transfer] =
      (.ok (), ⟨⟨poor.insert payer ⟨2, 1⟩, ∅⟩⟩) := by
    decide +kernel
  obtain ⟨block, last, hpropose, hstate, hbody⟩ := SoloConsensus.propose_of_execute_all
    (c := .with_allocations (addr 7) default poor) hall 1 0
  have hlast : last.state.get_account payer = .ok (some ⟨2, 1⟩) := by
    rw [hstate]
    decide +kernel
  have hrpc : (Testnet.ingest_block (.from_genesis poor) block).get_account payer =
      some ⟨3, 0⟩ := by
    unfold Testnet.ingest_block RpcState.get_account
    rw [(RpcState.store_frame _ block).1, hbody]
    decide +kernel
  refine ⟨block, last, .cons hpropose (.nil last), hbody, hlast, hrpc, ?_⟩
  intro hmirrors
  have hnonce := hmirrors.nonce payer
  rw [StateStore.nonce_of_get_account hlast] at hnonce
  unfold RpcState.account at hnonce
  simp only [List.foldl_cons, List.foldl_nil] at hnonce
  rw [hrpc] at hnonce
  cases hnonce

end Pemrix.Concrete
