-- The developer sandbox (`pemrix-sandbox/src/lib.rs`). A block changes the height, the mempool
-- and the pending list before the proposal that may fail. Blocks and queues stay in step exactly
-- as long as no proposal fails, the height has a successor and no transaction behind the first
-- thousand has the hash of one among them.
import Pemrix.FailedProposals
import Pemrix.SoloLoop

open Std

namespace Pemrix

/-! ## The model -/

def ConsensusError.to_string : ConsensusError → String
  | .InvalidProposal => "invalid proposal"
  | .InvalidVote => "invalid vote"
  | .ExecutionFailed message => "execution failed: " ++ message
  | .Storage => "storage error"
  | .Network message => "network error: " ++ message
  | .NotProposer => "not the proposer"
  | .AlreadyFinalized => "already finalized"

def StorageError.to_string : StorageError → String
  | .NotFound => "key not found"
  | .Backend message => "backend error: " ++ message
  | .Serialization => "serialization error"
  | .StateRootMismatch => "state root mismatch"

inductive SandboxError where
  | Consensus (message : String)
  | Storage (message : String)
  | TransactionNotFound
  | BlockNotFound
  deriving DecidableEq

structure Sandbox where
  proposer : Address
  consensus : SoloConsensus
  mempool : SimpleMempool
  blocks : ExtTreeMap UInt64 Block
  blocks_by_hash : ExtTreeMap Hash Block
  transactions : ExtTreeMap Hash Transaction
  pending : List Transaction
  height : UInt64

namespace Sandbox

def new (proposer : Address) : Sandbox :=
  { proposer, consensus := .new_with_previous_hash proposer default, mempool := ⟨[]⟩, blocks := ∅,
    blocks_by_hash := ∅, transactions := ∅, pending := [], height := 0 }

def block_by_height (s : Sandbox) (height : UInt64) : Except SandboxError Block :=
  match s.blocks[height]? with
  | some block => .ok block
  | none => .error .BlockNotFound

def reset (s : Sandbox) : Sandbox :=
  { s with
    consensus := .new_with_previous_hash s.proposer default
    mempool := ⟨[]⟩
    blocks := ∅
    blocks_by_hash := ∅
    transactions := ∅
    pending := []
    height := 0 }

variable [Crates]

def fund (s : Sandbox) (address : Address) (balance : Balance) :
    Except SandboxError Unit × Sandbox :=
  let (r, state) := s.consensus.state.set_account address ⟨balance, 0⟩
  (r.mapError fun e => .Storage e.to_string,
    { s with consensus := { s.consensus with state } })

def submit (s : Sandbox) (transaction : Transaction) : Except SandboxError Hash × Sandbox :=
  let hash := transaction.hash
  (.ok hash,
    { s with
      mempool := s.mempool.add transaction
      pending := s.pending ++ [transaction]
      transactions := s.transactions.insert hash transaction })

/-- Produce the next block including pending mempool transactions. -/
def produce_block (s : Sandbox) (now : UInt64) : Except SandboxError Block × Sandbox :=
  let height := s.height + 1
  let (txs, mempool) := s.mempool.drain 1000
  let pending := s.pending.filter fun tx => !txs.any fun t => t.hash = tx.hash
  match s.consensus.propose height txs now with
  | (.error e, consensus) =>
    (.error (.Consensus e.to_string), { s with height, mempool, pending, consensus })
  | (.ok block, consensus) =>
    (.ok block,
      { s with
        height
        mempool
        pending
        consensus
        blocks := s.blocks.insert height block
        blocks_by_hash := s.blocks_by_hash.insert block.hash block
        transactions := txs.foldl (fun m tx => m.insert tx.hash tx) s.transactions })

end Sandbox

inductive SandboxCall where
  | fund (address : Address) (balance : Balance)
  | submit (transaction : Transaction)
  | produce_block (now : UInt64)
  | reset

namespace SandboxCall

variable [Crates]

def run (s : Sandbox) : SandboxCall → Sandbox
  | .fund address balance => (s.fund address balance).2
  | .submit transaction => (s.submit transaction).2
  | .produce_block now => (s.produce_block now).2
  | .reset => s.reset

/-- What is submitted since the last reset, after one more call. -/
def submits (txs : List Transaction) : SandboxCall → List Transaction
  | .submit transaction => txs ++ [transaction]
  | .reset => []
  | .fund _ _ | .produce_block _ => txs

end SandboxCall

namespace Sandbox

variable [Crates]

/-- The sandbox after some calls. -/
def after (proposer : Address) (calls : List SandboxCall) : Sandbox :=
  calls.foldl SandboxCall.run (new proposer)

/-- The transactions of the calls since the last reset. -/
def submitted (calls : List SandboxCall) : List Transaction := calls.foldl SandboxCall.submits []

/-! ## What a failed block must leave -/

structure Unchanged (s s' : Sandbox) : Prop where
  height : s'.height = s.height
  mempool : s'.mempool = s.mempool
  pending : s'.pending = s.pending
  blocks : s'.blocks = s.blocks
  consensus : s.consensus.SameEngine s'.consensus

/-- In how many places of the blocks the transaction is. -/
def positions (s : Sandbox) (tx : Transaction) : Nat :=
  s.blocks.sumBy fun _ block => block.body.transactions.count tx

/-- The blocks are a chain up to the height, and nothing that was submitted is lost. -/
structure InStep (s : Sandbox) (txs : List Transaction) : Prop where
  exist : ∀ h, (∃ block, s.block_by_height h = .ok block) ↔ 1 ≤ h ∧ h ≤ s.height
  linked : ∀ h h' block block', h'.toNat = h.toNat + 1 → s.block_by_height h = .ok block →
    s.block_by_height h' = .ok block' → block'.header.previous_hash = block.hash
  accounted : ∀ tx ∈ txs, tx ∈ s.pending ∨ s.positions tx = txs.count tx

/-- A block can be produced: the transactions that are drained go through, the height has a
successor, and no transaction that stays has the hash of one that is drained. -/
structure Producible (s : Sandbox) : Prop where
  executes : ∀ i tx, (s.mempool.transactions.take 1000)[i]? = some tx →
    ¬ (storeAt s.consensus.state (s.mempool.transactions.take 1000) i).Fails tx
  successor : s.height.toNat + 1 < 2 ^ 64
  apart : ∀ tx ∈ s.mempool.transactions.take 1000, ∀ later ∈ s.mempool.transactions.drop 1000,
    tx.hash ≠ later.hash

/-! ## One proposal -/

variable {s : Sandbox} {txs : List Transaction} {now : UInt64}

/-- A proposal goes through if none of its transactions fails at its place, and only then. -/
theorem propose_ends (c : SoloConsensus) (height : UInt64) (txs : List Transaction)
    (now : UInt64) :
    (∃ block next, c.propose height txs now = (.ok block, next) ∧
      block.header.previous_hash = c.previous_hash ∧ next.previous_hash = block.hash ∧
      block.body.transactions = txs ∧
      ∀ i tx, txs[i]? = some tx → ¬ (storeAt c.state txs i).Fails tx) ∨
    (∃ e, (c.propose height txs now).1 = .error e) ∧
      ∃ i tx, txs[i]? = some tx ∧ (storeAt c.state txs i).Fails tx := by
  have hfails : ∀ i, Exits.FailsAt BlockExecutor.execute c.state txs i ↔
      ∃ tx, txs[i]? = some tx ∧ (storeAt c.state txs i).Fails tx := failsAt_iff
  unfold SoloConsensus.propose
  rw [execute_all_eq]
  rcases Exits.untilError_cases BlockExecutor.execute c.state txs with
    ⟨hall, hnone⟩ | ⟨i, e, hall, hfail, -⟩
  · rw [hall]
    obtain ⟨root, hroot⟩ : ∃ root,
        (Exits.after BlockExecutor.execute c.state txs).state_root = .ok root :=
      LawfulStore.state_root_ok _
    dsimp only
    rw [hroot]
    refine .inl ⟨_, _, rfl, rfl, rfl, rfl, ?_⟩
    intro i tx htx hfail
    exact hnone i ((hfails i).mpr ⟨tx, htx, hfail⟩)
  · rw [hall]
    exact .inr ⟨⟨_, rfl⟩, i, (hfails i).mp hfail⟩

/-- A block is produced, or the height moves on without one. -/
theorem produce_cases (s : Sandbox) (now : UInt64) :
    (∃ block s', s.produce_block now = (.ok block, s') ∧ s'.height = s.height + 1 ∧
      s'.mempool = ⟨s.mempool.transactions.drop 1000⟩ ∧
      s'.pending = (s.pending.filter fun tx =>
        !(s.mempool.transactions.take 1000).any fun t => t.hash = tx.hash) ∧
      s'.blocks = s.blocks.insert (s.height + 1) block ∧
      block.header.previous_hash = s.consensus.previous_hash ∧
      s'.consensus.previous_hash = block.hash ∧
      block.body.transactions = s.mempool.transactions.take 1000 ∧
      ∀ i tx, (s.mempool.transactions.take 1000)[i]? = some tx →
        ¬ (storeAt s.consensus.state (s.mempool.transactions.take 1000) i).Fails tx) ∨
    (∃ e, (s.produce_block now).1 = .error e) ∧
      (s.produce_block now).2.height = s.height + 1 ∧
      ∃ i tx, (s.mempool.transactions.take 1000)[i]? = some tx ∧
        (storeAt s.consensus.state (s.mempool.transactions.take 1000) i).Fails tx := by
  unfold produce_block
  rw [SimpleMempool.drain_eq]
  dsimp only
  rcases propose_ends s.consensus (s.height + 1) (s.mempool.transactions.take 1000) now with
    ⟨block, next, hpropose, hprevious, hnext, hbody, hall⟩ | ⟨⟨e, he⟩, hfails⟩
  · rw [hpropose]
    exact .inl ⟨block, _, rfl, rfl, rfl, rfl, rfl, hprevious, hnext, hbody, hall⟩
  · rcases hpropose : s.consensus.propose (s.height + 1) (s.mempool.transactions.take 1000) now
      with ⟨e' | block, next⟩
    · exact .inr ⟨⟨_, rfl⟩, rfl, hfails⟩
    · rw [hpropose] at he
      cases he

omit [Crates] in
theorem block_by_height_eq_ok_iff {h : UInt64} {block : Block} :
    s.block_by_height h = .ok block ↔ s.blocks[h]? = some block := by
  unfold block_by_height
  cases s.blocks[h]? with
  | none => simp
  | some b => simp

/-! ## What a run keeps -/

/-- The blocks are a chain up to the height with the last one as the tip of the engine, the
pending list is the mempool, and what was submitted is in a block or in the mempool. -/
structure Kept (s : Sandbox) (txs : List Transaction) : Prop where
  exist : ∀ h : UInt64, h ∈ s.blocks ↔ 1 ≤ h.toNat ∧ h.toNat ≤ s.height.toNat
  linked : ∀ (h h' : UInt64) (block block' : Block), h'.toNat = h.toNat + 1 →
    s.blocks[h]? = some block → s.blocks[h']? = some block' →
    block'.header.previous_hash = block.hash
  tip : ∀ block : Block, s.blocks[s.height]? = some block → s.consensus.previous_hash = block.hash
  pending : s.pending = s.mempool.transactions
  counted : ∀ tx, s.positions tx + s.mempool.transactions.count tx = txs.count tx

theorem Kept.inStep (h : s.Kept txs) : s.InStep txs where
  exist := by
    intro n
    simp only [block_by_height_eq_ok_iff]
    rw [UInt64.le_iff_toNat_le, UInt64.le_iff_toNat_le, UInt64.toNat_one, ← h.exist,
      ExtTreeMap.mem_iff_isSome_getElem?, Option.isSome_iff_exists]
  linked := by
    simp only [block_by_height_eq_ok_iff]
    exact h.linked
  accounted := by
    intro tx _
    rw [h.pending]
    by_cases hin : tx ∈ s.mempool.transactions
    · exact .inl hin
    · have hcount := h.counted tx
      rw [List.count_eq_zero_of_not_mem hin, Nat.add_zero] at hcount
      exact .inr hcount

theorem kept_empty (hheight : s.height = 0) (hblocks : s.blocks = ∅)
    (hmempool : s.mempool = ⟨[]⟩) (hpending : s.pending = []) : s.Kept [] where
  exist := by
    intro h
    rw [hblocks, hheight]
    simp
    omega
  linked := by
    intro h h' block block' _ hget
    rw [hblocks] at hget
    simp at hget
  tip := by
    intro block hget
    rw [hblocks] at hget
    simp at hget
  pending := by rw [hpending, hmempool]
  counted := by
    intro tx
    unfold positions
    rw [hblocks, hmempool]
    simp

/-- What stays in the pending list when no transaction behind the drained ones has the hash of
one of them. -/
theorem retain_eq {l : List Transaction}
    (hapart : ∀ tx ∈ l.take 1000, ∀ later ∈ l.drop 1000, tx.hash ≠ later.hash) :
    (l.filter fun tx => !(l.take 1000).any fun t => t.hash = tx.hash) = l.drop 1000 := by
  have hsplit : ∀ p : Transaction → Bool, l.filter p =
      (l.take 1000).filter p ++ (l.drop 1000).filter p := by
    intro p
    rw [← List.filter_append, List.take_append_drop]
  rw [hsplit]
  have hdrained : (l.take 1000).filter (fun tx =>
      !(l.take 1000).any fun t => t.hash = tx.hash) = [] := by
    rw [List.filter_eq_nil_iff]
    intro tx htx
    simp only [Bool.not_eq_true', Bool.not_eq_false, List.any_eq_true, decide_eq_true_eq]
    exact ⟨tx, htx, rfl⟩
  have hstays : (l.drop 1000).filter (fun tx =>
      !(l.take 1000).any fun t => t.hash = tx.hash) = l.drop 1000 := by
    rw [List.filter_eq_self]
    intro tx htx
    simp only [Bool.not_eq_true', List.any_eq_false, decide_eq_true_eq]
    exact fun t ht => hapart t ht tx htx
  rw [hdrained, hstays, List.nil_append]

omit [Crates] in
/-- What one produced block adds to the places of a transaction. -/
theorem positions_insert {s' : Sandbox} {block : Block} {height : UInt64}
    (hnew : height ∉ s.blocks) (hblocks : s'.blocks = s.blocks.insert height block)
    (tx : Transaction) :
    s'.positions tx = s.positions tx + block.body.transactions.count tx := by
  unfold positions
  rw [hblocks]
  have hinsert := s.blocks.sumBy_insert (fun _ block => block.body.transactions.count tx) height
    block
  have hnone : s.blocks[height]? = none := ExtTreeMap.getElem?_eq_none hnew
  rw [ExtTreeMap.at0_of_none hnone, Nat.add_zero] at hinsert
  exact hinsert

omit [Crates] in
theorem toNat_next_height (h : s.height.toNat + 1 < 2 ^ 64) :
    (s.height + 1).toNat = s.height.toNat + 1 := by
  rw [UInt64.toNat_add, UInt64.toNat_one, Nat.mod_eq_of_lt h]

theorem Kept.next_not_mem (h : s.Kept txs) (hsuccessor : s.height.toNat + 1 < 2 ^ 64) :
    s.height + 1 ∉ s.blocks := by
  rw [h.exist, toNat_next_height hsuccessor]
  omega

/-- What a block keeps that can be produced. -/
theorem Kept.produce (h : s.Kept txs) (hproducible : s.Producible) (now : UInt64) :
    (∃ block, (s.produce_block now).1 = .ok block) ∧ (s.produce_block now).2.Kept txs := by
  rcases s.produce_cases now with
    ⟨block, s', hproduce, hheight, hmempool, hpending, hblocks, hprevious, hnext, hbody, -⟩ |
    ⟨-, -, i, tx, htx, hfails⟩
  swap
  · exact absurd hfails (hproducible.executes i tx htx)
  rw [hproduce]
  have htoNat := toNat_next_height hproducible.successor
  have hnew := h.next_not_mem hproducible.successor
  -- The blocks after the insert: the new one above the old ones.
  have hget : ∀ (n : UInt64) (b : Block), s'.blocks[n]? = some b →
      n = s.height + 1 ∧ b = block ∨ n.toNat ≤ s.height.toNat ∧ s.blocks[n]? = some b := by
    intro n b hb
    rw [hblocks, ExtTreeMap.getElem?_insert] at hb
    split at hb
    · rename_i heq
      cases hb
      exact .inl ⟨(Std.compare_eq_iff_eq.mp heq).symm, rfl⟩
    · refine .inr ⟨?_, hb⟩
      have hmem : n ∈ s.blocks := by
        rw [ExtTreeMap.mem_iff_isSome_getElem?, hb]
        rfl
      exact ((h.exist n).mp hmem).2
  refine ⟨⟨block, rfl⟩, ?_, ?_, ?_, ?_, ?_⟩
  · intro n
    rw [hblocks, ExtTreeMap.mem_insert, hheight, htoNat, h.exist, Std.compare_eq_iff_eq,
      ← UInt64.toNat_inj, htoNat]
    omega
  · intro n n' b b' hsucc hb hb'
    rcases hget n b hb with ⟨rfl, rfl⟩ | ⟨hle, hold⟩
    · rcases hget n' b' hb' with ⟨rfl, -⟩ | ⟨hle', -⟩
      · omega
      · omega
    · rcases hget n' b' hb' with ⟨rfl, rfl⟩ | ⟨-, hold'⟩
      · -- The link to the block that was the last one.
        have hlast : n = s.height := UInt64.toNat_inj.mp (by omega)
        subst hlast
        exact hprevious.trans (h.tip b hold)
      · exact h.linked n n' b b' hsucc hold hold'
  · intro b hb
    rw [hheight] at hb
    rcases hget _ b hb with ⟨-, rfl⟩ | ⟨hle, -⟩
    · exact hnext
    · omega
  · rw [hpending, h.pending, hmempool]
    exact retain_eq hproducible.apart
  · intro tx
    have hcount := h.counted tx
    rw [← List.take_append_drop 1000 s.mempool.transactions, List.count_append] at hcount
    dsimp only
    rw [positions_insert hnew hblocks, hmempool, hbody]
    dsimp only
    omega

/-- A block that is harmless and leaves blocks and queues in step could be produced. -/
theorem Kept.producible (h : s.Kept txs) (now : UInt64)
    (hharmless : ∀ e, (s.produce_block now).1 = .error e → s.Unchanged (s.produce_block now).2)
    (hstep : (s.produce_block now).2.InStep txs) : s.Producible := by
  rcases s.produce_cases now with
    ⟨block, s', hproduce, hheight, hmempool, hpending, hblocks, -, -, hbody, hall⟩ |
    ⟨⟨e, he⟩, hheight, -⟩
  swap
  · -- After an error the height has moved on.
    have hsame := (hharmless e he).height
    rw [hheight] at hsame
    have htoNat := congrArg UInt64.toNat hsame
    have hlt := s.height.toNat_lt
    rw [UInt64.toNat_add, UInt64.toNat_one] at htoNat
    omega
  rw [hproduce] at hstep
  dsimp only at hstep
  have hsuccessor : s.height.toNat + 1 < 2 ^ 64 := by
    by_contra hwraps
    have hlt := s.height.toNat_lt
    have hzero : (s.height + 1).toNat = 0 := by
      rw [UInt64.toNat_add, UInt64.toNat_one]
      omega
    have hexists : ∃ b, s'.block_by_height (s.height + 1) = .ok b := by
      refine ⟨block, block_by_height_eq_ok_iff.mpr ?_⟩
      rw [hblocks, ExtTreeMap.getElem?_insert_self]
    have hpositive := ((hstep.exist _).mp hexists).1
    rw [UInt64.le_iff_toNat_le, hzero, UInt64.toNat_one] at hpositive
    omega
  refine ⟨hall, hsuccessor, ?_⟩
  intro tx htx later hlater heq
  -- The later one is out of the pending list and in no block.
  have hcount := h.counted later
  have hpositions := positions_insert (h.next_not_mem hsuccessor) hblocks later
  rw [← List.take_append_drop 1000 s.mempool.transactions, List.count_append] at hcount
  have hin : 0 < (s.mempool.transactions.drop 1000).count later := List.count_pos_iff.mpr hlater
  have hsubmitted : later ∈ txs := List.count_pos_iff.mp (by omega)
  rcases hstep.accounted later hsubmitted with hpend | hpos
  · rw [hpending, List.mem_filter] at hpend
    have hnone := hpend.2
    simp only [Bool.not_eq_true', List.any_eq_false, decide_eq_true_eq] at hnone
    exact hnone tx htx heq
  · rw [hbody] at hpositions
    omega

/-! ## Every run -/

/-- One call keeps the blocks and queues, if a block that it produces can be produced. -/
theorem Kept.call (h : s.Kept txs) (call : SandboxCall)
    (hproducible : ∀ now, call = .produce_block now → s.Producible) :
    (call.run s).Kept (call.submits txs) := by
  cases call with
  | fund address balance => exact ⟨h.exist, h.linked, h.tip, h.pending, h.counted⟩
  | submit transaction =>
    refine ⟨h.exist, h.linked, h.tip, congrArg (· ++ [transaction]) h.pending, ?_⟩
    intro tx
    have hcount := h.counted tx
    show s.positions tx + (s.mempool.transactions ++ [transaction]).count tx =
      (txs ++ [transaction]).count tx
    rw [List.count_append, List.count_append]
    omega
  | produce_block now => exact (h.produce (hproducible now rfl) now).2
  | reset => exact kept_empty rfl rfl rfl rfl

theorem after_snoc (proposer : Address) (calls : List SandboxCall) (call : SandboxCall) :
    after proposer (calls ++ [call]) = call.run (after proposer calls) := by
  unfold after
  rw [List.foldl_append]
  rfl

omit [Crates] in
theorem submitted_snoc (calls : List SandboxCall) (call : SandboxCall) :
    submitted (calls ++ [call]) = call.submits (submitted calls) := by
  unfold submitted
  rw [List.foldl_append]
  rfl

theorem kept_after (proposer : Address) {calls : List SandboxCall}
    (h : ∀ before now, before ++ [.produce_block now] <+: calls →
      (after proposer before).Producible) : (after proposer calls).Kept (submitted calls) := by
  induction calls using List.reverseRecOn with
  | nil => exact kept_empty rfl rfl rfl rfl
  | append_singleton calls call ih =>
    rw [after_snoc, submitted_snoc]
    have hkept := ih fun before now hpre => h before now (hpre.trans (List.prefix_append ..))
    refine hkept.call call ?_
    rintro now rfl
    exact h calls now (List.prefix_refl _)

/-- In every run a failed block is harmless, and blocks and queues are in step after every call,
if and only if every block of the run can be produced when it is asked for. -/
theorem failed_block_is_harmless_iff (proposer : Address) (calls : List SandboxCall) :
    ((∀ before now e, before ++ [.produce_block now] <+: calls →
        ((after proposer before).produce_block now).1 = .error e →
        (after proposer before).Unchanged ((after proposer before).produce_block now).2) ∧
      ∀ before, before <+: calls → (after proposer before).InStep (submitted before)) ↔
    ∀ before now, before ++ [.produce_block now] <+: calls →
      (after proposer before).Producible := by
  constructor
  · rintro ⟨hharmless, hstep⟩
    -- On the length of the part before: the blocks before it could be produced.
    intro before
    induction hn : before.length using Nat.strong_induction_on generalizing before with
    | _ n ih =>
      intro now hpre
      have hkept : (after proposer before).Kept (submitted before) := by
        refine kept_after proposer ?_
        intro earlier now' hearlier
        refine ih earlier.length ?_ earlier rfl now'
          ((hearlier.trans (List.prefix_append ..)).trans hpre)
        have hlen := hearlier.length_le
        rw [List.length_append, List.length_singleton] at hlen
        omega
      refine hkept.producible now (fun e => hharmless before now e hpre) ?_
      have hafter := hstep _ hpre
      rw [after_snoc, submitted_snoc] at hafter
      exact hafter
  · intro h
    have hkept : ∀ before, before <+: calls → (after proposer before).Kept (submitted before) :=
      fun before hpre => kept_after proposer fun earlier now he => h earlier now (he.trans hpre)
    refine ⟨?_, fun before hpre => (hkept before hpre).inStep⟩
    intro before now e hpre he
    obtain ⟨block, hok⟩ := ((hkept before ((List.prefix_append ..).trans hpre)).produce
      (h before now hpre) now).1
    rw [hok] at he
    cases he

end Sandbox

end Pemrix

namespace Pemrix.SmallStake

open Concrete (addr payer)

/-- The payer is funded and submits the refused registration. -/
def submitted_register : List SandboxCall := [.fund payer 100, .submit register]

/-- The block fails after the height, the mempool and the pending list have changed. The
registration is neither pending nor in a block, and there is no block at the height. -/
theorem failed_block_loses_the_registration :
    ((Sandbox.after (addr 7) submitted_register).produce_block 0).1 =
      .error (.Consensus "execution failed: insufficient balance") ∧
    ¬ (Sandbox.after (addr 7) submitted_register).Unchanged
      ((Sandbox.after (addr 7) submitted_register).produce_block 0).2 ∧
    (Sandbox.after (addr 7) (submitted_register ++ [.produce_block 0])).height = 1 ∧
    (Sandbox.after (addr 7) (submitted_register ++ [.produce_block 0])).block_by_height 1 =
      .error .BlockNotFound ∧
    register ∉ (Sandbox.after (addr 7) (submitted_register ++ [.produce_block 0])).pending ∧
    (Sandbox.after (addr 7) (submitted_register ++ [.produce_block 0])).positions register = 0 ∧
    ¬ (Sandbox.after (addr 7) (submitted_register ++ [.produce_block 0])).InStep
      (Sandbox.submitted (submitted_register ++ [.produce_block 0])) := by
  have hheight : (Sandbox.after (addr 7) (submitted_register ++ [.produce_block 0])).height = 1 :=
    by decide +kernel
  have hmissing :
      (Sandbox.after (addr 7) (submitted_register ++ [.produce_block 0])).block_by_height 1 =
        .error .BlockNotFound := by decide +kernel
  refine ⟨by decide +kernel, ?_, hheight, hmissing, by decide +kernel, by decide +kernel, ?_⟩
  · intro hunchanged
    have hsame := hunchanged.height
    have hmoved : ((Sandbox.after (addr 7) submitted_register).produce_block 0).2.height ≠
        (Sandbox.after (addr 7) submitted_register).height := by decide +kernel
    exact hmoved hsame
  · intro hstep
    have hupto : (1 : UInt64) ≤
        (Sandbox.after (addr 7) (submitted_register ++ [.produce_block 0])).height := by
      rw [hheight]
      decide
    obtain ⟨block, hblock⟩ := (hstep.exist 1).mpr ⟨by decide, hupto⟩
    cases hmissing.symm.trans hblock

end Pemrix.SmallStake
