-- The production loop of `run_solo_testnet`. Every round copies the pending list of
-- the RPC state into the mempool, and the pending list is never cleared: what was
-- submitted once is queued again in every round.
import Pemrix.Solo
import Pemrix.Refill

open Std

namespace Pemrix

/-! ## The loop -/

structure SimpleMempool where
  transactions : List Transaction

namespace SimpleMempool

/-- Adding never fails. -/
def add (m : SimpleMempool) (transaction : Transaction) : SimpleMempool :=
  ⟨m.transactions ++ [transaction]⟩

def drain (m : SimpleMempool) (max : Nat) : List Transaction × SimpleMempool :=
  let count := min max m.transactions.length
  (m.transactions.take count, ⟨m.transactions.drop count⟩)

theorem foldl_add (m : SimpleMempool) (txs : List Transaction) :
    txs.foldl add m = ⟨m.transactions ++ txs⟩ := by
  induction txs generalizing m with
  | nil =>
    rw [List.append_nil]
    rfl
  | cons tx txs ih =>
    rw [List.foldl_cons, ih]
    simp [add]

theorem drain_eq (m : SimpleMempool) (max : Nat) :
    m.drain max = (m.transactions.take max, ⟨m.transactions.drop max⟩) := by
  unfold drain
  dsimp only
  rcases Nat.le_total max m.transactions.length with h | h
  · rw [Nat.min_eq_left h]
  · rw [Nat.min_eq_right h, List.take_of_length_le (Nat.le_refl _), List.take_of_length_le h,
      List.drop_eq_nil_of_le (Nat.le_refl _), List.drop_eq_nil_of_le h]

end SimpleMempool

/-- The testnet between two rounds: the height of the next block, and the blocks so far. -/
structure SoloTestnet where
  rpc_state : RpcState
  mempool : SimpleMempool
  consensus : SoloConsensus
  height : UInt64
  blocks : List Block

inductive SoloEvent where
  | submit (transaction : Transaction)
  | produce (now : UInt64)

namespace SoloTestnet

def start (proposer : Address) (genesis_hash : Hash) (allocations : ExtTreeMap Address Account) :
    SoloTestnet where
  rpc_state := .from_genesis allocations
  mempool := ⟨[]⟩
  consensus := .with_allocations proposer genesis_hash allocations
  height := 1
  blocks := []

variable [Crates]

/-- One round of the loop. It ends the loop if the proposal fails, and after 100000 rounds. -/
def produce (t : SoloTestnet) (now : UInt64) : Option SoloTestnet :=
  if t.height > 100000 then none
  else
    let pending := t.rpc_state.pending_transactions
    let mempool := pending.foldl SimpleMempool.add t.mempool
    let (txs, mempool) := mempool.drain 100
    match t.consensus.propose t.height txs now with
    | (.error _, _) => none
    | (.ok block, consensus) =>
      some
        { rpc_state := Testnet.ingest_block t.rpc_state block
          mempool
          consensus
          height := t.height + 1
          blocks := t.blocks ++ [block] }

def step (t : SoloTestnet) : SoloEvent → Option SoloTestnet
  | .submit transaction => some { t with rpc_state := t.rpc_state.submit_transaction transaction }
  | .produce now => t.produce now

def run (t : SoloTestnet) (events : List SoloEvent) : Option SoloTestnet :=
  events.foldlM step t

end SoloTestnet

/-! ## What a run is given -/

/-- The transactions in the order of their submission. -/
def submissions : List SoloEvent → List Transaction
  | [] => []
  | .submit transaction :: events => transaction :: submissions events
  | .produce _ :: events => submissions events

/-- What each round finds submitted, after the transactions `earlier`. -/
def snapshots_from (earlier : List Transaction) : List SoloEvent → List (List Transaction)
  | [] => []
  | .submit transaction :: events => snapshots_from (earlier ++ [transaction]) events
  | .produce _ :: events => earlier :: snapshots_from earlier events

/-- What the rounds find submitted, from the first that finds something. -/
def snapshots (events : List SoloEvent) : List (List Transaction) :=
  (snapshots_from [] events).dropWhile List.isEmpty

/-- The snapshots grow, from what was there before to what is submitted in the end. -/
theorem snapshots_from_grow (earlier : List Transaction) (events : List SoloEvent) :
    (snapshots_from earlier events).Pairwise (· <+: ·) ∧
      ∀ copy ∈ snapshots_from earlier events,
        earlier <+: copy ∧ copy <+: earlier ++ submissions events := by
  induction events generalizing earlier with
  | nil => exact ⟨List.Pairwise.nil, fun copy h => nomatch h⟩
  | cons event events ih =>
    cases event with
    | submit tx =>
      obtain ⟨hpairs, hbounds⟩ := ih (earlier ++ [tx])
      refine ⟨hpairs, ?_⟩
      intro copy hcopy
      obtain ⟨hlower, hupper⟩ := hbounds copy hcopy
      rw [List.append_assoc] at hupper
      exact ⟨(List.prefix_append earlier [tx]).trans hlower, hupper⟩
    | produce now =>
      obtain ⟨hpairs, hbounds⟩ := ih earlier
      refine ⟨List.pairwise_cons.mpr ⟨fun copy hcopy => (hbounds copy hcopy).1, hpairs⟩, ?_⟩
      intro copy hcopy
      rcases List.mem_cons.mp hcopy with rfl | hcopy
      · exact ⟨List.prefix_refl _, List.prefix_append _ _⟩
      · exact hbounds copy hcopy

/-! ## The loop is a queue that is refilled -/

theorem ingest_block_pending [Crates] (s : RpcState) (block : Block) :
    (Testnet.ingest_block s block).pending = s.pending := by
  obtain ⟨accounts, hreplay⟩ := Testnet.foldl_ingest_frame block.body.transactions s
  unfold Testnet.ingest_block
  rw [(RpcState.store_frame _ block).2.2.2, hreplay]

namespace SoloTestnet

/-- The transactions in the blocks, and the ones that wait in the mempool. -/
def queue (t : SoloTestnet) : Refill.Queue Transaction :=
  ⟨transactions_of t.blocks, t.mempool.transactions⟩

variable [Crates] {t t' : SoloTestnet}

theorem run_append (t : SoloTestnet) (events events' : List SoloEvent) :
    t.run (events ++ events') = (t.run events).bind fun t => t.run events' :=
  List.foldlM_append

theorem run_singleton (t : SoloTestnet) (event : SoloEvent) : t.run [event] = t.step event := by
  unfold run
  rw [List.foldlM_cons]
  simp only [List.foldlM_nil, bind_pure]

theorem run_submit_produce (t : SoloTestnet) (tx : Transaction) (now : UInt64) :
    t.run [.submit tx, .produce now] =
      { t with rpc_state := t.rpc_state.submit_transaction tx }.produce now := by
  rw [← List.singleton_append, run_append, run_singleton, step, Option.bind_some, run_singleton,
    step]

theorem propose_body {c next : SoloConsensus} {height now : UInt64} {txs : List Transaction}
    {block : Block} (h : c.propose height txs now = (.ok block, next)) :
    block.body.transactions = txs := by
  rcases c.propose_cases height txs now with ⟨e, he⟩ | ⟨s', b, n, -, he, -, hbody⟩
  · rw [h] at he
    cases he
  · rw [h] at he
    cases he
    exact hbody

theorem produce_queue {now : UInt64} (h : t.produce now = some t') :
    t'.queue = Refill.round 100 t.queue t.rpc_state.pending ∧
      t'.rpc_state.pending = t.rpc_state.pending := by
  unfold produce at h
  split at h
  · cases h
  simp only [SimpleMempool.foldl_add, SimpleMempool.drain_eq] at h
  split at h
  · cases h
  · rename_i block next hpropose
    cases h
    refine ⟨?_, ingest_block_pending t.rpc_state block⟩
    unfold queue Refill.round transactions_of
    rw [List.flatMap_append, List.flatMap_singleton, propose_body hpropose]
    rfl

/-- A round goes through if its transactions do. -/
theorem produce_of_execute_all {s' : StateStore InMemoryBackend} (hheight : ¬ t.height > 100000)
    (h : BftConsensus.execute_all t.consensus.state
      ((t.mempool.transactions ++ t.rpc_state.pending).take 100) = (.ok (), s')) (now : UInt64) :
    ∃ t', t.produce now = some t' ∧ t'.consensus.state = s' ∧ t'.height = t.height + 1 := by
  obtain ⟨block, next, hpropose, hstate, -⟩ :=
    SoloConsensus.propose_of_execute_all h t.height now
  unfold produce
  rw [if_neg hheight]
  simp only [SimpleMempool.foldl_add, SimpleMempool.drain_eq, RpcState.pending_transactions,
    hpropose]
  exact ⟨_, rfl, hstate, rfl⟩

theorem run_queue {events : List SoloEvent} (h : t.run events = some t') :
    t'.queue = (snapshots_from t.rpc_state.pending events).foldl (Refill.round 100) t.queue := by
  induction events generalizing t with
  | nil =>
    cases h
    rfl
  | cons event events ih =>
    rw [← List.singleton_append, run_append, run_singleton] at h
    obtain ⟨t1, hstep, hrest⟩ := Option.bind_eq_some_iff.mp h
    have hqueue := ih hrest
    cases event with
    | submit tx =>
      cases hstep
      exact hqueue
    | produce now =>
      obtain ⟨hround, hpending⟩ := produce_queue hstep
      rw [hqueue, hpending, hround]
      rfl

end SoloTestnet

/-! ## Each transaction once -/

/-- The blocks have every transaction once at most, in the order of the submissions. -/
def OnceInOrder (events : List SoloEvent) (blocks : List Block) : Prop :=
  (transactions_of blocks).Nodup ∧ (transactions_of blocks).Sublist (submissions events)

/-- The rounds from the first that finds something submitted are one at most, or that round finds
enough to fill the blocks of all of them. -/
def FirstCopyLasts (events : List SoloEvent) : Prop :=
  (snapshots events).length ≤ 1 ∨
    100 * (snapshots events).length ≤ ((snapshots events).headD []).length

variable [Crates]

/-- In every run of distinct submissions and rounds, each transaction is in one block at most and
in the order of the submissions if and only if the first copy of the pending list lasts. -/
theorem solo_loop_once_in_order_iff (proposer : Address) (genesis_hash : Hash)
    (allocations : ExtTreeMap Address Account) (events : List SoloEvent) (t : SoloTestnet)
    (hrun : (SoloTestnet.start proposer genesis_hash allocations).run events = some t)
    (hdistinct : (submissions events).Nodup) :
    OnceInOrder events t.blocks ↔ FirstCopyLasts events := by
  have hdone : transactions_of t.blocks = (Refill.rounds 100 (snapshots events)).done := by
    unfold snapshots
    rw [Refill.rounds_dropWhile]
    exact congrArg Refill.Queue.done (SoloTestnet.run_queue hrun)
  obtain ⟨hpairs, hbounds⟩ := snapshots_from_grow [] events
  have hsub : (snapshots events).Sublist (snapshots_from [] events) := List.dropWhile_sublist _
  unfold OnceInOrder FirstCopyLasts
  rw [hdone]
  rcases hsnapshots : snapshots events with _ | ⟨first, rest⟩
  · exact iff_of_true ⟨List.nodup_nil, List.nil_sublist _⟩ (Or.inl (Nat.zero_le 1))
  · have hfirst : first ≠ [] := by
      have hhead := List.head?_dropWhile_not List.isEmpty (snapshots_from [] events)
      unfold snapshots at hsnapshots
      rw [hsnapshots] at hhead
      rintro rfl
      cases hhead
    have hpre : first <+: submissions events :=
      (hbounds first (hsub.mem (by rw [hsnapshots]; exact List.mem_cons_self))).2
    have hgrow : ∀ copy ∈ rest, first <+: copy := by
      have := hpairs.sublist hsub
      rw [hsnapshots] at this
      exact (List.pairwise_cons.mp this).1
    rw [List.headD_cons, ← Refill.done_length_le_iff (by decide) hfirst hgrow]
    constructor
    · rintro ⟨hnodup, -⟩
      by_contra hlt
      exact Refill.not_nodup_of_length_lt hfirst hgrow (Nat.lt_of_not_le hlt) hnodup
    · intro hle
      have hdone := (Refill.done_isPrefix_first hle).trans hpre
      exact ⟨hdistinct.sublist hdone.sublist, hdone.sublist⟩

end Pemrix

namespace Pemrix.Concrete

/-- The state after the transfer. A second one is charged nothing: its nonce is old. -/
def paid : StateStore InMemoryBackend :=
  ⟨⟨(paying.insert payer ⟨94, 1⟩).insert (addr 9) ⟨5, 0⟩, ∅⟩⟩

theorem solo_produces_transfer :
    ∃ t, (SoloTestnet.start (addr 7) default paying).run [.submit transfer, .produce 0] = some t ∧
      t.consensus.state = paid ∧ t.height = 2 ∧ t.rpc_state.pending = [transfer] ∧
      t.queue = ⟨[transfer], []⟩ := by
  have hall : BftConsensus.execute_all (⟨⟨paying, ∅⟩⟩ : StateStore InMemoryBackend) [transfer] =
      (.ok (), paid) := by
    decide +kernel
  obtain ⟨t, hproduce, hstate, hheight⟩ := SoloTestnet.produce_of_execute_all
    (t := { SoloTestnet.start (addr 7) default paying with
      rpc_state := (RpcState.from_genesis paying).submit_transaction transfer }) (by decide) hall 0
  obtain ⟨hqueue, hpending⟩ := SoloTestnet.produce_queue hproduce
  exact ⟨t, (SoloTestnet.run_submit_produce _ _ _).trans hproduce, hstate, hheight, hpending,
    hqueue⟩

/-- One submission and one round. -/
theorem transfer_once :
    ∃ t, (SoloTestnet.start (addr 7) default paying).run [.submit transfer, .produce 0] = some t ∧
      OnceInOrder [.submit transfer, .produce 0] t.blocks := by
  obtain ⟨t, hrun, -⟩ := solo_produces_transfer
  exact ⟨t, hrun, (solo_loop_once_in_order_iff _ _ _ _ t hrun (by decide)).mpr (Or.inl (by decide))⟩

/-- One submission and two rounds: the transfer is in both blocks. -/
theorem transfer_twice :
    ∃ t, (SoloTestnet.start (addr 7) default paying).run
        [.submit transfer, .produce 0, .produce 0] = some t ∧
      transactions_of t.blocks = [transfer, transfer] ∧
      ¬ OnceInOrder [.submit transfer, .produce 0, .produce 0] t.blocks := by
  have hall : BftConsensus.execute_all paid [transfer] = (.ok (), paid) := by decide +kernel
  obtain ⟨t, hrun, hstate, hheight, hpending, hqueue⟩ := solo_produces_transfer
  have hmempool : t.mempool.transactions = [] := congrArg Refill.Queue.waiting hqueue
  have hround : BftConsensus.execute_all t.consensus.state
      ((t.mempool.transactions ++ t.rpc_state.pending).take 100) = (.ok (), paid) := by
    rw [hstate, hmempool, hpending]
    exact hall
  obtain ⟨t', hproduce, -⟩ := SoloTestnet.produce_of_execute_all (by rw [hheight]; decide) hround 0
  obtain ⟨hqueue', -⟩ := SoloTestnet.produce_queue hproduce
  rw [hqueue, hpending] at hqueue'
  have htwice : transactions_of t'.blocks = [transfer, transfer] :=
    congrArg Refill.Queue.done hqueue'
  refine ⟨t', ?_, htwice, ?_⟩
  · have happend := SoloTestnet.run_append (.start (addr 7) default paying)
      [.submit transfer, .produce 0] [.produce 0]
    rw [hrun, Option.bind_some, SoloTestnet.run_singleton, SoloTestnet.step, hproduce] at happend
    exact happend
  · rintro ⟨hnodup, -⟩
    rw [htwice] at hnodup
    simp at hnodup

end Pemrix.Concrete
