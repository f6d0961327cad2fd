-- The law of the chain: where each block that is stored names its parent and its
-- transactions, the finalized log is a chain from the first hash on, and the
-- hash of a block stands for its transactions.
import Pemrix.FinalLog

open Std

namespace Pemrix

variable {B : Type} [Crates]

/-- The header commits to the transactions of the body. -/
def Block.Commits (b : Block) : Prop :=
  b.header.tx_root = Hash.hash_bytes (encode b.body.transactions)

/-- The hash does not collide on the two headers and on the two lists of transactions, and
serde_json does not write two of them alike. -/
structure Block.NoCollision (b b' : Block) : Prop where
  header : Hash.hash_bytes (encode b.header) = Hash.hash_bytes (encode b'.header) →
    b.header = b'.header
  transactions : Hash.hash_bytes (encode b.body.transactions) =
    Hash.hash_bytes (encode b'.body.transactions) → b.body.transactions = b'.body.transactions

/-- Without a collision, the hash of a block that commits stands for its transactions. -/
theorem transactions_of_hash {b b' : Block} (hb : b.Commits) (hb' : b'.Commits)
    (hno : b.NoCollision b') (hhash : b.hash = b'.hash) :
    b.body.transactions = b'.body.transactions := by
  refine hno.transactions ?_
  rw [← hb, ← hb', hno.header hhash]

/-- The finalized log is a chain that starts after a block with the hash `genesis`. -/
structure ValidChain (genesis : Hash) (e : BftConsensus B) : Prop where
  first : ∀ b, e.finalized[(1 : UInt64)]? = some b → b.header.previous_hash = genesis
  link : ∀ (h : UInt64) b b', h.toNat + 1 ≤ e.height.toNat → e.finalized[h]? = some b →
    e.finalized[h + 1]? = some b' → b'.header.previous_hash = b.hash
  commits : ∀ {h : UInt64} {b : Block}, e.finalized[h]? = some b → b.Commits

namespace BftConsensus

/-- The checks that `validate_proposal` leaves out: the block commits to its transactions and
names the tip, or the block below it, as its parent, and the block above it names it. -/
structure Linked (e : BftConsensus B) (b : Block) : Prop where
  commits : b.Commits
  tip : b.header.height = e.height + 1 → b.header.previous_hash = e.previous_hash
  parent : ∀ k parent, e.height < k → k + 1 = b.header.height → (e.round k).block = some parent →
    b.header.previous_hash = parent.hash
  child : ∀ child, (e.round (b.header.height + 1)).block = some child →
    child.header.previous_hash = b.hash

/-- A call of the node that stores only linked blocks. A block of its own names the tip, so it
is for the next height, with no block above it yet. -/
def LinkedCall (e : BftConsensus B) : EngineCall → Prop
  | .propose height _ _ => e.validator_set.proposer height 0 = some e.local_address →
      0 < height ∧ (height ≤ e.height ∨
        height = e.height + 1 ∧ (e.round (height + 1)).block = none)
  | .handle_block b => e.validate_proposal (.from_block b) = .ok () → e.Linked b
  | .handle_vote _ => True
  | .finalize_pending _ => True
  | .handle_proposal _ => False
  | .finalize _ _ => False

/-! ## The invariant -/

/-- The log is a chain, and the blocks above it are linked to it and to each other. -/
structure Chained (genesis : Hash) (e : BftConsensus B) : Prop extends
    FinalLog genesis e, ValidChain genesis e where
  zero : (e.round 0).block = none
  round_header : ∀ {h : UInt64} {b : Block}, (e.round h).block = some b → b.header.height = h
  round_commits : ∀ {h : UInt64} {b : Block}, e.height < h → (e.round h).block = some b → b.Commits
  round_tip : ∀ {b : Block}, (e.round (e.height + 1)).block = some b →
    b.header.previous_hash = e.previous_hash
  round_link : ∀ {h : UInt64} {b b' : Block}, e.height < h → (e.round h).block = some b →
    (e.round (h + 1)).block = some b' → b'.header.previous_hash = b.hash

variable {genesis : Hash} {e e' : BftConsensus B}

/-- The same blocks in the rounds and the same log. -/
theorem Chained.of_same_blocks (hg : Chained genesis e) (hfin : e'.finalized = e.finalized)
    (hheight : e'.height = e.height) (hprev : e'.previous_hash = e.previous_hash)
    (hblock : ∀ h, (e'.round h).block = (e.round h).block) : Chained genesis e' := by
  refine ⟨(hg.toFinalLog.of_same_log hfin hheight hprev).1, ⟨?_, ?_, ?_⟩, ?_, ?_, ?_, ?_, ?_⟩
  · rw [hfin]
    exact hg.first
  · rw [hfin, hheight]
    exact hg.link
  · rw [hfin]
    exact hg.commits
  · rw [hblock]
    exact hg.zero
  · intro h b hb
    rw [hblock] at hb
    exact hg.round_header hb
  · intro h b hh hb
    rw [hblock] at hb
    rw [hheight] at hh
    exact hg.round_commits hh hb
  · rw [hheight, hprev]
    intro b hb
    rw [hblock] at hb
    exact hg.round_tip hb
  · intro h b b' hh hb hb'
    rw [hblock] at hb hb'
    rw [hheight] at hh
    exact hg.round_link hh hb hb'

/-- A block that is linked goes into the round of its height. -/
theorem Chained.store (hg : Chained genesis e) {b : Block} (hfin : e'.finalized = e.finalized)
    (hheight : e'.height = e.height) (hprev : e'.previous_hash = e.previous_hash)
    (hround : ∀ h, (e'.round h).block = if b.header.height = h then some b else (e.round h).block)
    (hpos : 0 < b.header.height) (hlinked : e.height < b.header.height → e.Linked b) :
    Chained genesis e' := by
  refine ⟨(hg.toFinalLog.of_same_log hfin hheight hprev).1, ⟨?_, ?_, ?_⟩, ?_, ?_, ?_, ?_, ?_⟩
  · rw [hfin]
    exact hg.first
  · rw [hfin, hheight]
    exact hg.link
  · rw [hfin]
    exact hg.commits
  · rw [hround, if_neg (by grind)]
    exact hg.zero
  · intro h b' hb'
    rw [hround] at hb'
    split at hb'
    · rename_i heq
      cases hb'
      exact heq
    · exact hg.round_header hb'
  · intro h b' hh hb'
    rw [hheight] at hh
    rw [hround] at hb'
    split at hb'
    · rename_i heq
      cases hb'
      exact (hlinked (heq ▸ hh)).commits
    · exact hg.round_commits hh hb'
  · rw [hheight, hprev]
    intro b' hb'
    rw [hround] at hb'
    split at hb'
    · rename_i heq
      cases hb'
      by_cases hh : e.height < b.header.height
      · exact (hlinked hh).tip heq
      · exact absurd hpos (by grind)
    · exact hg.round_tip hb'
  · -- The new block may be the upper or the lower one of the two, not both.
    intro h b1 b2 hh hb1 hb2
    rw [hheight] at hh
    rw [hround] at hb1 hb2
    split at hb2
    · rename_i heq
      cases hb2
      have hne : b.header.height ≠ h := by grind
      rw [if_neg hne] at hb1
      by_cases hlt : e.height < b.header.height
      · exact (hlinked hlt).parent h b1 hh heq.symm hb1
      · exact absurd hpos (by grind)
    · split at hb1
      · rename_i heq
        cases hb1
        subst heq
        exact (hlinked hh).child b2 hb2
      · exact hg.round_link hh hb1 hb2

/-- The next block goes from its round to the end of the chain. -/
theorem Chained.commit (hg : Chained genesis e) {b : Block}
    (hb : (e.round (e.height + 1)).block = some b) : Chained genesis (e.commit b) := by
  -- Round 0 has no block, so the height does not wrap.
  have hne : e.height + 1 ≠ 0 := by
    intro h0
    rw [h0, hg.zero] at hb
    cases hb
  have hlt : e.height < e.height + 1 := by grind
  have hnext := toNat_succ_of_ne_zero hne
  have hblock : ∀ h, ((e.commit b).round h).block = (e.round h).block := by
    intro h
    rw [commit_mark, mark_block]
  refine ⟨(hg.toFinalLog.commit (hg.round_header hb) hnext).1, ⟨?_, ?_, ?_⟩, ?_, ?_, ?_, ?_, ?_⟩
  · intro b' hb'
    rw [getElem?_commit] at hb'
    split at hb'
    · rename_i heq
      cases hb'
      rw [hg.round_tip hb]
      have hzero : e.height = 0 := by grind
      rcases hg.tip with ⟨-, hprev⟩ | ⟨t, ht, -⟩
      · exact hprev
      · have hmem : e.height ∈ e.finalized := by
          rw [ExtTreeMap.mem_iff_isSome_getElem?, ht]
          rfl
        rw [hg.heights, hzero] at hmem
        exact absurd hmem.1 (by decide)
    · exact hg.first b' hb'
  · intro h b1 b2 hh hb1 hb2
    change h.toNat + 1 ≤ (e.height + 1).toNat at hh
    rw [getElem?_commit] at hb1 hb2
    rw [if_neg (by grind)] at hb1
    split at hb2
    · rename_i heq
      cases hb2
      have hh' : h = e.height := by grind
      subst hh'
      rw [hg.round_tip hb]
      rcases hg.tip with ⟨hzero, -⟩ | ⟨t, ht, hprev⟩
      · have hmem : e.height ∈ e.finalized := by
          rw [ExtTreeMap.mem_iff_isSome_getElem?, hb1]
          rfl
        rw [hg.heights, hzero] at hmem
        exact absurd hmem.1 (by decide)
      · rw [ht] at hb1
        cases hb1
        exact hprev
    · rename_i heq
      have hne' : h.toNat ≠ e.height.toNat := fun he => heq (by rw [UInt64.toNat_inj.mp he])
      exact hg.link h b1 b2 (by omega) hb1 hb2
  · intro h b' hb'
    rw [getElem?_commit] at hb'
    split at hb'
    · cases hb'
      exact hg.round_commits hlt hb
    · exact hg.commits hb'
  · rw [hblock]
    exact hg.zero
  · intro h b' hb'
    rw [hblock] at hb'
    exact hg.round_header hb'
  · intro h b' hh hb'
    change e.height + 1 < h at hh
    rw [hblock] at hb'
    exact hg.round_commits (by grind) hb'
  · intro b' hb'
    rw [hblock] at hb'
    exact hg.round_link hlt hb hb'
  · intro h b1 b2 hh hb1 hb2
    change e.height + 1 < h at hh
    rw [hblock] at hb1 hb2
    exact hg.round_link (by grind) hb1 hb2

/-! ## What each method preserves -/

theorem handle_block_chained (hg : Chained genesis e) (b : Block)
    (hc : e.LinkedCall (.handle_block b)) : Chained genesis (e.handle_block b).2 := by
  rcases e.handle_block_cases b with ⟨err, -, he⟩ | ⟨hok, he⟩
  · rw [he]
    exact hg
  · rw [he]
    have hheight : e.height < b.header.height := ((validate_proposal_ok e).mp hok).1
    refine hg.store (b := b) rfl rfl rfl ?_ (by grind) fun _ => hc hok
    intro h
    exact e.admitting_block _ _ h

theorem handle_vote_chained (hg : Chained genesis e) (v : Vote) :
    Chained genesis (e.handle_vote v).2 := by
  rcases e.handle_vote_cases v with ⟨err, -, he⟩ | ⟨-, he⟩
  · rw [he]
    exact hg
  · rw [he]
    refine hg.of_same_blocks rfl rfl rfl ?_
    intro h
    rw [record_vote_block]

theorem finalize_chained (hg : Chained genesis e) (hash : Hash) (now : UInt64) :
    Chained genesis (e.finalize hash now).2 := by
  rcases e.finalize_cases hash now with he | ⟨-, -, he⟩ | ⟨b, p, hb, -, -, -, -, he⟩
  · rw [he]
    exact hg
  · rw [he]
    refine hg.of_same_blocks rfl rfl rfl ?_
    intro h
    rw [mark_block]
  · rw [he]
    exact hg.commit hb

variable [StateBackend B]

theorem propose_chained (hg : Chained genesis e) (height : UInt64) (transactions : List Transaction)
    (now : UInt64) (hc : e.LinkedCall (.propose height transactions now)) :
    Chained genesis (e.propose height transactions now).2 := by
  rcases e.propose_cases height transactions now with
    ⟨-, he⟩ | ⟨hp, ⟨err, set, -, he⟩ | ⟨root, -, -, he⟩⟩
  · rw [he]
    exact hg
  · rw [he]
    exact hg.of_same_blocks rfl rfl rfl fun _ => rfl
  · rw [he]
    obtain ⟨hpos, hnext⟩ := hc hp
    refine hg.store (b := e.built height transactions now root) rfl rfl rfl ?_ hpos ?_
    · intro h
      exact e.proposed_block _ _ _ _ h
    · intro hlt
      change e.height < height at hlt
      rcases hnext with hle | ⟨heq, hnone⟩
      · exact absurd hlt (by grind)
      · refine ⟨rfl, fun _ => rfl, ?_, ?_⟩
        · intro k parent hk hkh _
          change k + 1 = height at hkh
          exact absurd hk (by grind)
        · intro child hchild
          change (e.round (height + 1)).block = some child at hchild
          rw [hnone] at hchild
          cases hchild

/-! ## Runs -/

/-- What one call preserves. -/
theorem apply_chained (c : EngineCall) (hg : Chained genesis e) (hc : e.LinkedCall c) :
    Chained genesis (c.apply e) := by
  cases c with
  | propose height transactions now => exact propose_chained hg height transactions now hc
  | handle_block block => exact handle_block_chained hg block hc
  | handle_proposal proposal => exact absurd hc id
  | handle_vote vote => exact handle_vote_chained hg vote
  | finalize block_hash now => exact absurd hc id
  | finalize_pending now =>
    exact e.finalize_pending_preserves (P := Chained genesis)
      (fun e hash now he => finalize_chained he hash now) now hg

omit [StateBackend B] in
theorem new_chained (local_address : Address) (set : ValidatorSet) (state : StateStore B)
    (genesis : Hash) : Chained genesis (new_with_store local_address set state genesis) := by
  have hround : ∀ h, ((new_with_store local_address set state genesis).round h).block = none := by
    intro h
    simp only [new_with_store, round, ExtTreeMap.getElem?_empty]
    rfl
  have hlog : ∀ h : UInt64,
      (new_with_store local_address set state genesis).finalized[h]? = none := by
    intro h
    simp [new_with_store]
  refine ⟨(new_growing local_address set state genesis).toFinalLog, ⟨?_, ?_, ?_⟩, hround 0, ?_, ?_,
    ?_, ?_⟩
  · intro b hb
    rw [hlog] at hb
    cases hb
  · intro h b b' _ hb
    rw [hlog] at hb
    cases hb
  · intro h b hb
    rw [hlog] at hb
    cases hb
  · intro h b hb
    rw [hround] at hb
    cases hb
  · intro h b _ hb
    rw [hround] at hb
    cases hb
  · intro b hb
    rw [hround] at hb
    cases hb
  · intro h b b' _ hb
    rw [hround] at hb
    cases hb

/-- In every run that stores only linked blocks, the finalized log is a chain from the first
hash on, each block in it commits to its transactions, and so its hash stands for them. -/
theorem finalized_log_is_a_valid_chain (local_address : Address) (set : ValidatorSet)
    (state : StateStore B) (genesis : Hash) (calls : List EngineCall)
    (hc : (new_with_store local_address set state genesis).Meets LinkedCall calls) :
    let e := (new_with_store local_address set state genesis).run calls
    ValidChain genesis e ∧
      ∀ (h : UInt64) b b', e.finalized[h]? = some b → b'.Commits → b.NoCollision b' →
        b.hash = b'.hash → b.body.transactions = b'.body.transactions := by
  intro e
  have hchain := (run_preserves_of_meets (fun _ c hg hc => apply_chained c hg hc)
    (new_chained local_address set state genesis) hc).toValidChain
  exact ⟨hchain, fun h b b' hb hb' hno hhash =>
    transactions_of_hash (hchain.commits hb) hb' hno hhash⟩

end BftConsensus

end Pemrix

/-! ## Runs of one engine -/

namespace Pemrix.Concrete

open BftConsensus

/-- A block of height 1 with another parent than the first hash, and with a transaction that
its header does not cover. -/
def stray : Block :=
  { empty_block 1 10 ⟨Vector.replicate 32 9⟩ (addr 2) with body := ⟨[transfer]⟩ }

/-- The block and the vote of its proposer are enough: it is finalized with both faults. -/
theorem stray_is_finalized :
    let e := (engine two (addr 1)).run
      [.handle_block stray, .handle_vote (vote_for stray (addr 2)), .finalize_pending 30]
    e.finalized[(1 : UInt64)]? = some stray ∧ ¬ stray.Commits ∧ ¬ ValidChain default e := by
  intro e
  have hfin : e.finalized[(1 : UInt64)]? = some stray := by decide +kernel
  have hcommits : stray.header.tx_root ≠ Hash.hash_bytes (encode stray.body.transactions) := by
    decide +kernel
  refine ⟨hfin, hcommits, fun hchain => ?_⟩
  exact absurd (hchain.first stray hfin) (by decide +kernel)

/-- A block of height 1 on the first hash that covers its transaction. -/
def covered : Block :=
  { empty_block 1 10 default (addr 2) with
    header := { (empty_block 1 10 default (addr 2)).header with
      tx_root := Hash.hash_bytes (encode [transfer]) }
    body := ⟨[transfer]⟩ }

/-- The first validator finalizes it. -/
def covered_calls : List EngineCall :=
  [.handle_block covered, .handle_vote (vote_for covered (addr 2)), .finalize_pending 30]

/-- Then the first validator proposes the next block, with the transfer once more. -/
def next_block : Block :=
  match (((engine two (addr 1)).run covered_calls).propose 2 [transfer] 40).1 with
  | .ok b => b
  | .error _ => covered

def chained_calls : List EngineCall :=
  covered_calls ++ [.propose 2 [transfer] 40, .handle_vote (vote_for next_block (addr 2)),
    .finalize_pending 60]

theorem two_blocks_are_a_valid_chain :
    let e := (engine two (addr 1)).run chained_calls
    e.finalized[(1 : UInt64)]? = some covered ∧ e.finalized[(2 : UInt64)]? = some next_block ∧
      next_block.header.previous_hash = covered.hash ∧
      next_block.body.transactions = [transfer] ∧ ValidChain default e := by
  refine ⟨by decide +kernel, by decide +kernel, by decide +kernel, by decide +kernel,
    (finalized_log_is_a_valid_chain (addr 1) two .new_in_memory default _ ?_).1⟩
  refine ⟨fun _ => ⟨?_, ?_, ?_, ?_⟩, trivial, trivial, fun _ => ⟨?_, Or.inr ⟨?_, ?_⟩⟩, trivial,
    trivial, trivial⟩
  · show covered.header.tx_root = Hash.hash_bytes (encode covered.body.transactions)
    decide +kernel
  · intro _
    rfl
  · intro k parent hk hnext
    change (0 : UInt64) < k at hk
    change k + 1 = 1 at hnext
    grind
  · intro child hchild
    have hnone : ((engine two (addr 1)).round 2).block = none := by decide +kernel
    change ((engine two (addr 1)).round 2).block = some child at hchild
    rw [hnone] at hchild
    cases hchild
  · decide
  · decide +kernel
  · decide +kernel

end Pemrix.Concrete
