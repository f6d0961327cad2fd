-- The laws of the finalized log: it holds exactly the heights up to the current
-- one, each block under its own height, and nothing in it is ever changed.
import Pemrix.BftSteps

open Std

namespace Pemrix

/-- The calls of a run carry heights below `u64::MAX`. -/
def EngineCall.BelowMax : EngineCall → Prop
  | .propose height _ _ => height.toNat < 2 ^ 64 - 1
  | .handle_block block => block.header.height.toNat < 2 ^ 64 - 1
  | .handle_proposal proposal => proposal.height.toNat < 2 ^ 64 - 1
  | .handle_vote vote => vote.height.toNat < 2 ^ 64 - 1
  | .finalize _ _ => True
  | .finalize_pending _ => True

instance : DecidablePred EngineCall.BelowMax
  | .propose height _ _ => inferInstanceAs (Decidable (height.toNat < 2 ^ 64 - 1))
  | .handle_block block => inferInstanceAs (Decidable (block.header.height.toNat < 2 ^ 64 - 1))
  | .handle_proposal proposal => inferInstanceAs (Decidable (proposal.height.toNat < 2 ^ 64 - 1))
  | .handle_vote vote => inferInstanceAs (Decidable (vote.height.toNat < 2 ^ 64 - 1))
  | .finalize _ _ => inferInstanceAs (Decidable True)
  | .finalize_pending _ => inferInstanceAs (Decidable True)

variable {B : Type} [Crates]

/-- The finalized log of an engine that started after a block with the hash `genesis`. -/
structure FinalLog (genesis : Hash) (e : BftConsensus B) : Prop where
  heights : ∀ h, h ∈ e.finalized ↔ 1 ≤ h.toNat ∧ h.toNat ≤ e.height.toNat
  header : ∀ {h : UInt64} {b : Block}, e.finalized[h]? = some b → b.header.height = h
  tip : e.height = 0 ∧ e.previous_hash = genesis ∨
    ∃ b, e.finalized[e.height]? = some b ∧ e.previous_hash = b.hash

/-- The log, and what the rounds must hold for it to grow by the right block. -/
structure Growing (genesis : Hash) (e : BftConsensus B) : Prop extends FinalLog genesis e where
  below : e.height.toNat < 2 ^ 64 - 1
  block : ∀ {h : UInt64} {b : Block}, (e.round h).block = some b →
    b.header.height = h ∧ h.toNat < 2 ^ 64 - 1

/-- The second engine has the log of the first and may have more. -/
structure Extends (e e' : BftConsensus B) : Prop where
  height : e.height.toNat ≤ e'.height.toNat
  entries : ∀ {h : UInt64} {b : Block}, e.finalized[h]? = some b → e'.finalized[h]? = some b

omit [Crates] in
theorem Extends.refl (e : BftConsensus B) : Extends e e := ⟨Nat.le_refl _, id⟩

omit [Crates] in
theorem Extends.trans {e e' e'' : BftConsensus B} (h : Extends e e') (h' : Extends e' e'') :
    Extends e e'' := ⟨Nat.le_trans h.height h'.height, fun hb => h'.entries (h.entries hb)⟩

omit [Crates] in
theorem toNat_succ {h : UInt64} (hh : h.toNat < 2 ^ 64 - 1) : (h + 1).toNat = h.toNat + 1 := by
  rw [UInt64.toNat_add, UInt64.toNat_one]
  omega

omit [Crates] in
theorem toNat_succ_of_ne_zero {h : UInt64} (hne : h + 1 ≠ 0) : (h + 1).toNat = h.toNat + 1 := by
  refine toNat_succ ?_
  by_contra hmax
  refine hne (UInt64.toNat_inj.mp ?_)
  have hlt := h.toNat_lt
  rw [UInt64.toNat_add, UInt64.toNat_one, show h.toNat = 2 ^ 64 - 1 by omega]
  rfl

variable {genesis : Hash} {e e' : BftConsensus B}

/-- A step that leaves the log keeps its laws. -/
theorem FinalLog.of_same_log (hlog : FinalLog genesis e) (hfin : e'.finalized = e.finalized)
    (hheight : e'.height = e.height) (hprev : e'.previous_hash = e.previous_hash) :
    FinalLog genesis e' ∧ Extends e e' := by
  refine ⟨⟨?_, ?_, ?_⟩, ⟨?_, ?_⟩⟩
  · rw [hfin, hheight]
    exact hlog.heights
  · rw [hfin]
    exact hlog.header
  · rw [hfin, hheight, hprev]
    exact hlog.tip
  · rw [hheight]
  · intro h b hb
    rw [hfin]
    exact hb

theorem getElem?_commit (b : Block) (h : UInt64) :
    (e.commit b).finalized[h]? = if e.height + 1 = h then some b else e.finalized[h]? := by
  simp only [BftConsensus.commit, ExtTreeMap.getElem?_insert, LawfulEqCmp.compare_eq_iff_eq]

/-- The next block goes to the end of the log. -/
theorem FinalLog.commit (hlog : FinalLog genesis e) {b : Block}
    (hheader : b.header.height = e.height + 1) (hnext : (e.height + 1).toNat = e.height.toNat + 1) :
    FinalLog genesis (e.commit b) ∧ Extends e (e.commit b) := by
  have hnew : e.finalized[e.height + 1]? = none := by
    refine ExtTreeMap.getElem?_eq_none ?_
    rw [hlog.heights]
    omega
  refine ⟨⟨?_, ?_, ?_⟩, ⟨?_, ?_⟩⟩
  · intro h
    have hmem : h ∈ (e.commit b).finalized ↔ e.height + 1 = h ∨ h ∈ e.finalized := by
      simp only [BftConsensus.commit, ExtTreeMap.mem_insert, LawfulEqCmp.compare_eq_iff_eq]
    show _ ↔ _ ∧ h.toNat ≤ (e.height + 1).toNat
    rw [hmem, hlog.heights, hnext, ← UInt64.toNat_inj, hnext]
    omega
  · intro h b' hb'
    rw [getElem?_commit] at hb'
    split at hb'
    · rename_i heq
      cases hb'
      rw [hheader, heq]
    · exact hlog.header hb'
  · refine Or.inr ⟨b, ?_, rfl⟩
    rw [getElem?_commit]
    exact if_pos rfl
  · show e.height.toNat ≤ (e.height + 1).toNat
    omega
  · intro h b' hb'
    rw [getElem?_commit]
    split
    · rename_i heq
      rw [← heq, hnew] at hb'
      cases hb'
    · exact hb'

/-- A step that leaves the log and only stores blocks of the right height. -/
theorem Growing.of_same_log (hg : Growing genesis e) (hfin : e'.finalized = e.finalized)
    (hheight : e'.height = e.height) (hprev : e'.previous_hash = e.previous_hash)
    (hblock : ∀ h b, (e'.round h).block = some b → (e.round h).block = some b ∨
      b.header.height = h ∧ h.toNat < 2 ^ 64 - 1) :
    Growing genesis e' ∧ Extends e e' := by
  obtain ⟨hlog, hx⟩ := hg.toFinalLog.of_same_log hfin hheight hprev
  refine ⟨⟨hlog, ?_, ?_⟩, hx⟩
  · rw [hheight]
    exact hg.below
  · intro h b hb
    rcases hblock h b hb with hold | hnew
    · exact hg.block hold
    · exact hnew

/-! ## What each method preserves -/

theorem admit_growing (hg : Growing genesis e) (p : Proposal) (block : Option Block)
    (hp : ∀ b, block = some b → b.header.height = p.height ∧ p.height.toNat < 2 ^ 64 - 1) :
    Growing genesis (e.admitting p block) ∧ Extends e (e.admitting p block) := by
  refine hg.of_same_log rfl rfl rfl ?_
  intro h b hb
  rw [BftConsensus.admitting_block] at hb
  split at hb
  · rename_i heq
    subst heq
    exact Or.inr (hp b hb)
  · exact Or.inl hb

theorem handle_block_growing (hg : Growing genesis e) (b : Block)
    (hb : b.header.height.toNat < 2 ^ 64 - 1) :
    Growing genesis (e.handle_block b).2 ∧ Extends e (e.handle_block b).2 := by
  rcases e.handle_block_cases b with ⟨err, -, he⟩ | ⟨-, he⟩
  · rw [he]
    exact ⟨hg, Extends.refl e⟩
  · rw [he]
    refine admit_growing hg _ _ ?_
    rintro _ ⟨⟩
    exact ⟨rfl, hb⟩

theorem handle_proposal_growing (hg : Growing genesis e) (p : Proposal) :
    Growing genesis (e.handle_proposal p).2 ∧ Extends e (e.handle_proposal p).2 := by
  rcases e.handle_proposal_cases p with ⟨err, -, he⟩ | ⟨-, he⟩
  · rw [he]
    exact ⟨hg, Extends.refl e⟩
  · rw [he]
    exact admit_growing hg _ _ fun b hb => hg.block hb

theorem handle_vote_growing (hg : Growing genesis e) (v : Vote) :
    Growing genesis (e.handle_vote v).2 ∧ Extends e (e.handle_vote v).2 := by
  rcases e.handle_vote_cases v with ⟨err, -, he⟩ | ⟨-, he⟩
  · rw [he]
    exact ⟨hg, Extends.refl e⟩
  · rw [he]
    refine hg.of_same_log rfl rfl rfl ?_
    intro h b hb
    rw [BftConsensus.record_vote_block] at hb
    exact Or.inl hb

theorem mark_growing (hg : Growing genesis e) : Growing genesis e.mark ∧ Extends e e.mark := by
  refine hg.of_same_log rfl rfl rfl ?_
  intro h b hb
  rw [BftConsensus.mark_block] at hb
  exact Or.inl hb

theorem commit_growing (hg : Growing genesis e) {b : Block}
    (hb : (e.round (e.height + 1)).block = some b) :
    Growing genesis (e.commit b) ∧ Extends e (e.commit b) := by
  obtain ⟨hheader, hbelow⟩ := hg.block hb
  obtain ⟨hlog, hx⟩ := hg.toFinalLog.commit hheader (toNat_succ hg.below)
  exact ⟨⟨hlog, hbelow, fun hb' => (mark_growing hg).1.block hb'⟩, hx⟩

theorem finalize_growing (hg : Growing genesis e) (hash : Hash) (now : UInt64) :
    Growing genesis (e.finalize hash now).2 ∧ Extends e (e.finalize hash now).2 := by
  rcases e.finalize_cases hash now with he | ⟨-, -, he⟩ | ⟨b, p, hb, -, -, -, -, he⟩
  · rw [he]
    exact ⟨hg, Extends.refl e⟩
  · rw [he]
    exact mark_growing hg
  · rw [he]
    exact commit_growing hg hb

theorem finalize_pending_growing (hg : Growing genesis e) (now : UInt64) :
    Growing genesis (e.finalize_pending now).2 ∧ Extends e (e.finalize_pending now).2 := by
  refine e.finalize_pending_preserves (P := fun e' => Growing genesis e' ∧ Extends e e') ?_ now
    ⟨hg, Extends.refl e⟩
  rintro e' hash now ⟨hg', hx⟩
  obtain ⟨hg'', hx'⟩ := finalize_growing hg' hash now
  exact ⟨hg'', hx.trans hx'⟩

variable [StateBackend B]

theorem propose_growing (hg : Growing genesis e) (height : UInt64) (transactions : List Transaction)
    (now : UInt64) (hbelow : height.toNat < 2 ^ 64 - 1) :
    Growing genesis (e.propose height transactions now).2 ∧
      Extends e (e.propose height transactions now).2 := by
  rcases e.propose_cases height transactions now with
    ⟨-, he⟩ | ⟨-, ⟨err, set, -, he⟩ | ⟨root, -, -, he⟩⟩
  · rw [he]
    exact ⟨hg, Extends.refl e⟩
  · rw [he]
    exact hg.of_same_log rfl rfl rfl fun h b hb => Or.inl hb
  · rw [he]
    refine hg.of_same_log rfl rfl rfl ?_
    intro h b hb
    rw [BftConsensus.proposed_block] at hb
    split at hb
    · rename_i heq
      subst heq
      cases hb
      exact Or.inr ⟨rfl, hbelow⟩
    · exact Or.inl hb

/-! ## Runs -/

/-- What one call preserves. -/
theorem apply_growing (c : EngineCall) (hc : c.BelowMax) (hg : Growing genesis e) :
    Growing genesis (c.apply e) ∧ Extends e (c.apply e) := by
  cases c with
  | propose height transactions now => exact propose_growing hg height transactions now hc
  | handle_block block => exact handle_block_growing hg block hc
  | handle_proposal proposal => exact handle_proposal_growing hg proposal
  | handle_vote vote => exact handle_vote_growing hg vote
  | finalize block_hash now => exact finalize_growing hg block_hash now
  | finalize_pending now => exact finalize_pending_growing hg now

/-- What a whole run preserves. -/
theorem run_growing (calls : List EngineCall) (hc : ∀ c ∈ calls, c.BelowMax)
    (hg : Growing genesis e) : Growing genesis (e.run calls) ∧ Extends e (e.run calls) := by
  refine BftConsensus.run_preserves (P := fun e' => Growing genesis e' ∧ Extends e e') calls ?_ e
    ⟨hg, Extends.refl e⟩
  rintro c hmem e' ⟨hg', hx⟩
  obtain ⟨hg'', hx'⟩ := apply_growing c (hc c hmem) hg'
  exact ⟨hg'', hx.trans hx'⟩

omit [StateBackend B] in
theorem new_growing (local_address : Address) (set : ValidatorSet) (state : StateStore B)
    (genesis : Hash) :
    Growing genesis (BftConsensus.new_with_store local_address set state genesis) := by
  refine ⟨⟨?_, ?_, Or.inl ⟨rfl, rfl⟩⟩, ?_, ?_⟩
  · intro h
    have hzero :
      (BftConsensus.new_with_store local_address set state genesis).height.toNat = 0 := rfl
    rw [hzero]
    simp only [BftConsensus.new_with_store, ExtTreeMap.not_mem_empty, false_iff]
    omega
  · intro h b hb
    simp [BftConsensus.new_with_store] at hb
  · show (0 : UInt64).toNat < 2 ^ 64 - 1
    decide
  · intro h b hb
    simp only [BftConsensus.new_with_store, BftConsensus.round, ExtTreeMap.getElem?_empty] at hb
    cases hb

/-- In every run of calls with heights below `u64::MAX`, the log holds exactly the heights
`1..=height` with blocks of these heights, `previous_hash` is the hash of the last one, and
later calls only add to it. -/
theorem finality_is_append_only (local_address : Address) (set : ValidatorSet)
    (state : StateStore B) (genesis : Hash) (calls more : List EngineCall)
    (hc : ∀ c ∈ calls ++ more, c.BelowMax) :
    let e := (BftConsensus.new_with_store local_address set state genesis).run calls
    FinalLog genesis e ∧ Extends e (e.run more) := by
  intro e
  have hg := (run_growing calls (fun c hm => hc c (List.mem_append_left more hm))
    (new_growing local_address set state genesis)).1
  exact ⟨hg.toFinalLog,
    (run_growing more (fun c hm => hc c (List.mem_append_right calls hm)) hg).2⟩

end Pemrix

/-! ## A run of one engine -/

namespace Pemrix.Concrete

/-- A block is finalized, and another one for its height comes later. -/
theorem first_stays_final :
    let e := (engine four (addr 1)).run
      [.handle_block first, .handle_vote (vote_for first (addr 2)),
        .handle_vote (vote_for first (addr 3)), .finalize_pending 30]
    e.height = 1 ∧ FinalLog default e ∧
      Extends e (e.run [.handle_block rival, .finalize_pending 40]) :=
  ⟨by decide +kernel,
    finality_is_append_only (addr 1) four .new_in_memory default _ _ (by decide +kernel)⟩

end Pemrix.Concrete
