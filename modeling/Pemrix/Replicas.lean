-- The law of replicated state: where a block that an engine receives has no
-- effect on its store, and its own blocks take effect on the tip, the store and
-- the validator set are the replay of the finalized log.
import Pemrix.FinalLog

open Std

namespace Pemrix

variable {B : Type} [StateBackend B] [Crates]

/-! ## The replay of a log -/

/-- What a block makes of a store and a validator set. -/
def replay_block (s : StateStore B × ValidatorSet) (b : Block) : StateStore B × ValidatorSet :=
  ((BftConsensus.execute_all s.1 b.body.transactions).2,
    BftConsensus.next_set s.2 (BftConsensus.execute_all s.1 b.body.transactions).2)

/-- What the blocks at the heights `1..=n` make of a store and a validator set. -/
def replay (s : StateStore B × ValidatorSet) (log : UInt64 → Option Block) :
    Nat → StateStore B × ValidatorSet
  | 0 => s
  | n + 1 =>
    match log (UInt64.ofNat (n + 1)) with
    | none => replay s log n
    | some b => replay_block (replay s log n) b

theorem replay_congr {s : StateStore B × ValidatorSet} {log log' : UInt64 → Option Block} {n : Nat}
    (h : ∀ k, 1 ≤ k → k ≤ n → log (UInt64.ofNat k) = log' (UInt64.ofNat k)) :
    replay s log n = replay s log' n := by
  induction n with
  | zero => rfl
  | succ n ih =>
    unfold replay
    rw [h (n + 1) (Nat.le_add_left 1 n) (Nat.le_refl _), ih fun k h1 hk => h k h1 (by omega)]

namespace BftConsensus

/-- The finalized log as a function. -/
def log (e : BftConsensus B) : UInt64 → Option Block := fun h => e.finalized[h]?

/-- The store and the validator set. -/
def chain_state (e : BftConsensus B) : StateStore B × ValidatorSet := (e.state, e.validator_set)

/-- The heights for which a run has proposed a block. -/
def proposed_heights (e : BftConsensus B) : List EngineCall → List UInt64
  | [] => []
  | c :: calls =>
    (match c with
      | .propose height transactions now =>
        match (e.propose height transactions now).1 with
        | .ok _ => [height]
        | .error _ => []
      | _ => []) ++ proposed_heights (c.apply e) calls

/-! ## The condition -/

/-- The block changes nothing here and carries the root of the store. -/
structure NoEffect (e : BftConsensus B) (b : Block) : Prop where
  replay : replay_block e.chain_state b = e.chain_state
  root : e.state.state_root = .ok b.header.state_root

/-- A received block is known or has no effect, and a block of its own has no effect or goes
on the tip with nothing else pending: what an engine that does not execute the blocks of
others needs to stay in step. -/
def InStep (e : BftConsensus B) : EngineCall → Prop
  | .propose height transactions _ => e.validator_set.proposer height 0 = some e.local_address →
      0 < height ∧ (e.height < height → (e.round height).block = none) ∧
      ((execute_all e.state transactions).2 = e.state ∧
          next_set e.validator_set e.state = e.validator_set ∨
        (execute_all e.state transactions).1 = .ok () ∧
          (∃ root, (execute_all e.state transactions).2.state_root = .ok root) ∧
          height = e.height + 1 ∧ ∀ k, e.height < k → (e.round k).block = none)
  | .handle_block b => e.validate_proposal (.from_block b) = .ok () →
      (e.round b.header.height).block = some b ∨
        (e.round b.header.height).block = none ∧ e.NoEffect b
  | .handle_vote _ => True
  | .finalize_pending _ => True
  | .handle_proposal _ => False
  | .finalize _ _ => False

/-! ## The invariant -/

/-- The store is the replay of the log, or of the log and the own block of the next height. -/
structure Replays (start : StateStore B × ValidatorSet) (genesis : Hash) (proposals : List UInt64)
    (e : BftConsensus B) : Prop extends FinalLog genesis e where
  zero : (e.round 0).block = none
  round_header : ∀ {h : UInt64} {b : Block}, (e.round h).block = some b → b.header.height = h
  roots : ∀ n b, 1 ≤ n → n ≤ e.height.toNat → e.log (UInt64.ofNat n) = some b →
    (replay start e.log n).1.state_root = .ok b.header.state_root
  state : e.chain_state = replay start e.log e.height.toNat ∧
      (∀ h b, e.height < h → (e.round h).block = some b → e.NoEffect b) ∨
    ∃ own, (e.round (e.height + 1)).block = some own ∧ e.height + 1 ∈ proposals ∧
      e.chain_state = replay_block (replay start e.log e.height.toNat) own ∧
      e.state.state_root = .ok own.header.state_root ∧
      ∀ h b, e.height < h → h ≠ e.height + 1 → (e.round h).block = some b → e.NoEffect b

variable {start : StateStore B × ValidatorSet} {genesis : Hash} {proposals : List UInt64}
  {e e' : BftConsensus B}

/-- The condition and the invariant read the store and the set only. -/
theorem NoEffect.of_same {b : Block} (h : e.NoEffect b) (hs : e'.chain_state = e.chain_state) :
    e'.NoEffect b := by
  refine ⟨by rw [hs]; exact h.replay, ?_⟩
  have : e'.state = e.state := congrArg Prod.fst hs
  rw [this]
  exact h.root

/-- The same log, store, set and blocks. -/
theorem Replays.of_same (hg : Replays start genesis proposals e) (hfin : e'.finalized = e.finalized)
    (hheight : e'.height = e.height) (hprev : e'.previous_hash = e.previous_hash)
    (hs : e'.chain_state = e.chain_state) (hblock : ∀ h, (e'.round h).block = (e.round h).block) :
    Replays start genesis proposals e' := by
  have hlog : e'.log = e.log := by
    funext h
    show e'.finalized[h]? = e.finalized[h]?
    rw [hfin]
  have hroot : e'.state = e.state := congrArg Prod.fst hs
  refine ⟨(hg.toFinalLog.of_same_log hfin hheight hprev).1, by rw [hblock]; exact hg.zero,
    ?_, ?_, ?_⟩
  · intro h b hb
    rw [hblock] at hb
    exact hg.round_header hb
  · rw [hlog, hheight]
    exact hg.roots
  · rw [hlog, hheight, hs]
    rcases hg.state with ⟨h1, h2⟩ | ⟨own, h1, h2, h3, h4, h5⟩
    · refine Or.inl ⟨h1, fun h b hh hb => ?_⟩
      rw [hblock] at hb
      exact (h2 h b hh hb).of_same hs
    · refine Or.inr ⟨own, by rw [hblock]; exact h1, h2, h3, by rw [hroot]; exact h4, ?_⟩
      intro h b hh hne hb
      rw [hblock] at hb
      exact (h5 h b hh hne hb).of_same hs

/-- More proposals do no harm. -/
theorem Replays.mono {more : List UInt64} (hg : Replays start genesis proposals e)
    (hsub : ∀ h ∈ proposals, h ∈ more) : Replays start genesis more e := by
  refine { hg with state := ?_ }
  rcases hg.state with h | ⟨own, h1, h2, h3⟩
  · exact Or.inl h
  · exact Or.inr ⟨own, h1, hsub _ h2, h3⟩

/-- A block with no effect goes into a round with no block. -/
theorem Replays.store (hg : Replays start genesis proposals e) {b : Block}
    (hfin : e'.finalized = e.finalized) (hheight : e'.height = e.height)
    (hprev : e'.previous_hash = e.previous_hash) (hs : e'.chain_state = e.chain_state)
    (hround : ∀ h, (e'.round h).block = if b.header.height = h then some b else (e.round h).block)
    (hpos : 0 < b.header.height)
    (hnew : e.height < b.header.height → (e.round b.header.height).block = none)
    (hnone : e.NoEffect b) : Replays start genesis proposals e' := by
  have hlog : e'.log = e.log := by
    funext h
    show e'.finalized[h]? = e.finalized[h]?
    rw [hfin]
  have hroot : e'.state = e.state := congrArg Prod.fst hs
  have hblock : ∀ {h b'}, (e'.round h).block = some b' →
      (b.header.height = h ∧ b' = b) ∨ (e.round h).block = some b' := by
    intro h b' hb'
    rw [hround] at hb'
    split at hb'
    · rename_i heq
      cases hb'
      exact Or.inl ⟨heq, rfl⟩
    · exact Or.inr hb'
  refine ⟨(hg.toFinalLog.of_same_log hfin hheight hprev).1, ?_, ?_, ?_, ?_⟩
  · rw [hround, if_neg (by grind)]
    exact hg.zero
  · intro h b' hb'
    rcases hblock hb' with ⟨heq, rfl⟩ | hb'
    · exact heq
    · exact hg.round_header hb'
  · rw [hlog, hheight]
    exact hg.roots
  · rw [hlog, hheight, hs]
    rcases hg.state with ⟨h1, h2⟩ | ⟨own, h1, h2, h3, h4, h5⟩
    · refine Or.inl ⟨h1, fun h b' hh hb' => ?_⟩
      rcases hblock hb' with ⟨-, rfl⟩ | hb'
      · exact hnone.of_same hs
      · exact (h2 h b' hh hb').of_same hs
    · -- The round of the own block is taken, so the new block is elsewhere.
      have hne : b.header.height ≠ e.height + 1 := by
        intro heq
        by_cases hlt : e.height < b.header.height
        · have hfree := hnew hlt
          rw [heq, h1] at hfree
          cases hfree
        · exact absurd hpos (by grind)
      refine Or.inr ⟨own, by rw [hround, if_neg hne]; exact h1, h2, h3, by rw [hroot]; exact h4, ?_⟩
      intro h b' hh hne' hb'
      rcases hblock hb' with ⟨-, rfl⟩ | hb'
      · exact hnone.of_same hs
      · exact (h5 h b' hh hne' hb').of_same hs

/-- The next block goes to the log: the store is already the one after it. -/
theorem Replays.commit (hg : Replays start genesis proposals e) {b : Block}
    (hb : (e.round (e.height + 1)).block = some b) :
    Replays start genesis proposals (e.commit b) := by
  have hne : e.height + 1 ≠ 0 := by
    intro h0
    rw [h0, hg.zero] at hb
    cases hb
  have hnext := toNat_succ_of_ne_zero hne
  have hlt : e.height < e.height + 1 := by grind
  have hblock : ∀ h, ((e.commit b).round h).block = (e.round h).block := by
    intro h
    rw [commit_round]
    split
    · rfl
    · rfl
  have hlog : ∀ h, (e.commit b).log h = if e.height + 1 = h then some b else e.log h :=
    fun h => getElem?_commit b h
  have hword : UInt64.ofNat (e.height.toNat + 1) = e.height + 1 := by
    rw [← hnext, UInt64.ofNat_toNat]
  have hother : ∀ n, n ≤ e.height.toNat → e.height + 1 ≠ UInt64.ofNat n := by
    intro n hn heq
    have hmax := e.height.toNat_lt
    have := congrArg UInt64.toNat heq
    rw [hnext, UInt64.toNat_ofNat_of_lt' (show n < 2 ^ 64 by omega)] at this
    omega
  have hbelow :
      ∀ n, n ≤ e.height.toNat → replay start (e.commit b).log n = replay start e.log n := by
    intro n hn
    refine replay_congr fun k h1 hk => ?_
    rw [hlog, if_neg (hother k (by omega))]
  -- The chain state is the replay up to the new block, and carries its root.
  have hreplay : e.chain_state = replay start (e.commit b).log (e.height.toNat + 1) ∧
      e.state.state_root = .ok b.header.state_root ∧
      ∀ h b', e.height + 1 < h → (e.round h).block = some b' → e.NoEffect b' := by
    unfold replay
    rw [hword, hlog, if_pos rfl, hbelow _ (Nat.le_refl _)]
    rcases hg.state with ⟨h1, h2⟩ | ⟨own, h1, -, h3, h4, h5⟩
    · have hno := h2 _ b hlt hb
      refine ⟨?_, hno.root, fun h b' hh hb' => h2 h b' (by grind) hb'⟩
      show e.chain_state = replay_block _ b
      rw [← h1, hno.replay]
    · rw [hb] at h1
      cases h1
      exact ⟨h3, h4, fun h b' hh hb' => h5 h b' (by grind) (by grind) hb'⟩
  obtain ⟨hstate, hroot, hrest⟩ := hreplay
  refine ⟨(hg.toFinalLog.commit (hg.round_header hb) hnext).1, by rw [hblock]; exact hg.zero,
    ?_, ?_, ?_⟩
  · intro h b' hb'
    rw [hblock] at hb'
    exact hg.round_header hb'
  · intro n b' h1 hn hb'
    change n ≤ (e.height + 1).toNat at hn
    rw [hnext] at hn
    rcases Nat.lt_or_ge e.height.toNat n with hgt | hle
    · obtain rfl : n = e.height.toNat + 1 := by omega
      rw [hword, hlog, if_pos rfl] at hb'
      cases hb'
      rw [← hstate]
      exact hroot
    · rw [hbelow n hle]
      rw [hlog, if_neg (hother n hle)] at hb'
      exact hg.roots n b' h1 hle hb'
  · refine Or.inl ⟨?_, ?_⟩
    · show e.chain_state = replay start _ (e.height + 1).toNat
      rw [hnext]
      exact hstate
    · intro h b' hh hb'
      rw [hblock] at hb'
      exact (hrest h b' hh hb').of_same rfl

/-! ## What each method preserves -/

theorem handle_block_replays (hg : Replays start genesis proposals e) (b : Block)
    (hc : e.InStep (.handle_block b)) : Replays start genesis proposals (e.handle_block b).2 := by
  rcases e.handle_block_cases b with ⟨err, -, he⟩ | ⟨hok, he⟩
  · rw [he]
    exact hg
  · rw [he]
    have hlt : e.height < b.header.height := (e.validate_proposal_ok.mp hok).1
    have hround : ∀ h, ((e.admitting (.from_block b) (some b)).round h).block =
        if b.header.height = h then some b else (e.round h).block := e.admitting_block _ _
    rcases hc hok with hsame | ⟨hnew, hno⟩
    · refine hg.of_same rfl rfl rfl rfl ?_
      intro h
      rw [hround]
      split
      · rename_i heq
        rw [← heq, hsame]
      · rfl
    · exact hg.store (b := b) rfl rfl rfl rfl hround (by grind) (fun _ => hnew) hno

theorem handle_vote_replays (hg : Replays start genesis proposals e) (v : Vote) :
    Replays start genesis proposals (e.handle_vote v).2 := by
  rcases e.handle_vote_cases v with ⟨err, -, he⟩ | ⟨-, he⟩
  · rw [he]
    exact hg
  · rw [he]
    refine hg.of_same rfl rfl rfl rfl ?_
    intro h
    rw [record_vote_block]

theorem finalize_replays (hg : Replays start genesis proposals e) (hash : Hash) (now : UInt64) :
    Replays start genesis proposals (e.finalize hash now).2 := by
  rcases e.finalize_cases hash now with he | ⟨-, -, he⟩ | ⟨b, p, hb, -, -, -, -, he⟩
  · rw [he]
    exact hg
  · rw [he]
    refine hg.of_same rfl rfl rfl rfl ?_
    intro h
    rw [mark_block]
  · rw [he]
    exact hg.commit hb

/-- A proposal with no effect stores a block with no effect; one with an effect goes on the
tip and waits there. -/
theorem propose_replays (hg : Replays start genesis proposals e) (height : UInt64)
    (transactions : List Transaction) (now : UInt64)
    (hc : e.InStep (.propose height transactions now)) :
    Replays start genesis (proposals ++ e.proposed_heights [.propose height transactions now])
      (e.propose height transactions now).2 := by
  have hmono : ∀ h ∈ proposals,
      h ∈ proposals ++ e.proposed_heights [.propose height transactions now] :=
    fun h hh => List.mem_append_left _ hh
  rcases e.propose_cases height transactions now with
    ⟨-, he⟩ | ⟨hp, ⟨err, set, hset, he⟩ | ⟨root, -, hroot, he⟩⟩
  · rw [he]
    exact hg.mono hmono
  · obtain ⟨-, -, ⟨hstate, hsame⟩ | ⟨hok, ⟨root, hroot⟩, -⟩⟩ := hc hp
    · rw [he, hstate]
      have hsame' : set = e.validator_set := by
        rcases hset with ⟨-, rfl⟩ | ⟨-, rfl⟩
        · rfl
        · rw [hstate]
          exact hsame
      subst hsame'
      exact hg.mono hmono
    · rcases hset with ⟨⟨err, herr⟩, -⟩ | ⟨⟨err, herr⟩, -⟩
      · rw [hok] at herr
        cases herr
      · rw [hroot] at herr
        cases herr
  · obtain ⟨hpos, hfree, hcase⟩ := hc hp
    have hheights :
        height ∈ proposals ++ e.proposed_heights [.propose height transactions now] := by
      simp [proposed_heights, he]
    rw [he]
    have hround := e.proposed_block height (e.built height transactions now root)
    rcases hcase with ⟨hstate, hsame⟩ | ⟨-, -, hnext, hnone⟩
    · rw [hstate, hsame]
      rw [hstate] at hroot
      refine (hg.mono hmono).store (b := e.built height transactions now root) rfl rfl rfl rfl
        (hround _ _) hpos hfree ⟨?_, hroot⟩
      show ((execute_all e.state transactions).2, next_set e.validator_set
        (execute_all e.state transactions).2) = _
      rw [hstate, hsame]
      rfl
    · subst hnext
      generalize hstate : (execute_all e.state transactions).2 = state at hroot ⊢
      have hlog : FinalLog genesis (e.proposed (e.height + 1)
          (e.built (e.height + 1) transactions now root) state (next_set e.validator_set state)) :=
        And.left (FinalLog.of_same_log hg.toFinalLog rfl rfl rfl)
      refine ⟨hlog, ?_, ?_, hg.roots, ?_⟩
      · rw [hround, if_neg (by grind)]
        exact hg.zero
      · intro h b hb
        rw [hround] at hb
        split at hb
        · rename_i heq
          cases hb
          exact heq
        · exact hg.round_header hb
      · have hlt : e.height < e.height + 1 := by grind
        have hbase : e.chain_state = replay start e.log e.height.toNat := by
          rcases hg.state with ⟨h1, -⟩ | ⟨own, h1, -⟩
          · exact h1
          · rw [hnone _ hlt] at h1
            cases h1
        refine Or.inr ⟨e.built (e.height + 1) transactions now root, ?_, hheights, ?_, hroot, ?_⟩
        · rw [hround]
          exact if_pos rfl
        · show (state, next_set e.validator_set state) =
            replay_block (replay start e.log e.height.toNat)
              (e.built (e.height + 1) transactions now root)
          rw [← hbase, ← hstate]
          rfl
        · intro h b hh hne hb
          change e.height < h at hh
          change h ≠ e.height + 1 at hne
          rw [hround, if_neg (Ne.symm hne), hnone h hh] at hb
          cases hb

/-! ## Runs -/

/-- What one call preserves. -/
theorem apply_replays (c : EngineCall) (hg : Replays start genesis proposals e) (hc : e.InStep c) :
    Replays start genesis (proposals ++ e.proposed_heights [c]) (c.apply e) := by
  have hnone : Replays start genesis proposals (c.apply e) →
      Replays start genesis (proposals ++ e.proposed_heights [c]) (c.apply e) :=
    fun h => h.mono fun _ hh => List.mem_append_left _ hh
  cases c with
  | propose height transactions now => exact propose_replays hg height transactions now hc
  | handle_block block => exact hnone (handle_block_replays hg block hc)
  | handle_proposal proposal => exact absurd hc id
  | handle_vote vote => exact hnone (handle_vote_replays hg vote)
  | finalize block_hash now => exact absurd hc id
  | finalize_pending now =>
    refine hnone (e.finalize_pending_preserves (P := Replays start genesis proposals) ?_ now hg)
    intro e' hash now he
    exact finalize_replays he hash now

/-- What a whole run preserves. -/
theorem run_replays {calls : List EngineCall} (hg : Replays start genesis proposals e)
    (hc : e.Meets InStep calls) :
    Replays start genesis (proposals ++ e.proposed_heights calls) (e.run calls) := by
  induction calls generalizing e proposals with
  | nil =>
    rw [proposed_heights, List.append_nil]
    exact hg
  | cons c calls ih =>
    have hstep := ih (apply_replays c hg hc.1) hc.2
    rw [List.append_assoc] at hstep
    have hsplit : e.proposed_heights (c :: calls) =
        e.proposed_heights [c] ++ (c.apply e).proposed_heights calls := by
      simp only [proposed_heights, List.append_nil]
    rw [hsplit]
    exact hstep

theorem new_replays (local_address : Address) (set : ValidatorSet) (state : StateStore B)
    (genesis : Hash) :
    Replays (state, set) genesis [] (new_with_store local_address set state genesis) := by
  have hround : ∀ h, ((new_with_store local_address set state genesis).round h).block = none := by
    intro h
    rw [new_round]
    rfl
  refine ⟨(new_growing local_address set state genesis).toFinalLog, hround 0, ?_, ?_,
    Or.inl ⟨rfl, ?_⟩⟩
  · intro h b hb
    rw [hround] at hb
    cases hb
  · intro n b h1 hn
    change n ≤ 0 at hn
    omega
  · intro h b _ hb
    rw [hround] at hb
    cases hb

/-- With no own block above the tip, the store and the set are the replay of the log. -/
theorem Replays.at_tip (hg : Replays start genesis proposals e)
    (habove : ∀ h ∈ proposals, h ≤ e.height) :
    e.chain_state = replay start e.log e.height.toNat := by
  rcases hg.state with ⟨h1, -⟩ | ⟨own, h1, h2, -⟩
  · exact h1
  · have hne : e.height + 1 ≠ 0 := by
      intro h0
      rw [h0, hg.zero] at h1
      cases h1
    exact absurd (habove _ h2) (by grind)

/-- In runs that stay in step, two engines from one store and one set that have finalized the
same blocks, with no own block above them, have the same state root and the same validator
set, and the root is the one that the last block carries. -/
theorem same_log_gives_same_state (a a' : Address) (set : ValidatorSet) (state : StateStore B)
    (genesis : Hash) (calls calls' : List EngineCall)
    (hc : (new_with_store a set state genesis).Meets InStep calls)
    (hc' : (new_with_store a' set state genesis).Meets InStep calls') :
    let e := (new_with_store a set state genesis).run calls
    let e' := (new_with_store a' set state genesis).run calls'
    e.height = e'.height → e.finalized = e'.finalized →
    (∀ h ∈ (new_with_store a set state genesis).proposed_heights calls, h ≤ e.height) →
    (∀ h ∈ (new_with_store a' set state genesis).proposed_heights calls', h ≤ e'.height) →
    e.state.state_root = e'.state.state_root ∧
      (0 < e.height → ∃ b, e.finalized[e.height]? = some b ∧
        e.state.state_root = .ok b.header.state_root) ∧
      e.validator_set = e'.validator_set := by
  intro e e' hheight hlog habove habove'
  have hg := run_replays (new_replays a set state genesis) hc
  have hg' := run_replays (new_replays a' set state genesis) hc'
  rw [List.nil_append] at hg hg'
  have htip := hg.at_tip habove
  have htip' := hg'.at_tip habove'
  have hsame : e.chain_state = e'.chain_state := by
    rw [htip, htip', ← hheight]
    refine congrFun (congrArg _ ?_) _
    funext h
    show e.finalized[h]? = e'.finalized[h]?
    rw [hlog]
  have hstate : e.state = e'.state := congrArg Prod.fst hsame
  refine ⟨by rw [hstate], ?_, congrArg Prod.snd hsame⟩
  intro hpos
  have hpos : 1 ≤ e.height.toNat := by
    have := UInt64.lt_iff_toNat_lt.mp hpos
    rwa [UInt64.toNat_zero] at this
  obtain ⟨b, hb⟩ := Option.isSome_iff_exists.mp (ExtTreeMap.mem_iff_isSome_getElem?.mp
    ((hg.heights e.height).mpr ⟨hpos, Nat.le_refl _⟩))
  refine ⟨b, hb, ?_⟩
  have hroot := hg.roots e.height.toNat b hpos (Nat.le_refl _)
    (by rw [UInt64.ofNat_toNat]; exact hb)
  rw [← htip] at hroot
  exact hroot

end BftConsensus

end Pemrix

/-! ## A proposer and a follower -/

namespace Pemrix.Concrete

open BftConsensus

/-- A store in which the payer of the transfer has 100, and the nonce of its next one. -/
def paid_store (nonce : Nonce) : StateStore InMemoryBackend :=
  ⟨⟨(∅ : ExtTreeMap Address Account).insert payer ⟨100, nonce⟩, ∅⟩⟩

/-- An engine of one of two validators. The second one proposes at height 1. -/
def replica (nonce : Nonce) (a : Address) : BftConsensus InMemoryBackend :=
  new_with_store a two (paid_store nonce) default

/-- The block with the transfer that the second validator proposes. -/
def proposed_block (nonce : Nonce) : Block :=
  match ((replica nonce (addr 2)).propose 1 [transfer] 10).1 with
  | .ok b => b
  | .error _ => first

/-- The proposer makes the block and gets the vote of the follower. -/
def proposer_calls (nonce : Nonce) : List EngineCall :=
  [.propose 1 [transfer] 10, .handle_vote (vote_for (proposed_block nonce) (addr 1)),
    .finalize_pending 30]

/-- The follower gets the block and the vote of the proposer. -/
def follower_calls (nonce : Nonce) : List EngineCall :=
  [.handle_block (proposed_block nonce), .handle_vote (vote_for (proposed_block nonce) (addr 2)),
    .finalize_pending 30]

/-- Both finalize the block with the signed transfer, and only the proposer has executed it. -/
theorem follower_keeps_the_old_state :
    let e := (replica 0 (addr 2)).run (proposer_calls 0)
    let e' := (replica 0 (addr 1)).run (follower_calls 0)
    e.height = 1 ∧ e'.height = 1 ∧ e.finalized = e'.finalized ∧
      (replica 0 (addr 2)).proposed_heights (proposer_calls 0) = [1] ∧
      (replica 0 (addr 1)).proposed_heights (follower_calls 0) = [] ∧
      e.state.state_root = .ok (proposed_block 0).header.state_root ∧
      e'.state.state_root ≠ .ok (proposed_block 0).header.state_root := by
  decide +kernel

theorem proposer_in_step : (replica 1 (addr 2)).Meets InStep (proposer_calls 1) := by
  refine ⟨fun _ => ⟨by decide, fun _ => ?_, Or.inl ⟨?_, ?_⟩⟩, trivial, trivial, trivial⟩
  · decide +kernel
  · decide +kernel
  · decide +kernel

theorem follower_in_step : (replica 1 (addr 1)).Meets InStep (follower_calls 1) := by
  refine ⟨fun _ => Or.inr ⟨?_, ?_, ?_⟩, trivial, trivial, trivial⟩
  · decide +kernel
  · decide +kernel
  · decide +kernel

/-- A block with a transfer whose nonce is used leaves both with its root. -/
theorem used_nonce_keeps_replicas_alike :
    let e := (replica 1 (addr 2)).run (proposer_calls 1)
    let e' := (replica 1 (addr 1)).run (follower_calls 1)
    e.height = 1 ∧ (proposed_block 1).body.transactions = [transfer] ∧
      e.state.state_root = e'.state.state_root ∧
      (0 < e.height → ∃ b, e.finalized[e.height]? = some b ∧
        e.state.state_root = .ok b.header.state_root) ∧
      e.validator_set = e'.validator_set := by
  intro e e'
  have hheight : e.height = 1 := by decide +kernel
  have hown : (replica 1 (addr 2)).proposed_heights (proposer_calls 1) = [1] := by decide +kernel
  refine ⟨hheight, by decide +kernel, same_log_gives_same_state (addr 2) (addr 1) two
    (paid_store 1) default (proposer_calls 1) (follower_calls 1) proposer_in_step follower_in_step
    (by decide +kernel) (by decide +kernel) ?_ ?_⟩
  · intro h hh
    change h ∈ (replica 1 (addr 2)).proposed_heights (proposer_calls 1) at hh
    rw [hown, List.mem_singleton] at hh
    rw [hh]
    exact UInt64.le_of_eq hheight.symm
  · intro h hh
    cases hh

end Pemrix.Concrete
