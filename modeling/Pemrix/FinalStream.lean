-- The stream of finalized blocks of a node. A call of `finalize_pending` can
-- finalize several heights and returns the last block only, so the stream is the
-- finalized log exactly as long as no call finds two heights with a quorum.
import Pemrix.FinalLog
import Pemrix.Node

open Std

namespace Pemrix

variable {B : Type}

namespace BftConsensus

/-! ## The log as a list -/

/-- The entries `finalized[1]`, `finalized[2]`, ..., `finalized[height]`. -/
def final_blocks (e : BftConsensus B) : List (Option Block) :=
  (List.range e.height.toNat).map fun i => e.finalized[UInt64.ofNat (i + 1)]?

theorem final_blocks_congr {e e' : BftConsensus B} (hheight : e'.height = e.height)
    (hfin : e'.finalized = e.finalized) : e'.final_blocks = e.final_blocks := by
  rw [final_blocks, hheight, hfin, final_blocks]

theorem toNat_next {h : UInt64} (hlt : h < h + 1) : (h + 1).toNat = h.toNat + 1 := by
  refine toNat_succ_of_ne_zero ?_
  intro hzero
  rw [hzero] at hlt
  exact absurd hlt UInt64.not_lt_zero

variable [Crates]

theorem final_blocks_commit {e : BftConsensus B} (hlt : e.height < e.height + 1) (b : Block) :
    (e.commit b).final_blocks = e.final_blocks ++ [some b] := by
  have hnext := toNat_next hlt
  have hbound := (e.height + 1).toNat_lt
  have hentry : ∀ i, i ≤ e.height.toNat → (e.commit b).finalized[UInt64.ofNat (i + 1)]? =
      if i = e.height.toNat then some b else e.finalized[UInt64.ofNat (i + 1)]? := by
    intro i hi
    have hsame : e.height + 1 = UInt64.ofNat (i + 1) ↔ i = e.height.toNat := by
      rw [← UInt64.toNat_inj, hnext, UInt64.toNat_ofNat', Nat.mod_eq_of_lt (by omega)]
      omega
    rw [getElem?_commit, if_congr hsame rfl rfl]
  unfold final_blocks
  rw [show (e.commit b).height.toNat = e.height.toNat + 1 from hnext, List.range_succ,
    List.map_append]
  refine congrArg₂ _ ?_ ?_
  · refine List.map_congr_left ?_
    intro i hi
    rw [List.mem_range] at hi
    rw [hentry i (by omega), if_neg (by omega)]
  · rw [List.map_singleton, hentry _ (Nat.le_refl _), if_pos rfl]

/-! ## Rounds above the height -/

omit [Crates] in
/-- A round above the height that has a proposal has its block, one that has none has no
votes, and none is marked as finalized. -/
structure Stocked (e : BftConsensus B) : Prop where
  block : ∀ {h : UInt64}, e.height < h → (e.round h).proposal ≠ none → (e.round h).block ≠ none
  votes : ∀ {h : UInt64}, e.height < h → (e.round h).proposal = none → (e.round h).votes = ∅
  flag : ∀ {h : UInt64}, e.height < h → (e.round h).finalized = false

variable {e : BftConsensus B}

omit [Crates] in
theorem new_stocked (local_address : Address) (set : ValidatorSet) (state : StateStore B)
    (genesis : Hash) : Stocked (new_with_store local_address set state genesis) := by
  refine ⟨?_, ?_, ?_⟩
  · intro h _ hp
    rw [new_round] at hp
    exact absurd rfl hp
  · intro h _ _
    rw [new_round]
    rfl
  · intro h _
    rw [new_round]
    rfl

omit [Crates] in
/-- One round changes, and it gets a proposal and a block. -/
theorem Stocked.set_round (hs : Stocked e) {e' : BftConsensus B} {k : UInt64} {r : RoundState}
    (hheight : e'.height = e.height) (hrounds : ∀ h, e'.round h = if k = h then r else e.round h)
    (hr : e.height < k → r.proposal ≠ none ∧ r.block ≠ none)
    (hflag : r.finalized = (e.round k).finalized) : Stocked e' := by
  refine ⟨?_, ?_, ?_⟩
  · intro h hlt hp
    rw [hheight] at hlt
    rw [hrounds] at hp ⊢
    split
    · rename_i hk
      subst hk
      exact (hr hlt).2
    · rename_i hk
      rw [if_neg hk] at hp
      exact hs.block hlt hp
  · intro h hlt hp
    rw [hheight] at hlt
    rw [hrounds] at hp ⊢
    split
    · rename_i hk
      subst hk
      rw [if_pos rfl] at hp
      exact absurd hp (hr hlt).1
    · rename_i hk
      rw [if_neg hk] at hp
      exact hs.votes hlt hp
  · intro h hlt
    rw [hheight] at hlt
    rw [hrounds]
    split
    · rename_i hk
      subst hk
      rw [hflag]
      exact hs.flag hlt
    · exact hs.flag hlt

theorem handle_block_stocked (hs : Stocked e) (b : Block) :
    Stocked (e.handle_block b).2 ∧ (e.handle_block b).2.final_blocks = e.final_blocks := by
  rcases e.handle_block_cases b with ⟨err, -, he⟩ | ⟨-, he⟩
  · rw [he]
    exact ⟨hs, rfl⟩
  · rw [he]
    refine ⟨?_, final_blocks_congr rfl rfl⟩
    refine hs.set_round rfl (fun h => e.set_round_round _ h _) ?_ rfl
    intro _
    exact ⟨by simp [admitted], by simp [admitted]⟩

omit [Crates] in
theorem handle_vote_stocked (hs : Stocked e) (v : Vote) :
    Stocked (e.handle_vote v).2 ∧ (e.handle_vote v).2.final_blocks = e.final_blocks := by
  rcases e.handle_vote_cases v with ⟨err, -, he⟩ | ⟨hv, he⟩
  · rw [he]
    exact ⟨hs, rfl⟩
  · rw [he]
    refine ⟨?_, final_blocks_congr rfl rfl⟩
    obtain ⟨hheight, -, p, hp, -⟩ := (e.validate_vote_ok).mp hv
    have hsome : (e.round v.height).proposal ≠ none := by simp [hp]
    refine hs.set_round rfl (fun h => e.set_round_round _ h _) ?_ rfl
    intro hlt
    exact ⟨hsome, hs.block hlt hsome⟩

theorem propose_stocked [StateBackend B] (hs : Stocked e) (height : UInt64)
    (transactions : List Transaction) (now : UInt64) :
    Stocked (e.propose height transactions now).2 ∧
      (e.propose height transactions now).2.final_blocks = e.final_blocks := by
  rcases e.propose_cases height transactions now with
    ⟨-, he⟩ | ⟨-, ⟨err, set, -, he⟩ | ⟨root, -, -, he⟩⟩
  · rw [he]
    exact ⟨hs, rfl⟩
  · rw [he]
    exact ⟨⟨hs.block, hs.votes, hs.flag⟩, final_blocks_congr rfl rfl⟩
  · rw [he]
    refine ⟨?_, final_blocks_congr rfl rfl⟩
    refine hs.set_round rfl (fun h => e.set_round_round _ h _) ?_ rfl
    intro _
    exact ⟨by simp, by simp⟩

theorem commit_stocked (hs : Stocked e) (hlt : e.height < e.height + 1) (b : Block) :
    Stocked (e.commit b) := by
  refine ⟨?_, ?_, ?_⟩
  · intro h hh hp
    rw [e.commit_round_of_lt b hh] at hp ⊢
    exact hs.block (UInt64.lt_trans hlt hh) hp
  · intro h hh hp
    rw [e.commit_round_of_lt b hh] at hp ⊢
    exact hs.votes (UInt64.lt_trans hlt hh) hp
  · intro h hh
    rw [e.commit_round_of_lt b hh]
    exact hs.flag (UInt64.lt_trans hlt hh)

/-! ## What one call finalizes -/

omit [Crates] in
/-- The next height and the one after it have a quorum. -/
def TwoQuorums (e : BftConsensus B) : Prop :=
  e.height.toNat + 2 < 2 ^ 64 ∧ e.has_quorum (e.height + 1) = true ∧
    e.has_quorum (e.height + 2) = true

instance (e : BftConsensus B) : Decidable e.TwoQuorums := inferInstanceAs (Decidable (_ ∧ _ ∧ _))

omit [Crates] in
/-- A quorum is a quorum for a proposal. -/
theorem Stocked.due_iff (hs : Stocked e) :
    e.Due ↔ e.height.toNat + 1 < 2 ^ 64 ∧ e.has_quorum (e.height + 1) = true := by
  have hmax := e.height.toNat_lt
  have hlt : e.height < e.height + 1 ↔ e.height.toNat + 1 < 2 ^ 64 := by
    rw [UInt64.lt_iff_toNat_lt, UInt64.toNat_add, UInt64.toNat_one]
    omega
  unfold Due
  rw [hlt]
  constructor
  · rintro ⟨h, -, hq⟩
    exact ⟨h, hq⟩
  · rintro ⟨h, hq⟩
    refine ⟨h, ?_, hq⟩
    intro hnone
    rw [has_quorum_iff, e.vote_power_of_no_votes (hs.votes (hlt.mpr h) hnone)] at hq
    exact absurd (quorum_threshold_pos e.validator_set) (UInt64.not_lt.mpr hq)

/-- After the next height is finalized, the one after it is due. -/
theorem Stocked.twoQuorums_iff (hs : Stocked e) (hdue : e.Due) (b : Block) :
    e.TwoQuorums ↔ (e.commit b).Due := by
  have hheight : (e.commit b).height = e.height + 1 := rfl
  have htwo : e.height + 2 = e.height + 1 + 1 := by
    rw [UInt64.add_assoc]
    rfl
  have hq := (hs.due_iff.mp hdue).2
  rw [(commit_stocked hs hdue.1 b).due_iff, commit_has_quorum, hheight, toNat_next hdue.1]
  unfold TwoQuorums
  rw [hq, htwo]
  simp only [true_and]

omit [Crates] in
/-- From `e` the loop finalizes the blocks and returns the last of them, or `found` if there
are none. -/
structure Finalizes (e : BftConsensus B) (found : Option Block) (blocks : List Block)
    (out : Option Block × BftConsensus B) : Prop where
  last : out.1 = blocks.getLast?.or found
  log : out.2.final_blocks = e.final_blocks ++ blocks.map some
  stocked : out.2.Stocked
  one : 1 ≤ blocks.length ↔ e.Due
  two : 2 ≤ blocks.length ↔ e.TwoQuorums

omit [Crates] in
theorem finalizes_nothing (hs : Stocked e) (hdue : ¬ e.Due) (found : Option Block) :
    Finalizes e found [] (found, e) := by
  refine ⟨rfl, (List.append_nil _).symm, hs, ?_, ?_⟩
  · simp [hdue]
  · rw [hs.due_iff] at hdue
    refine iff_of_false (by simp) ?_
    rintro ⟨hfits, hq, -⟩
    exact hdue ⟨by omega, hq⟩

theorem Finalizes.cons (hs : Stocked e) (hdue : e.Due) {b : Block} {blocks : List Block}
    {out : Option Block × BftConsensus B} (h : Finalizes (e.commit b) (some b) blocks out)
    (found : Option Block) : Finalizes e found (b :: blocks) out := by
  refine ⟨?_, ?_, h.stocked, ?_, ?_⟩
  · rw [h.last]
    cases blocks with
    | nil => rfl
    | cons c cs => simp [List.getLast?_cons]
  · rw [h.log, final_blocks_commit hdue.1 b]
    simp
  · simp [hdue]
  · rw [hs.twoQuorums_iff hdue b, ← h.one]
    simp

theorem finalize_candidates_finalizes (now : UInt64) (heights : List UInt64)
    (found : Option Block) (hs : Stocked e) (hqueued : e.Queued heights) :
    ∃ blocks, Finalizes e found blocks (finalize_candidates now heights found e) := by
  induction heights generalizing e found with
  | nil =>
    refine ⟨[], finalizes_nothing hs ?_ found⟩
    intro hdue
    obtain ⟨rest, hrest⟩ := hqueued.first hdue
    cases hrest
  | cons h rest ih =>
    rcases e.finalize_candidates_cases hqueued hs.block hs.flag found now with
      ⟨hdue, he⟩ | ⟨b, rest', hdue, hheights, hrest, he⟩
    · rw [he]
      exact ⟨[], finalizes_nothing hs hdue found⟩
    · cases hheights
      obtain ⟨blocks, hblocks⟩ := ih (some b) (commit_stocked hs hdue.1 b) hrest
      rw [he]
      exact ⟨b :: blocks, hblocks.cons hs hdue found⟩

/-- One call of `finalize_pending`. -/
theorem finalize_pending_finalizes (hs : Stocked e) (now : UInt64) :
    ∃ blocks, Finalizes e none blocks (e.finalize_pending now) :=
  finalize_candidates_finalizes now _ none hs e.candidates_queued

end BftConsensus

/-! ## A node and its stream -/

/-- The last entry alone is the list exactly when there is no second one. -/
theorem toList_getLast?_eq_iff {α : Type} (l : List α) :
    l.getLast?.toList = l ↔ ¬ 2 ≤ l.length := by
  match l with
  | [] => simp
  | [a] => simp
  | a :: b :: l =>
    refine iff_of_false ?_ (by simp)
    intro h
    have hlength := congrArg List.length h
    rw [List.getLast?_eq_some_getLast (by simp)] at hlength
    simp at hlength

/-- A step of a node: a piece of the production loop, a message for the event loop, or a piece
of the event loop. -/
inductive NodeStep where
  | produce (peer_count : Nat) (now : UInt64)
  | receive (now : UInt64) (message : Message)
  | react (now : UInt64)
  deriving DecidableEq

/-- What the node has sent on `finalized_tx` is its finalized log. -/
def ValidatorNode.Reports (n : ValidatorNode B) : Prop :=
  n.finalized_tx.map some = n.consensus.final_blocks

instance (n : ValidatorNode B) : Decidable n.Reports := inferInstanceAs (Decidable (_ = _))

namespace NodeStep

variable [Crates] [VoteFormat] [StateBackend B]

/-- The event loop takes a message when it waits for one. -/
def apply (n : ValidatorNode B) : NodeStep → ValidatorNode B
  | .produce peer_count now => (n.produce peer_count now).2
  | .receive now message => if n.receiving = .next_event then n.receive now message else n
  | .react now => (n.react now).2

/-- The engine on which the step calls `finalize_pending`, if it does. -/
def finalizing (n : ValidatorNode B) : NodeStep → Option (BftConsensus B)
  | .produce _ _ => if n.producing = .finalize then some n.consensus else none
  | .receive _ (.Vote bytes) =>
    if n.receiving = .next_event then
      (decode bytes).map fun vote => (n.consensus.handle_vote vote).2
    else none
  | .receive _ _ => none
  | .react _ => if n.receiving = .finalize then some n.consensus else none

/-- A call of `finalize_pending` does not find two heights with a quorum. -/
def Meets (n : ValidatorNode B) (step : NodeStep) : Prop :=
  ∀ e ∈ step.finalizing n, ¬ e.TwoQuorums

instance (n : ValidatorNode B) (step : NodeStep) : Decidable (step.Meets n) :=
  inferInstanceAs (Decidable (∀ e ∈ step.finalizing n, ¬ e.TwoQuorums))

/-- The node leaves its stream. Its engine stays, takes a block or proposes one. -/
structure Passes (n n' : ValidatorNode B) : Prop where
  stream : n'.finalized_tx = n.finalized_tx
  engine : n'.consensus = n.consensus ∨ (∃ b, n'.consensus = (n.consensus.handle_block b).2) ∨
    ∃ height now, n'.consensus = (n.consensus.propose height [] now).2

/-- The node calls `finalize_pending` on `e`, its engine or its engine after a vote. -/
structure Calls (n n' : ValidatorNode B) (e : BftConsensus B) : Prop where
  engine : e = n.consensus ∨ ∃ v, e = (n.consensus.handle_vote v).2
  call : ∃ now, n'.consensus = (e.finalize_pending now).2 ∧
    n'.finalized_tx = n.finalized_tx ++ (e.finalize_pending now).1.toList

theorem produce_cases (n : ValidatorNode B) (peer_count : Nat) (now : UInt64) :
    (n.producing ≠ .finalize ∧ Passes n (n.produce peer_count now).2) ∨
    (n.producing = .finalize ∧ Calls n (n.produce peer_count now).2 n.consensus) := by
  unfold ValidatorNode.produce
  split
  · rename_i hp
    refine Or.inl ⟨by simp [hp], ?_⟩
    split
    · exact ⟨rfl, Or.inl rfl⟩
    · split
      · exact ⟨rfl, Or.inl rfl⟩
      · exact ⟨rfl, Or.inl rfl⟩
  · rename_i hp
    refine Or.inl ⟨by simp [hp], ?_⟩
    split
    · rename_i he
      exact ⟨rfl, Or.inr (Or.inr ⟨n.height, now, by rw [he]⟩)⟩
    · rename_i he
      exact ⟨rfl, Or.inr (Or.inr ⟨n.height, now, by rw [he]⟩)⟩
  · rename_i hp
    exact Or.inl ⟨by simp [hp], rfl, Or.inl rfl⟩
  · rename_i hp
    exact Or.inl ⟨by simp [hp], rfl, Or.inl rfl⟩
  · rename_i hp
    exact Or.inr ⟨hp, Or.inl rfl, now, rfl, rfl⟩
  · rename_i hp
    refine Or.inl ⟨by simp [hp], ?_⟩
    split
    · exact ⟨rfl, Or.inl rfl⟩
    · exact ⟨rfl, Or.inl rfl⟩

theorem react_cases (n : ValidatorNode B) (now : UInt64) :
    (n.receiving ≠ .finalize ∧ Passes n (n.react now).2) ∨
    (n.receiving = .finalize ∧ Calls n (n.react now).2 n.consensus) := by
  unfold ValidatorNode.react
  split
  · rename_i hr
    exact Or.inl ⟨by simp [hr], rfl, Or.inl rfl⟩
  · rename_i hr
    exact Or.inl ⟨by simp [hr], rfl, Or.inl rfl⟩
  · rename_i hr
    exact Or.inr ⟨hr, Or.inl rfl, now, rfl, rfl⟩

/-- A step without a call of `finalize_pending`, or with one. -/
theorem apply_cases (n : ValidatorNode B) (step : NodeStep) :
    (step.finalizing n = none ∧ Passes n (step.apply n)) ∨
    ∃ e, step.finalizing n = some e ∧ Calls n (step.apply n) e := by
  cases step with
  | produce peer_count now =>
    simp only [apply, finalizing]
    rcases produce_cases n peer_count now with ⟨hp, h⟩ | ⟨hp, h⟩
    · exact Or.inl ⟨if_neg hp, h⟩
    · exact Or.inr ⟨_, if_pos hp, h⟩
  | react now =>
    simp only [apply, finalizing]
    rcases react_cases n now with ⟨hr, h⟩ | ⟨hr, h⟩
    · exact Or.inl ⟨if_neg hr, h⟩
    · exact Or.inr ⟨_, if_pos hr, h⟩
  | receive now message =>
    by_cases hr : n.receiving = .next_event
    · simp only [apply, if_pos hr]
      cases message with
      | Block b =>
        refine Or.inl ⟨rfl, ?_⟩
        simp only [ValidatorNode.receive]
        split
        · rename_i he
          exact ⟨rfl, Or.inr (Or.inl ⟨b, by rw [he]⟩)⟩
        · rename_i he
          exact ⟨rfl, Or.inr (Or.inl ⟨b, by rw [he]⟩)⟩
      | Vote bytes =>
        simp only [finalizing, if_pos hr, ValidatorNode.receive]
        cases (decode bytes : Option Vote) with
        | none => exact Or.inl ⟨rfl, rfl, Or.inl rfl⟩
        | some vote => exact Or.inr ⟨_, rfl, Or.inr ⟨vote, rfl⟩, now, rfl, rfl⟩
      | _ => exact Or.inl ⟨rfl, rfl, Or.inl rfl⟩
    · refine Or.inl ⟨?_, ?_⟩
      · cases message with
        | Vote bytes => exact if_neg hr
        | _ => rfl
      · simp only [apply, if_neg hr]
        exact ⟨rfl, Or.inl rfl⟩

/-! ## What one step preserves -/

variable {n n' : ValidatorNode B}

omit [VoteFormat] in
theorem Passes.stocked (h : Passes n n') (hs : n.consensus.Stocked) :
    n'.consensus.Stocked ∧ n'.consensus.final_blocks = n.consensus.final_blocks := by
  rcases h.engine with he | ⟨b, he⟩ | ⟨height, now, he⟩
  · rw [he]
    exact ⟨hs, rfl⟩
  · rw [he]
    exact BftConsensus.handle_block_stocked hs b
  · rw [he]
    exact BftConsensus.propose_stocked hs height [] now

omit [VoteFormat] [StateBackend B] in
theorem Calls.stocked {e : BftConsensus B} (h : Calls n n' e) (hs : n.consensus.Stocked) :
    e.Stocked ∧ e.final_blocks = n.consensus.final_blocks := by
  rcases h.engine with he | ⟨v, he⟩
  · rw [he]
    exact ⟨hs, rfl⟩
  · rw [he]
    exact BftConsensus.handle_vote_stocked hs v

omit [VoteFormat] [StateBackend B] in
/-- A call of `finalize_pending` keeps the stream in step with the log exactly when it does not
find two heights with a quorum. -/
theorem Calls.reports_iff {e : BftConsensus B} (h : Calls n n' e) (hs : n.consensus.Stocked)
    (hn : n.Reports) : n'.consensus.Stocked ∧ (n'.Reports ↔ ¬ e.TwoQuorums) := by
  obtain ⟨hstocked, hlog⟩ := h.stocked hs
  obtain ⟨now, hengine, hstream⟩ := h.call
  obtain ⟨blocks, hblocks⟩ := BftConsensus.finalize_pending_finalizes hstocked now
  refine ⟨by rw [hengine]; exact hblocks.stocked, ?_⟩
  unfold ValidatorNode.Reports at hn ⊢
  rw [hengine, hstream, hblocks.log, hblocks.last, hlog, ← hn, Option.or_none, List.map_append,
    List.append_cancel_left_eq, ← hblocks.two, ← toList_getLast?_eq_iff]
  exact (List.map_injective_iff.mpr (Option.some_injective Block)).eq_iff

/-- One step. -/
theorem apply_reports_iff (step : NodeStep) (hs : n.consensus.Stocked) (hn : n.Reports) :
    (step.apply n).consensus.Stocked ∧ ((step.apply n).Reports ↔ step.Meets n) := by
  unfold Meets
  rcases step.apply_cases n with ⟨hnone, h⟩ | ⟨e, hsome, h⟩
  · obtain ⟨hstocked, hlog⟩ := h.stocked hs
    refine ⟨hstocked, iff_of_true ?_ ?_⟩
    · unfold ValidatorNode.Reports at hn ⊢
      rw [h.stream, hlog, hn]
    · rw [hnone]
      simp
  · rw [hsome]
    simp only [Option.mem_def, Option.some.injEq, forall_eq']
    exact h.reports_iff hs hn

end NodeStep

/-! ## Runs -/

section Runs

variable [Crates] [VoteFormat] [StateBackend B]

/-- The stream is the finalized log at every point of the run. -/
def ReportsThroughout (n : ValidatorNode B) : List NodeStep → Prop
  | [] => n.Reports
  | step :: steps => n.Reports ∧ ReportsThroughout (step.apply n) steps

/-- No call of `finalize_pending` in the run finds two heights with a quorum. -/
def NodeRunMeets (n : ValidatorNode B) : List NodeStep → Prop
  | [] => True
  | step :: steps => step.Meets n ∧ NodeRunMeets (step.apply n) steps

theorem ReportsThroughout.at_the_end {n : ValidatorNode B} {steps : List NodeStep}
    (h : ReportsThroughout n steps) : (steps.foldl NodeStep.apply n).Reports := by
  induction steps generalizing n with
  | nil => exact h
  | cons step steps ih => exact ih h.2

theorem reportsThroughout_iff {n : ValidatorNode B} (steps : List NodeStep)
    (hs : n.consensus.Stocked) (hn : n.Reports) :
    ReportsThroughout n steps ↔ NodeRunMeets n steps := by
  induction steps generalizing n with
  | nil => exact iff_of_true hn trivial
  | cons step steps ih =>
    obtain ⟨hstocked, hstep⟩ := step.apply_reports_iff hs hn
    unfold ReportsThroughout NodeRunMeets
    constructor
    · rintro ⟨-, hrest⟩
      have hnext : (step.apply n).Reports := by
        cases steps with
        | nil => exact hrest
        | cons step' steps => exact hrest.1
      exact ⟨hstep.mp hnext, (ih hstocked hnext).mp hrest⟩
    · rintro ⟨hmeets, hrest⟩
      exact ⟨hn, (ih hstocked (hstep.mpr hmeets)).mpr hrest⟩

/-- In every run of a new node, the stream of finalized blocks is the finalized log at every
point if and only if no call of `finalize_pending` finds two heights with a quorum. -/
theorem stream_is_the_log_iff (local_address : Address) (set : ValidatorSet)
    (state : StateStore B) (genesis : Hash) (steps : List NodeStep) :
    ReportsThroughout (.new (.new_with_store local_address set state genesis)) steps ↔
      NodeRunMeets (.new (.new_with_store local_address set state genesis)) steps :=
  reportsThroughout_iff steps (BftConsensus.new_stocked local_address set state genesis) rfl

end Runs

end Pemrix

/-! ## Votes that come late -/

namespace Pemrix.Concrete

/-- A block of height 2 on the first one. -/
def second : Block := empty_block 2 20 first.hash (addr 3)

def take_vote (b : Block) (voter : Address) : NodeStep :=
  .receive 30 (.Vote (encode (vote_for b voter)))

/-- The node takes both blocks, then the votes for height 2, then the votes for height 1. -/
def late_votes : List NodeStep :=
  [.receive 30 (.Block first), .react 30, .react 30, .receive 30 (.Block second), .react 30,
    .react 30, take_vote second (addr 2), take_vote second (addr 3), take_vote first (addr 2),
    take_vote first (addr 3)]

/-- The last vote finalizes both heights, and only the second block goes out. -/
theorem first_block_is_not_reported :
    let n := late_votes.foldl NodeStep.apply (.new (engine four (addr 1)))
    n.consensus.final_blocks = [some first, some second] ∧ n.finalized_tx = [second] ∧
      ¬ ReportsThroughout (.new (engine four (addr 1))) late_votes := by
  intro n
  have hend : n.consensus.final_blocks = [some first, some second] ∧ n.finalized_tx = [second] := by
    decide +kernel
  obtain ⟨hlog, hstream⟩ := hend
  refine ⟨hlog, hstream, ?_⟩
  intro h
  have hreports : n.finalized_tx.map some = n.consensus.final_blocks := h.at_the_end
  rw [hlog, hstream] at hreports
  exact absurd (congrArg List.length hreports) (by simp)

end Pemrix.Concrete
