-- Proposals that fail. Both engines execute the transactions of a proposal one by one
-- on the live store and stop at the first error, so what was executed up to there
-- stays. A failed proposal leaves no trace exactly when none of that was charged.
import Pemrix.Residue
import Pemrix.BftSteps
import Pemrix.Solo

open Std

namespace Pemrix

variable {B : Type} [StateBackend B] [Crates]

/-! ## The loop over the transactions -/

theorem execute_all_eq (s : StateStore B) (txs : List Transaction) :
    BftConsensus.execute_all s txs = Exits.untilError BlockExecutor.execute s txs := by
  induction txs generalizing s with
  | nil => rfl
  | cons tx txs ih =>
    unfold BftConsensus.execute_all Exits.untilError
    rcases BlockExecutor.execute s tx with ⟨e | r, s'⟩
    · rfl
    · exact ih s'

theorem after_eq (s : StateStore B) (txs : List Transaction) :
    Exits.after BlockExecutor.execute s txs = runTransactions s txs := by
  induction txs generalizing s with
  | nil => rfl
  | cons tx txs ih => exact ih _

/-- The call ends in an error: the signature is bad, the sender's account cannot be read, or the
handler refuses after the charge. -/
def StateStore.Fails (s : StateStore B) (tx : Transaction) : Prop :=
  BlockExecutor.verify_signature tx ≠ .ok () ∨ (∃ e, s.get_account tx.sender = .error e) ∨
    s.Charges tx ∧ ¬ s.Accepts tx

/-- If a transaction of the list is the first to fail, then neither it nor one before it is
charged. -/
def FailsUncharged (s : StateStore B) (txs : List Transaction) : Prop :=
  ∀ i tx, txs[i]? = some tx → (storeAt s txs i).Fails tx →
    (∀ j tx', j < i → txs[j]? = some tx' → ¬ (storeAt s txs j).Fails tx') →
    ∀ j tx', j ≤ i → txs[j]? = some tx' → ¬ (storeAt s txs j).Charges tx'

section Loop

variable [LawfulStore B] {s : StateStore B} {txs : List Transaction}

theorem execute_error_iff (s : StateStore B) (tx : Transaction) :
    (∃ e, (BlockExecutor.execute s tx).1 = .error e) ↔ s.Fails tx := by
  have hends := execute_ends s tx
  have haccepts : s.Charges tx →
      ((∃ v, (BlockExecutor.execute s tx).1 = .ok v) ↔ s.Accepts tx) := execute_ok_iff
  unfold StateStore.Fails
  generalize (BlockExecutor.execute s tx).1 = r, (BlockExecutor.execute s tx).2 = s'
    at hends haccepts ⊢
  cases hends with
  | unsigned hverify => simp [hverify]
  | unread hread => simp [hread]
  | uncharged hverify hread hcharges => simp [hverify, hread, hcharges]
  | charged hcharges hread hends =>
    rw [← haccepts hcharges, hread, hcharges.1]
    rcases r with e | v
    · simp [hcharges]
    · simp

theorem failsAt_iff (i : Nat) :
    Exits.FailsAt BlockExecutor.execute s txs i ↔
      ∃ tx, txs[i]? = some tx ∧ (storeAt s txs i).Fails tx := by
  unfold Exits.FailsAt
  simp only [after_eq, ← execute_error_iff, exists_and_left]
  exact Iff.rfl

omit [LawfulStore B] in
/-- Transactions that are not charged leave the store. -/
theorem storeAt_of_not_charges {i : Nat}
    (h : ∀ j tx, j < i → txs[j]? = some tx → ¬ (storeAt s txs j).Charges tx) :
    storeAt s txs i = s := by
  induction i with
  | zero => rfl
  | succ i ih =>
    have hi := ih fun j tx hj => h j tx (Nat.lt_succ_of_lt hj)
    rcases htx : txs[i]? with _ | tx
    · rw [storeAt_of_none htx, hi]
    · rw [storeAt_succ htx, execute_of_not_charges (h i tx (Nat.lt_succ_self i) htx), hi]

/-- Each transaction advances a nonce by one at most. -/
theorem nonce_runTransactions {a : Address} {n : Nonce} (hn : s.nonce a = .ok n) :
    ∃ c ≤ txs.length, (runTransactions s txs).nonce a = .ok (n + UInt64.ofNat c) := by
  induction txs generalizing s n with
  | nil =>
    refine ⟨0, Nat.le_refl 0, hn.trans (congrArg _ ?_)⟩
    exact (UInt64.add_zero n).symm
  | cons tx txs ih =>
    by_cases hcharges : s.Charges tx ∧ tx.sender = a
    · obtain ⟨hcharges, rfl⟩ := hcharges
      have hnext := nonce_execute_of_charges hcharges tx.sender
      rw [if_pos rfl] at hnext
      obtain ⟨c, hc, hrun⟩ := ih hnext
      refine ⟨c + 1, Nat.succ_le_succ hc, hrun.trans (congrArg _ ?_)⟩
      rw [Except.ok.inj (hcharges.2.1.symm.trans hn), UInt64.ofNat_add, UInt64.add_assoc,
        UInt64.add_comm 1]
      rfl
    · have hnext : (BlockExecutor.execute s tx).2.nonce a = .ok n := by
        by_cases hc : s.Charges tx
        · rw [nonce_execute_of_charges hc, if_neg fun ha => hcharges ⟨hc, ha⟩, hn]
        · rw [execute_of_not_charges hc, hn]
      obtain ⟨c, hc, hrun⟩ := ih hnext
      exact ⟨c, Nat.le_succ_of_le hc, hrun⟩

omit [LawfulStore B] in
/-- A run goes on from any place. -/
theorem storeAt_eq_run {m n : Nat} (h : m ≤ n) :
    storeAt s txs n = runTransactions (storeAt s txs m) ((txs.take n).drop m) := by
  have hsplit := runTransactions_append s ((txs.take n).take m) ((txs.take n).drop m)
  rw [List.take_append_drop, List.take_take, Nat.min_eq_left h] at hsplit
  exact hsplit

/-- A charge among fewer than `2 ^ 64` transactions leaves a nonce that is not the old one. -/
theorem not_sameState_of_charges {i j : Nat} {tx : Transaction} (hlen : txs.length < 2 ^ 64)
    (hj : j ≤ i) (htx : txs[j]? = some tx) (hcharges : (storeAt s txs j).Charges tx) :
    ¬ SameState s (storeAt s txs (i + 1)) := by
  classical
  have hex : ∃ m tx, txs[m]? = some tx ∧ (storeAt s txs m).Charges tx := ⟨j, tx, htx, hcharges⟩
  -- The first charge is on the store itself, and its nonce is the one that moves.
  have hmj : Nat.find hex ≤ j := Nat.find_min' hex ⟨tx, htx, hcharges⟩
  obtain ⟨first, hfirst, hcharges⟩ := Nat.find_spec hex
  have hmin := fun k (hk : k < Nat.find hex) => Nat.find_min hex hk
  generalize Nat.find hex = m at hmj hfirst hcharges hmin
  have hstart : storeAt s txs m = s :=
    storeAt_of_not_charges fun k tx' hk htx' hc => hmin k hk ⟨tx', htx', hc⟩
  rw [hstart] at hcharges
  have hnext : (storeAt s txs (m + 1)).nonce first.sender = .ok (first.nonce + 1) := by
    rw [storeAt_succ hfirst, hstart, nonce_execute_of_charges hcharges, if_pos rfl]
  obtain ⟨c, hc, hlast⟩ : ∃ c ≤ ((txs.take (i + 1)).drop (m + 1)).length,
      (runTransactions (storeAt s txs (m + 1)) ((txs.take (i + 1)).drop (m + 1))).nonce
        first.sender = .ok (first.nonce + 1 + UInt64.ofNat c) := nonce_runTransactions hnext
  rw [← storeAt_eq_run (by omega)] at hlast
  intro hsame
  have hnonce := hsame.nonce first.sender
  rw [hlast, hcharges.2.1] at hnonce
  have hm : m < txs.length := (List.getElem?_eq_some_iff.mp hfirst).1
  have hbound : c + 1 < 2 ^ 64 := by
    rw [List.length_drop, List.length_take] at hc
    omega
  have hsum := congrArg UInt64.toNat (Except.ok.inj hnonce)
  have hlt := first.nonce.toNat_lt
  rw [UInt64.toNat_add, UInt64.toNat_add, UInt64.toNat_one, UInt64.toNat_ofNat'] at hsum
  omega

/-- The loop ends in an error and leaves no trace, or it leaves what it charged. -/
theorem execute_all_keeps_iff (hlen : txs.length < 2 ^ 64) :
    (∀ e, (BftConsensus.execute_all s txs).1 = .error e →
        SameState s (BftConsensus.execute_all s txs).2) ↔ FailsUncharged s txs := by
  rw [execute_all_eq]
  rcases Exits.untilError_cases BlockExecutor.execute s txs with
    ⟨hall, hnone⟩ | ⟨i, e, hall, hfails, hfirst⟩
  · rw [hall]
    refine iff_of_true (fun e he => nomatch he) ?_
    intro i tx htx hfails
    exact absurd ((failsAt_iff i).mpr ⟨tx, htx, hfails⟩) (hnone i)
  · rw [hall]
    obtain ⟨tx, htx, hfails⟩ := (failsAt_iff i).mp hfails
    have hbefore : ∀ j tx', j < i → txs[j]? = some tx' → ¬ (storeAt s txs j).Fails tx' :=
      fun j tx' hj htx' h => hfirst j hj ((failsAt_iff j).mpr ⟨tx', htx', h⟩)
    have hafter : Exits.after BlockExecutor.execute s (txs.take (i + 1)) = storeAt s txs (i + 1) :=
      after_eq s _
    rw [hafter]
    constructor
    · intro hsame i' tx' htx' hfails' hfirst' j tx'' hj htx'' hcharges
      -- There is one first failure only.
      obtain rfl : i' = i := by
        rcases Nat.lt_trichotomy i' i with hlt | heq | hgt
        · exact absurd hfails' (hbefore i' tx' hlt htx')
        · exact heq
        · exact absurd hfails (hfirst' i tx hgt htx)
      exact not_sameState_of_charges hlen hj htx'' hcharges (hsame e rfl)
    · intro huncharged _ _
      rw [storeAt_of_not_charges fun j tx' hj =>
        huncharged i tx htx hfails hbefore j tx' (Nat.lt_succ_iff.mp hj)]
      exact sameState_refl s

end Loop

/-! ## The engines -/

namespace BftConsensus

/-- Nothing of the engine has changed. -/
structure SameEngine (e e' : BftConsensus B) : Prop where
  state : SameState e.state e'.state
  validator_set : e'.validator_set = e.validator_set
  rounds : e'.rounds = e.rounds
  height : e'.height = e.height
  previous_hash : e'.previous_hash = e.previous_hash
  finalized : e'.finalized = e.finalized
  voted_this_height : e'.voted_this_height = e.voted_this_height

variable [LawfulStore B]

theorem propose_keeps_iff (e : BftConsensus B) (height : UInt64) {txs : List Transaction}
    (now : UInt64) (hlen : txs.length < 2 ^ 64) :
    (∀ err, (e.propose height txs now).1 = .error err →
        e.SameEngine (e.propose height txs now).2) ↔
      (e.validator_set.proposer height 0 = some e.local_address →
        FailsUncharged e.state txs) := by
  have hloop := execute_all_keeps_iff (s := e.state) hlen
  rcases e.propose_cases height txs now with
    ⟨hproposer, hcall⟩ | ⟨hproposer, ⟨err, set, hreason, hcall⟩ | ⟨root, hok, -, hcall⟩⟩
  · rw [hcall]
    refine iff_of_true (fun _ _ => ?_) fun h => absurd h hproposer
    exact ⟨sameState_refl _, rfl, rfl, rfl, rfl, rfl, rfl⟩
  · rcases hreason with ⟨⟨failure, hfailure⟩, rfl⟩ | ⟨⟨failure, hfailure⟩, -⟩
    · rw [hcall, ← hloop, hfailure]
      constructor
      · exact fun h _ _ _ => (h err rfl).state
      · exact fun h _ _ => ⟨h hproposer failure rfl, rfl, rfl, rfl, rfl, rfl, rfl⟩
    · -- The state root of a lawful store can always be computed.
      obtain ⟨root, hroot⟩ := LawfulStore.state_root_ok (execute_all e.state txs).2.backend
      cases hfailure.symm.trans hroot
  · rw [hcall, ← hloop, hok]
    exact iff_of_true (fun _ h => nomatch h) fun _ _ h => nomatch h

end BftConsensus

namespace SoloConsensus

structure SameEngine (c c' : SoloConsensus) : Prop where
  state : SameState c.state c'.state
  height : c'.height = c.height
  previous_hash : c'.previous_hash = c.previous_hash

theorem propose_keeps_iff (c : SoloConsensus) (height : UInt64) {txs : List Transaction}
    (now : UInt64) (hlen : txs.length < 2 ^ 64) :
    (∀ err, (c.propose height txs now).1 = .error err →
        c.SameEngine (c.propose height txs now).2) ↔ FailsUncharged c.state txs := by
  rw [← execute_all_keeps_iff hlen]
  unfold propose
  rcases BftConsensus.execute_all c.state txs with ⟨e | u, s'⟩
  · constructor
    · exact fun h _ _ => (h _ rfl).state
    · exact fun h _ _ => ⟨h e rfl, rfl, rfl⟩
  · obtain ⟨root, hroot⟩ : ∃ root, s'.state_root = .ok root :=
      LawfulStore.state_root_ok s'.backend
    dsimp only
    rw [hroot]
    exact iff_of_true (fun _ h => nomatch h) fun _ h => nomatch h

end SoloConsensus

variable [LawfulStore B]

/-- A proposal that fails leaves the whole engine as it was if and only if the engine is not the
proposer or no transaction up to the first that fails is charged. -/
theorem failed_proposal_leaves_no_trace_iff (e : BftConsensus B) (c : SoloConsensus)
    (height : UInt64) (txs : List Transaction) (now : UInt64) (hlen : txs.length < 2 ^ 64) :
    ((∀ err, (e.propose height txs now).1 = .error err →
        e.SameEngine (e.propose height txs now).2) ↔
      (e.validator_set.proposer height 0 = some e.local_address →
        FailsUncharged e.state txs)) ∧
    ((∀ err, (c.propose height txs now).1 = .error err →
        c.SameEngine (c.propose height txs now).2) ↔ FailsUncharged c.state txs) :=
  ⟨e.propose_keeps_iff height now hlen, c.propose_keeps_iff height now hlen⟩

end Pemrix

namespace Pemrix.Concrete

/-- An engine that is its only validator, with the payer in its store. -/
def paying_engine : BftConsensus InMemoryBackend :=
  .new_with_store (addr 1) (.from_validators [⟨addr 1, 1⟩]) ⟨⟨paying, ∅⟩⟩ default

def paying_solo : SoloConsensus := .with_allocations (addr 7) default paying

/-- A proposal of the tampered transfer fails in both engines before anything is charged. -/
theorem proposed_tampered_leaves_no_trace :
    (∃ err, (paying_engine.propose 1 [tampered] 0).1 = .error err ∧
      paying_engine.SameEngine (paying_engine.propose 1 [tampered] 0).2) ∧
    ∃ err, (paying_solo.propose 1 [tampered] 0).1 = .error err ∧
      paying_solo.SameEngine (paying_solo.propose 1 [tampered] 0).2 := by
  have hbft : (paying_engine.propose 1 [tampered] 0).1 =
      .error (.ExecutionFailed "invalid signature") := by decide +kernel
  have hsolo : (paying_solo.propose 1 [tampered] 0).1 =
      .error (.ExecutionFailed "invalid signature") := by decide +kernel
  have huncharged : ∀ s : StateStore InMemoryBackend, FailsUncharged s [tampered] := by
    intro s i tx _ _ _ j tx' _ htx' hcharges
    cases List.mem_singleton.mp (List.mem_of_getElem? htx')
    exact absurd hcharges.1 (by decide +kernel)
  have hiff := failed_proposal_leaves_no_trace_iff paying_engine paying_solo 1 [tampered] 0
    (by decide)
  exact ⟨⟨_, hbft, hiff.1.mpr (fun _ => huncharged _) _ hbft⟩,
    _, hsolo, hiff.2.mpr (huncharged _) _ hsolo⟩

end Pemrix.Concrete

namespace Pemrix.SmallStake

open Concrete (payer paying_engine paying_solo)

/-- A proposal of the refused registration fails in both engines, and the payer has paid. -/
theorem failed_proposal_pays_a_fee :
    (∃ err, (paying_engine.propose 1 [register] 0).1 = .error err ∧
      paying_engine.state.get_account payer = .ok (some ⟨100, 0⟩) ∧
      (paying_engine.propose 1 [register] 0).2.state.get_account payer = .ok (some ⟨99, 1⟩) ∧
      ¬ paying_engine.SameEngine (paying_engine.propose 1 [register] 0).2) ∧
    ∃ err, (paying_solo.propose 1 [register] 0).1 = .error err ∧
      (paying_solo.propose 1 [register] 0).2.state.get_account payer = .ok (some ⟨99, 1⟩) ∧
      ¬ paying_solo.SameEngine (paying_solo.propose 1 [register] 0).2 := by
  have hbefore : paying_engine.state.get_account payer = .ok (some ⟨100, 0⟩) := by decide +kernel
  have hbft : (paying_engine.propose 1 [register] 0).2.state.get_account payer =
      .ok (some ⟨99, 1⟩) := by decide +kernel
  have hsolo : (paying_solo.propose 1 [register] 0).2.state.get_account payer =
      .ok (some ⟨99, 1⟩) := by decide +kernel
  refine ⟨⟨.ExecutionFailed "insufficient balance", by decide +kernel, hbefore, hbft, ?_⟩,
    .ExecutionFailed "insufficient balance", by decide +kernel, hsolo, ?_⟩
  · intro hsame
    have haccount := hsame.state.accounts payer
    rw [hbefore, hbft] at haccount
    cases haccount
  · intro hsame
    have haccount := hsame.state.accounts payer
    rw [hsolo, show paying_solo.state.get_account payer = .ok (some ⟨100, 0⟩) from hbefore]
      at haccount
    cases haccount

end Pemrix.SmallStake
