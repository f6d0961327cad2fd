-- What a call of `finalize` returns and what it leaves. It compares the hash with
-- the proposal of the round and returns the block of the round, and it marks the
-- round before it knows that there is a block.
import Pemrix.BftSteps

open Std

namespace Pemrix

variable {B : Type} [StateBackend B] [Crates]

namespace BftConsensus

variable {e : BftConsensus B}

/-! ## What is asked of a call -/

/-- A `finalize` that succeeds returns the block with the hash, and the log has this block at
the height of the block. -/
def ReturnsAsked (e : BftConsensus B) (hash : Hash) : Prop :=
  ∀ now f, (e.finalize hash now).1 = .ok f →
    f.block.hash = hash ∧ (e.finalize hash now).2.finalized[f.block.header.height]? = some f.block

/-- A `finalize` that succeeds goes up by one height to a block of the log, and one that fails
leaves the engine as it was. -/
def AdvancesOrNothing (e : BftConsensus B) (hash : Hash) (now : UInt64) : Prop :=
  let e' := (e.finalize hash now).2
  ((∃ f, (e.finalize hash now).1 = .ok f) →
      e'.height.toNat = e.height.toNat + 1 ∧
        ∃ b, e'.finalized[e'.height]? = some b ∧ e'.previous_hash = b.hash) ∧
    ((∃ err, (e.finalize hash now).1 = .error err) → e' = e)

/-- The next height has a proposal for the hash and a quorum. -/
def Asked (e : BftConsensus B) (hash : Hash) : Prop :=
  (e.round (e.height + 1)).proposal.map (·.block_hash) = some hash ∧ e.has_quorum (e.height + 1)

/-- The block of the next height, if it has a proposal and a quorum too, is the one of the
proposal, and a round that is marked already has its block in the log. -/
def Matched (e : BftConsensus B) : Prop :=
  ∀ p b, (e.round (e.height + 1)).proposal = some p → (e.round (e.height + 1)).block = some b →
    e.has_quorum (e.height + 1) →
      b.hash = p.block_hash ∧
        ((e.round (e.height + 1)).finalized → e.finalized[e.height + 1]? = some b)

/-- Where the next height is asked for, its round is marked if it has no block and only then,
and there is a height left. -/
def Settled (e : BftConsensus B) (hash : Hash) : Prop :=
  e.Asked hash →
    ((e.round (e.height + 1)).finalized = true ↔ (e.round (e.height + 1)).block = none) ∧
      ((e.round (e.height + 1)).block ≠ none → e.height < e.height + 1)

/-! ## The checks that the methods leave out -/

/-- The heights from the next one up to `h` have a proposal and a quorum. -/
def DueTo (e : BftConsensus B) (h : UInt64) : Prop :=
  ∀ k, e.height < k → k ≤ h → (e.round k).proposal ≠ none ∧ e.has_quorum k

/-- No height is finalized before its block is there, and height 0 is not proposed. -/
def Prompt (e : BftConsensus B) : EngineCall → Prop
  | .propose height _ _ => e.validator_set.proposer height 0 = some e.local_address → 0 < height
  | .finalize hash _ => e.Asked hash → (e.round (e.height + 1)).block ≠ none
  | .finalize_pending _ => ∀ h, e.height < h → e.DueTo h → (e.round h).block ≠ none
  | _ => True

/-- A proposal that is taken in is for the block that its round holds, if it holds one. -/
def OneBlock (e : BftConsensus B) : EngineCall → Prop
  | .handle_proposal p => e.validate_proposal p = .ok () →
      ∀ b, (e.round p.height).block = some b → b.hash = p.block_hash
  | _ => True

/-! ## The rounds after a call -/

omit [StateBackend B] in
/-- `finalize` changes no proposal and no block. -/
theorem finalize_round (hash : Hash) (now : UInt64) (h : UInt64) :
    ((e.finalize hash now).2.round h).proposal = (e.round h).proposal ∧
      ((e.finalize hash now).2.round h).block = (e.round h).block := by
  rcases e.finalize_cases hash now with he | ⟨-, -, he⟩ | ⟨b, p, -, -, -, -, -, he⟩
  · rw [he]
    exact ⟨rfl, rfl⟩
  · rw [he]
    exact ⟨e.mark_proposal h, e.mark_block h⟩
  · rw [he]
    exact ⟨e.mark_proposal h, e.mark_block h⟩

omit [StateBackend B] in
theorem finalize_pending_round (now : UInt64) (h : UInt64) :
    ((e.finalize_pending now).2.round h).proposal = (e.round h).proposal ∧
      ((e.finalize_pending now).2.round h).block = (e.round h).block := by
  refine e.finalize_pending_preserves
    (P := fun e' => (e'.round h).proposal = (e.round h).proposal ∧
      (e'.round h).block = (e.round h).block) ?_ now ⟨rfl, rfl⟩
  rintro e' hash now ⟨hp, hb⟩
  obtain ⟨hp', hb'⟩ := finalize_round (e := e') hash now h
  exact ⟨hp'.trans hp, hb'.trans hb⟩

/-- What a call leaves as the proposal and the block of a round: the old ones, a block with its
own proposal, or another proposal. -/
theorem apply_round (e : BftConsensus B) (c : EngineCall) (h : UInt64) :
    (((c.apply e).round h).proposal = (e.round h).proposal ∧
      ((c.apply e).round h).block = (e.round h).block) ∨
    (∃ p b, ((c.apply e).round h).proposal = some p ∧ ((c.apply e).round h).block = some b ∧
      p.block_hash = b.hash ∧ b.header.height = h ∧ (e.Prompt c → 0 < h)) ∨
    ∃ p, c = .handle_proposal p ∧ e.validate_proposal p = .ok () ∧ p.height = h ∧ 0 < h ∧
      ((c.apply e).round h).proposal = some p ∧
      ((c.apply e).round h).block = (e.round h).block := by
  have hpos : ∀ {k : UInt64}, e.height < k → 0 < k := by
    intro k hk
    exact UInt64.pos_iff_ne_zero.mpr (fun hzero => UInt64.not_lt_zero (hzero ▸ hk))
  cases c with
  | propose height transactions now =>
    rw [EngineCall.apply]
    rcases e.propose_cases height transactions now with
      ⟨-, he⟩ | ⟨hp, ⟨err, set, -, he⟩ | ⟨root, -, -, he⟩⟩
    · rw [he]
      exact Or.inl ⟨rfl, rfl⟩
    · rw [he]
      exact Or.inl ⟨rfl, rfl⟩
    · rw [he]
      dsimp only
      rw [proposed_round]
      by_cases heq : height = h
      · rw [if_pos heq]
        exact Or.inr (Or.inl ⟨_, _, rfl, rfl, rfl, heq, fun hprompt => heq ▸ hprompt hp⟩)
      · rw [if_neg heq]
        exact Or.inl ⟨rfl, rfl⟩
  | handle_block block =>
    rw [EngineCall.apply]
    rcases e.handle_block_cases block with ⟨err, -, he⟩ | ⟨hok, he⟩
    · rw [he]
      exact Or.inl ⟨rfl, rfl⟩
    · rw [he]
      dsimp only
      rw [admitting_round]
      by_cases heq : (Proposal.from_block block).height = h
      · have hlt := ((validate_proposal_ok e).mp hok).1
        rw [if_pos heq]
        exact Or.inr (Or.inl ⟨_, _, rfl, rfl, rfl, heq, fun _ => heq ▸ hpos hlt⟩)
      · rw [if_neg heq]
        exact Or.inl ⟨rfl, rfl⟩
  | handle_proposal p =>
    rw [EngineCall.apply]
    rcases e.handle_proposal_cases p with ⟨err, -, he⟩ | ⟨hok, he⟩
    · rw [he]
      exact Or.inl ⟨rfl, rfl⟩
    · rw [he]
      dsimp only
      rw [admitting_round]
      by_cases heq : p.height = h
      · have hlt := ((validate_proposal_ok e).mp hok).1
        subst heq
        rw [if_pos rfl]
        exact Or.inr (Or.inr ⟨p, rfl, hok, rfl, hpos hlt, rfl, rfl⟩)
      · rw [if_neg heq]
        exact Or.inl ⟨rfl, rfl⟩
  | handle_vote vote =>
    rw [EngineCall.apply]
    rcases e.handle_vote_cases vote with ⟨err, -, he⟩ | ⟨-, he⟩
    · rw [he]
      exact Or.inl ⟨rfl, rfl⟩
    · rw [he]
      exact Or.inl ⟨e.record_vote_proposal vote h, e.record_vote_block vote h⟩
  | finalize block_hash now => exact Or.inl (finalize_round block_hash now h)
  | finalize_pending now => exact Or.inl (finalize_pending_round now h)

/-! ## The block of a round -/

/-- Each block is in the round of its height. -/
def AtHome (e : BftConsensus B) : Prop :=
  ∀ h b, (e.round h).block = some b → b.header.height = h

/-- A round with a proposal and a block has them for the same hash. -/
def Hashed (e : BftConsensus B) : Prop :=
  ∀ h p b, (e.round h).proposal = some p → (e.round h).block = some b → b.hash = p.block_hash

/-- Height 0 has no proposal, and no round above the height is marked. -/
structure Unmarked (e : BftConsensus B) : Prop where
  zero : (e.round 0).proposal = none
  above : ∀ h, e.height < h → (e.round h).finalized = false

omit [StateBackend B] [Crates] in
theorem new_unmarked (local_address : Address) (set : ValidatorSet) (state : StateStore B)
    (genesis : Hash) : (new_with_store local_address set state genesis).Unmarked := by
  have hround := new_round local_address set state genesis
  refine ⟨by rw [hround]; rfl, ?_⟩
  intro h _
  rw [hround]
  rfl

omit [StateBackend B] [Crates] in
theorem new_at_home (local_address : Address) (set : ValidatorSet) (state : StateStore B)
    (genesis : Hash) : (new_with_store local_address set state genesis).AtHome := by
  intro h b hb
  rw [new_round] at hb
  cases hb

omit [StateBackend B] in
theorem new_hashed (local_address : Address) (set : ValidatorSet) (state : StateStore B)
    (genesis : Hash) : (new_with_store local_address set state genesis).Hashed := by
  intro h p b _ hb
  rw [new_round] at hb
  cases hb

theorem AtHome.apply (hhome : e.AtHome) (c : EngineCall) : (c.apply e).AtHome := by
  intro h b hb
  rcases e.apply_round c h with ⟨-, hsame⟩ | ⟨p, b', -, hnew, -, hh, -⟩ | ⟨p, -, -, -, -, -, hsame⟩
  · rw [hsame] at hb
    exact hhome h b hb
  · rw [hnew] at hb
    cases hb
    exact hh
  · rw [hsame] at hb
    exact hhome h b hb

theorem run_at_home (hhome : e.AtHome) (calls : List EngineCall) : (e.run calls).AtHome :=
  run_preserves calls (fun c _ _ h => h.apply c) e hhome

theorem Hashed.apply (hhash : e.Hashed) (c : EngineCall) (hone : e.OneBlock c) :
    (c.apply e).Hashed := by
  intro h p b hp hb
  rcases e.apply_round c h with
    ⟨hsame, hsame'⟩ | ⟨p', b', hnew, hnew', hh, -, -⟩ | ⟨p', rfl, hok, rfl, -, hnew, hsame⟩
  · rw [hsame] at hp
    rw [hsame'] at hb
    exact hhash h p b hp hb
  · rw [hnew] at hp
    rw [hnew'] at hb
    cases hp
    cases hb
    exact hh.symm
  · rw [hnew] at hp
    rw [hsame] at hb
    cases hp
    exact hone hok b hb

/-! ## The marks -/

omit [StateBackend B] [Crates] in
/-- What is asked of an engine without marks is not beyond the last height. -/
theorem Unmarked.lt_of_asked (hu : e.Unmarked) {hash : Hash} (hasked : e.Asked hash) :
    e.height < e.height + 1 := by
  apply e.lt_next
  intro hzero
  have hp := hasked.1
  rw [hzero, hu.zero] at hp
  cases hp

omit [StateBackend B] in
theorem finalize_of_not_asked {hash : Hash} (hasked : ¬ e.Asked hash) (now : UInt64) :
    e.finalize hash now = (.error .InvalidProposal, e) := by
  rw [finalize_eq]
  exact if_neg hasked

omit [StateBackend B] in
/-- With a block: an unmarked round is committed, and nothing else happens in a marked one. -/
theorem finalize_of_block {hash : Hash} (hasked : e.Asked hash) {b : Block}
    (hb : (e.round (e.height + 1)).block = some b) (now : UInt64) :
    e.finalize hash now =
      (.ok ⟨b, now⟩, if (e.round (e.height + 1)).finalized then e else e.commit b) := by
  rw [finalize_eq, hb]
  refine (if_pos hasked).trans ?_
  cases (e.round (e.height + 1)).finalized with
  | false => rfl
  | true => rfl

omit [StateBackend B] in
theorem finalize_of_no_block {hash : Hash} (hasked : e.Asked hash)
    (hb : (e.round (e.height + 1)).block = none) (now : UInt64) :
    e.finalize hash now =
      (.error .InvalidProposal, if (e.round (e.height + 1)).finalized then e else e.mark) := by
  rw [finalize_eq, hb]
  refine (if_pos hasked).trans ?_
  cases (e.round (e.height + 1)).finalized with
  | false => rfl
  | true => rfl

omit [StateBackend B] in
theorem Unmarked.finalize_of_block (hu : e.Unmarked) {hash : Hash} (hasked : e.Asked hash)
    {b : Block} (hb : (e.round (e.height + 1)).block = some b) (now : UInt64) :
    e.finalize hash now = (.ok ⟨b, now⟩, e.commit b) := by
  rw [BftConsensus.finalize_of_block hasked hb, hu.above _ (hu.lt_of_asked hasked)]
  rfl

omit [StateBackend B] in
theorem Unmarked.commit (hu : e.Unmarked) (hlt : e.height < e.height + 1) (b : Block) :
    (e.commit b).Unmarked := by
  refine ⟨?_, ?_⟩
  · rw [commit_mark, mark_proposal]
    exact hu.zero
  · intro h hh
    rw [e.commit_round_of_lt b hh]
    exact hu.above h (UInt64.lt_trans hlt hh)

omit [StateBackend B] in
theorem Unmarked.finalize (hu : e.Unmarked) (hash : Hash) (now : UInt64)
    (hprompt : e.Asked hash → (e.round (e.height + 1)).block ≠ none) :
    (e.finalize hash now).2.Unmarked := by
  by_cases hasked : e.Asked hash
  · obtain ⟨b, hb⟩ := Option.ne_none_iff_exists'.mp (hprompt hasked)
    rw [hu.finalize_of_block hasked hb]
    exact hu.commit (hu.lt_of_asked hasked) b
  · rw [finalize_of_not_asked hasked]
    exact hu

omit [StateBackend B] in
/-- The heights that the loop of `finalize_pending` still goes up to have their blocks. -/
theorem finalize_keeps_due (hu : e.Unmarked)
    (hdue : ∀ h, e.height < h → e.DueTo h → (e.round h).block ≠ none) (hash : Hash)
    (now : UInt64) :
    (e.finalize hash now).2.Unmarked ∧
      ∀ h, (e.finalize hash now).2.height < h → (e.finalize hash now).2.DueTo h →
        ((e.finalize hash now).2.round h).block ≠ none := by
  by_cases hasked : e.Asked hash
  · have hlt := hu.lt_of_asked hasked
    have hp : (e.round (e.height + 1)).proposal ≠ none := by
      intro hnone
      have hp := hasked.1
      rw [hnone] at hp
      cases hp
    have hnext : ∀ k, e.height < k → k ≤ e.height + 1 → k = e.height + 1 := by
      intro k hk hle
      have hadd : (e.height + 1).toNat ≤ e.height.toNat + 1 := by
        rw [UInt64.toNat_add, UInt64.toNat_one]
        exact Nat.mod_le _ _
      rw [UInt64.lt_iff_toNat_lt] at hk hlt
      rw [UInt64.le_iff_toNat_le] at hle
      apply UInt64.toNat_inj.mp
      omega
    have hblock : (e.round (e.height + 1)).block ≠ none := by
      refine hdue _ hlt ?_
      intro k hk hle
      rw [hnext k hk hle]
      exact ⟨hp, hasked.2⟩
    obtain ⟨b, hb⟩ := Option.ne_none_iff_exists'.mp hblock
    rw [hu.finalize_of_block hasked hb]
    refine ⟨hu.commit hlt b, ?_⟩
    intro h hh hto
    rw [e.commit_round_of_lt b hh]
    refine hdue h (UInt64.lt_trans hlt hh) ?_
    intro k hk hle
    by_cases hle' : k ≤ e.height + 1
    · rw [hnext k hk hle']
      exact ⟨hp, hasked.2⟩
    · have hgt : (e.commit b).height < k := UInt64.not_le.mp hle'
      obtain ⟨hp', hq'⟩ := hto k hgt hle
      rw [e.commit_round_of_lt b hgt] at hp'
      rw [commit_has_quorum] at hq'
      exact ⟨hp', hq'⟩
  · rw [finalize_of_not_asked hasked]
    exact ⟨hu, hdue⟩

omit [StateBackend B] [Crates] in
theorem Unmarked.admitting_above (hu : e.Unmarked) (p : Proposal) (block : Option Block) :
    ∀ h, (e.admitting p block).height < h → ((e.admitting p block).round h).finalized = false := by
  intro h hh
  rw [admitting_round]
  split
  · rename_i heq
    subst heq
    exact hu.above p.height hh
  · exact hu.above h hh

/-- What one prompt call preserves. -/
theorem Unmarked.apply (hu : e.Unmarked) (c : EngineCall) (hprompt : e.Prompt c) :
    (c.apply e).Unmarked := by
  refine ⟨?_, ?_⟩
  · rcases e.apply_round c 0 with ⟨hsame, -⟩ | ⟨-, -, -, -, -, -, hpos⟩ | ⟨-, -, -, -, hpos, -⟩
    · rw [hsame]
      exact hu.zero
    · exact absurd (hpos hprompt) UInt64.not_lt_zero
    · exact absurd hpos UInt64.not_lt_zero
  · cases c with
    | propose height transactions now =>
      rw [EngineCall.apply]
      rcases e.propose_cases height transactions now with
        ⟨-, he⟩ | ⟨-, ⟨err, set, -, he⟩ | ⟨root, -, -, he⟩⟩
      · rw [he]
        exact hu.above
      · rw [he]
        exact hu.above
      · rw [he]
        intro h hh
        dsimp only
        rw [proposed_round]
        split
        · rename_i heq
          subst heq
          exact hu.above height hh
        · exact hu.above h hh
    | handle_block block =>
      rw [EngineCall.apply]
      rcases e.handle_block_cases block with ⟨err, -, he⟩ | ⟨-, he⟩
      · rw [he]
        exact hu.above
      · rw [he]
        exact hu.admitting_above _ _
    | handle_proposal p =>
      rw [EngineCall.apply]
      rcases e.handle_proposal_cases p with ⟨err, -, he⟩ | ⟨-, he⟩
      · rw [he]
        exact hu.above
      · rw [he]
        exact hu.admitting_above _ _
    | handle_vote vote =>
      rw [EngineCall.apply]
      rcases e.handle_vote_cases vote with ⟨err, -, he⟩ | ⟨-, he⟩
      · rw [he]
        exact hu.above
      · rw [he]
        intro h hh
        dsimp only
        rw [record_vote_round]
        split
        · exact hu.above h hh
        · exact hu.above h hh
    | finalize hash now => exact (hu.finalize hash now hprompt).above
    | finalize_pending now =>
      rw [EngineCall.apply]
      have hend := e.finalize_pending_preserves
        (P := fun e => e.Unmarked ∧ ∀ h, e.height < h → e.DueTo h → (e.round h).block ≠ none)
        (fun e hash now h => finalize_keeps_due h.1 h.2 hash now) now ⟨hu, hprompt⟩
      exact hend.1.above

/-! ## The laws of `finalize` -/

omit [StateBackend B] in
theorem returns_asked_iff (hhome : e.AtHome) : (∀ hash, e.ReturnsAsked hash) ↔ e.Matched := by
  constructor
  · intro hret p b hp hb hq
    have hasked : e.Asked p.block_hash := ⟨by rw [hp]; rfl, hq⟩
    have hfin := finalize_of_block hasked hb 0
    obtain ⟨hhash, hlog⟩ := hret p.block_hash 0 ⟨b, 0⟩ (by rw [hfin])
    refine ⟨hhash, ?_⟩
    intro hflag
    rw [hfin, if_pos hflag] at hlog
    rw [← hhome _ b hb]
    exact hlog
  · intro hmatch hash now f hf
    by_cases hasked : e.Asked hash
    · cases hb : (e.round (e.height + 1)).block with
      | none =>
        rw [finalize_of_no_block hasked hb] at hf
        cases hf
      | some b =>
        have hfin := finalize_of_block hasked hb now
        rw [hfin] at hf ⊢
        cases hf
        obtain ⟨p, hp, hhash⟩ := Option.map_eq_some_iff.mp hasked.1
        obtain ⟨hblock, hlog⟩ := hmatch p b hp hb hasked.2
        refine ⟨hblock.trans hhash, ?_⟩
        rw [hhome _ b hb]
        by_cases hflag : (e.round (e.height + 1)).finalized = true
        · rw [if_pos hflag]
          exact hlog hflag
        · rw [if_neg hflag]
          exact ExtTreeMap.getElem?_insert_self
    · rw [finalize_of_not_asked hasked] at hf
      cases hf

omit [StateBackend B] in
theorem Unmarked.matched (hu : e.Unmarked) (hhash : e.Hashed) : e.Matched := by
  intro p b hp hb hq
  refine ⟨hhash _ p b hp hb, ?_⟩
  intro hflag
  have hasked : e.Asked p.block_hash := ⟨by rw [hp]; rfl, hq⟩
  rw [hu.above _ (hu.lt_of_asked hasked)] at hflag
  cases hflag

omit [StateBackend B] in
theorem advances_or_nothing_iff (hash : Hash) (now : UInt64) :
    e.AdvancesOrNothing hash now ↔ e.Settled hash := by
  unfold AdvancesOrNothing Settled
  by_cases hasked : e.Asked hash
  · cases hb : (e.round (e.height + 1)).block with
    | none =>
      rw [finalize_of_no_block hasked hb]
      by_cases hflag : (e.round (e.height + 1)).finalized = true
      · rw [if_pos hflag]
        simp [hflag]
      · rw [if_neg hflag]
        have hmark : e.mark ≠ e := by
          intro hsame
          have hround := e.mark_round (e.height + 1)
          rw [hsame, if_pos rfl] at hround
          apply hflag
          rw [hround]
        simp [hflag, hmark, hasked]
    | some b =>
      rw [finalize_of_block hasked hb]
      by_cases hflag : (e.round (e.height + 1)).finalized = true
      · rw [if_pos hflag]
        simp [hflag, hasked]
      · rw [if_neg hflag]
        have hlog : (e.commit b).finalized[(e.commit b).height]? = some b :=
          ExtTreeMap.getElem?_insert_self
        have hhash : (e.commit b).previous_hash = b.hash := rfl
        have hup : (e.commit b).height.toNat = e.height.toNat + 1 ↔ e.height < e.height + 1 := by
          have hmax := e.height.toNat_lt
          rw [UInt64.lt_iff_toNat_lt]
          change (e.height + 1).toNat = _ ↔ _
          rw [UInt64.toNat_add, UInt64.toNat_one]
          omega
        simp [hflag, hasked, hlog, hhash, hup]
  · rw [finalize_of_not_asked hasked]
    simp [hasked]

/-- What the calls of a run preserve when they are prompt. -/
theorem run_unmarked (hu : e.Unmarked) {calls : List EngineCall} (hm : e.Meets Prompt calls) :
    (e.run calls).Unmarked :=
  run_preserves_of_meets (fun _ c hu hprompt => hu.apply c hprompt) hu hm

/-- In every state that a run reaches, `finalize` returns what it was asked for if and only if
the next round is matched; in a run of prompt calls that mix no two blocks it always does. -/
theorem finalize_returns_the_asked_block (local_address : Address) (set : ValidatorSet)
    (state : StateStore B) (genesis : Hash) (calls : List EngineCall) :
    let start := new_with_store local_address set state genesis
    ((∀ hash, (start.run calls).ReturnsAsked hash) ↔ (start.run calls).Matched) ∧
      (start.Meets (fun e c => e.Prompt c ∧ e.OneBlock c) calls →
        ∀ hash, (start.run calls).ReturnsAsked hash) := by
  intro start
  have hhome := run_at_home (new_at_home local_address set state genesis) calls
  refine ⟨returns_asked_iff hhome, ?_⟩
  intro hm
  have hnew : start.Unmarked ∧ start.Hashed :=
    ⟨new_unmarked local_address set state genesis, new_hashed local_address set state genesis⟩
  obtain ⟨hu, hhash⟩ := run_preserves_of_meets (P := fun e => e.Unmarked ∧ e.Hashed)
    (fun _ c h hc => ⟨h.1.apply c hc.1, h.2.apply c hc.2⟩) hnew hm
  exact (returns_asked_iff hhome).mpr (hu.matched hhash)

/-- In every state that a run reaches, `finalize` advances or does nothing if and only if the
next round is settled; after a run of prompt calls, if and only if the call is prompt too. -/
theorem finalize_advances_or_does_nothing_iff (local_address : Address) (set : ValidatorSet)
    (state : StateStore B) (genesis : Hash) (calls : List EngineCall) (hash : Hash)
    (now : UInt64) :
    let start := new_with_store local_address set state genesis
    ((start.run calls).AdvancesOrNothing hash now ↔ (start.run calls).Settled hash) ∧
      (start.Meets Prompt calls →
        ((start.run calls).AdvancesOrNothing hash now ↔
          (start.run calls).Prompt (.finalize hash now))) := by
  intro start
  refine ⟨advances_or_nothing_iff hash now, ?_⟩
  intro hm
  have hu := run_unmarked (new_unmarked local_address set state genesis) hm
  rw [advances_or_nothing_iff]
  constructor
  · intro hsettled hasked hnone
    have hflag := (hsettled hasked).1.mpr hnone
    rw [hu.above _ (hu.lt_of_asked hasked)] at hflag
    cases hflag
  · intro hprompt hasked
    refine ⟨iff_of_false ?_ (hprompt hasked), fun _ => hu.lt_of_asked hasked⟩
    rw [hu.above _ (hu.lt_of_asked hasked)]
    exact Bool.false_ne_true

end BftConsensus

end Pemrix

/-! ## Runs of one engine -/

namespace Pemrix.Concrete

open BftConsensus

/-- The first block and the votes of two other validators. -/
def first_calls : List EngineCall :=
  [.handle_block first, .handle_vote (vote_for first (addr 2)),
    .handle_vote (vote_for first (addr 3))]

/-- The proposal of the rival comes after the first block and leaves it in the round. -/
def crossed_calls : List EngineCall :=
  [.handle_block first, .handle_proposal (.from_block rival),
    .handle_vote (vote_for rival (addr 2)), .handle_vote (vote_for rival (addr 3))]

/-- The votes come before the block. -/
def early_calls : List EngineCall :=
  [.handle_proposal (.from_block first), .handle_vote (vote_for first (addr 2)),
    .handle_vote (vote_for first (addr 3))]

/-- What is asked for is the rival, and the first block is returned. -/
theorem asked_for_the_rival :
    ¬ ((engine four (addr 1)).run crossed_calls).ReturnsAsked rival.hash := by
  have hruns :
      (((engine four (addr 1)).run crossed_calls).finalize rival.hash 30).1 = .ok ⟨first, 30⟩ ∧
        first.hash ≠ rival.hash := by
    decide +kernel
  intro hret
  exact hruns.2 (hret 30 ⟨first, 30⟩ hruns.1).1

/-- With one block, it is what was asked for. -/
theorem first_is_what_was_asked_for :
    ((engine four (addr 1)).run first_calls).ReturnsAsked first.hash :=
  (finalize_returns_the_asked_block (addr 1) four .new_in_memory default first_calls).2
    ⟨⟨trivial, trivial⟩, ⟨trivial, trivial⟩, ⟨trivial, trivial⟩, trivial⟩ first.hash

/-- An early `finalize` fails and marks the round, and the one after the block succeeds and
stays at height 0. -/
theorem early_finalize_blocks_the_height :
    ¬ ((engine four (addr 1)).run early_calls).AdvancesOrNothing first.hash 30 ∧
      ¬ ((engine four (addr 1)).run
        (early_calls ++ [.finalize first.hash 30, .handle_block first])).AdvancesOrNothing
          first.hash 40 := by
  have hearly :
      (((engine four (addr 1)).run early_calls).finalize first.hash 30).1 =
          .error .InvalidProposal ∧
        (((engine four (addr 1)).run early_calls).round 1).finalized = false ∧
        ((((engine four (addr 1)).run early_calls).finalize first.hash 30).2.round 1).finalized =
          true := by
    decide +kernel
  have hlate :
      (((engine four (addr 1)).run
          (early_calls ++ [.finalize first.hash 30, .handle_block first])).finalize
            first.hash 40).1 = .ok ⟨first, 40⟩ ∧
        ((engine four (addr 1)).run
          (early_calls ++ [.finalize first.hash 30, .handle_block first])).height = 0 ∧
        (((engine four (addr 1)).run
          (early_calls ++ [.finalize first.hash 30, .handle_block first])).finalize
            first.hash 40).2.height = 0 := by
    decide +kernel
  constructor
  · intro hsame
    obtain ⟨herr, hbefore, hafter⟩ := hearly
    rw [hsame.2 ⟨_, herr⟩, hbefore] at hafter
    cases hafter
  · intro hup
    obtain ⟨hok, hheight, hstays⟩ := hlate
    have hheights := (hup.1 ⟨_, hok⟩).1
    rw [hstays, hheight] at hheights
    cases hheights

/-- With the block in the round, `finalize` advances. -/
theorem prompt_finalize_advances :
    ((engine four (addr 1)).run first_calls).AdvancesOrNothing first.hash 30 := by
  refine ((finalize_advances_or_does_nothing_iff (addr 1) four .new_in_memory default
    first_calls first.hash 30).2 ⟨trivial, trivial, trivial, trivial⟩).mpr ?_
  intro _
  decide +kernel

end Pemrix.Concrete
