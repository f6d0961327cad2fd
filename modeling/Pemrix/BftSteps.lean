-- What a call of the engine can do. Each method has one lemma that lists all
-- its ends with the engine after them, and a run is a list of calls.
import Pemrix.Bft
import Pemrix.SerdeJson

open Std

namespace Pemrix

namespace BftConsensus

variable {B : Type} (e : BftConsensus B)

/-! ## Rounds -/

@[simp] theorem set_round_round (h k : UInt64) (r : RoundState) :
    (e.set_round h r).round k = if h = k then r else e.round k := by
  unfold round set_round
  simp only [ExtTreeMap.getElem?_insert, LawfulEqCmp.compare_eq_iff_eq]
  split
  · rfl
  · rfl

@[simp] theorem set_round_height (h : UInt64) (r : RoundState) :
    (e.set_round h r).height = e.height :=
  rfl

@[simp] theorem set_round_finalized (h : UInt64) (r : RoundState) :
    (e.set_round h r).finalized = e.finalized := rfl

@[simp] theorem set_round_previous_hash (h : UInt64) (r : RoundState) :
    (e.set_round h r).previous_hash = e.previous_hash := rfl

@[simp] theorem set_round_local_address (h : UInt64) (r : RoundState) :
    (e.set_round h r).local_address = e.local_address := rfl

@[simp] theorem set_round_validator_set (h : UInt64) (r : RoundState) :
    (e.set_round h r).validator_set = e.validator_set := rfl

@[simp] theorem set_round_state (h : UInt64) (r : RoundState) :
    (e.set_round h r).state = e.state := rfl

@[simp] theorem set_round_voted (h : UInt64) (r : RoundState) :
    (e.set_round h r).voted_this_height = e.voted_this_height := rfl

theorem round_of_some {e : BftConsensus B} {h : UInt64} {r : RoundState}
    (hr : e.rounds[h]? = some r) :
    e.round h = r := by
  rw [round, hr]
  rfl

theorem new_round (local_address : Address) (set : ValidatorSet) (state : StateStore B)
    (genesis : Hash) (h : UInt64) :
    (new_with_store local_address set state genesis).round h = default := by
  simp [new_with_store, round]

theorem own_vote_eq (h : UInt64) : e.own_vote h = (e.round h).votes[e.local_address]? := by
  unfold own_vote round
  cases e.rounds[h]? with
  | none =>
    show none = (∅ : ExtTreeMap Address Vote)[e.local_address]?
    simp
  | some r => rfl

theorem own_proposal_eq (h : UInt64) : e.own_proposal h = (e.round h).block := by
  unfold own_proposal round
  cases e.rounds[h]? with
  | none => rfl
  | some r => rfl

/-! ## The checks -/

theorem validate_proposal_ok {p : Proposal} :
    e.validate_proposal p = .ok () ↔
      e.height < p.height ∧ e.validator_set.proposer p.height p.round = some ⟨p.proposer⟩ := by
  unfold validate_proposal
  split
  · rename_i hnone
    simp [hnone]
  · rename_i expected hsome
    rw [hsome]
    split
    · rename_i hle
      simp only [reduceCtorEq, false_iff, not_and]
      intro hlt
      exact absurd hlt (by grind)
    · rename_i hlt
      split
      · rename_i hne
        simp only [reduceCtorEq, false_iff, not_and, Option.some.injEq]
        intro _ heq
        exact hne heq.symm
      · rename_i heq
        simp only [true_iff, Option.some.injEq]
        exact ⟨by grind, (not_not.mp heq).symm⟩

theorem validate_vote_ok {v : Vote} :
    e.validate_vote v = .ok () ↔
      e.height < v.height ∧ e.validator_set.is_validator ⟨v.voter⟩ ∧
        ∃ p, (e.round v.height).proposal = some p ∧ p.block_hash = v.block_hash := by
  unfold validate_vote round
  split
  · rename_i hle
    simp only [reduceCtorEq, false_iff, not_and]
    intro hlt
    exact absurd hlt (by grind)
  · rename_i hlt
    have hlt : e.height < v.height := by grind
    split
    · rename_i hno
      simp [hno]
    · rename_i hyes
      rw [not_not] at hyes
      cases e.rounds[v.height]? with
      | none =>
        simp only [reduceCtorEq, false_iff, not_and, Option.getD_none]
        rintro _ _ ⟨p, hp, _⟩
        cases hp
      | some r =>
        simp only [Option.getD_some, hlt, hyes, true_and]
        cases r.proposal with
        | none => simp
        | some p =>
          simp only [Option.some.injEq, exists_eq_left']
          split
          · rename_i hne
            simp [hne]
          · rename_i heq
            simpa using heq

theorem quorum_threshold_pos (set : ValidatorSet) : 0 < set.quorum_threshold := by
  unfold ValidatorSet.quorum_threshold
  generalize set.total_power = t
  rw [UInt64.lt_iff_toNat_lt]
  rw [UInt64.toNat_add, UInt64.toNat_div]
  have := (t * 2).toNat_lt
  simp only [UInt64.toNat_zero, UInt64.toNat_one, UInt64.reduceToNat]
  omega

theorem vote_power_of_no_votes {r : RoundState} (h : r.votes = ∅) : e.vote_power r = 0 := by
  have hkeys : (∅ : ExtTreeMap Address Vote).keys = [] := by simp
  rw [vote_power, h, hkeys]
  rfl

theorem has_quorum_iff (h : UInt64) :
    e.has_quorum h = true ↔ e.validator_set.quorum_threshold ≤ e.vote_power (e.round h) := by
  unfold has_quorum round
  cases e.rounds[h]? with
  | none =>
    have hpos := quorum_threshold_pos e.validator_set
    rw [Option.getD_none, e.vote_power_of_no_votes rfl]
    simp only [Bool.false_eq_true, false_iff]
    exact UInt64.not_le.mpr hpos
  | some r => simp

/-! ## A proposal that is admitted -/

/-- The round after a proposal for it: the local validator votes if it has not voted. -/
def admitted (p : Proposal) (block : Option Block) : RoundState :=
  { e.round p.height with
    proposal := some p
    block
    votes :=
      if (p.height, e.local_address) ∈ e.voted_this_height then (e.round p.height).votes
      else (e.round p.height).votes.insert e.local_address
        (e.local_vote p.block_hash p.height p.round) }

def admitting (p : Proposal) (block : Option Block) : BftConsensus B :=
  { e.set_round p.height (e.admitted p block) with
    voted_this_height := e.voted_this_height.insert (p.height, e.local_address) }

@[simp] theorem admitting_round (p : Proposal) (block : Option Block) (h : UInt64) :
    (e.admitting p block).round h = if p.height = h then e.admitted p block else e.round h :=
  e.set_round_round _ _ _

@[simp] theorem admitting_local_address (p : Proposal) (block : Option Block) :
    (e.admitting p block).local_address = e.local_address := rfl

theorem admitting_block (p : Proposal) (block : Option Block) (h : UInt64) :
    ((e.admitting p block).round h).block = if p.height = h then block else (e.round h).block := by
  rw [admitting_round, apply_ite RoundState.block]
  rfl

/-- Adding the key of a vote again changes nothing. -/
theorem insert_voted {s : ExtTreeSet (UInt64 × Address)} {k : UInt64 × Address} (h : k ∈ s) :
    s.insert k = s := by
  apply ExtTreeSet.ext_mem
  intro a
  rw [ExtTreeSet.mem_insert]
  constructor
  · rintro (heq | ha)
    · rwa [← LawfulEqCmp.eq_of_compare heq]
    · exact ha
  · exact Or.inr

theorem admit_of_voted {p : Proposal} (block : Option Block)
    (h : (p.height, e.local_address) ∈ e.voted_this_height) :
    e.admitting p block =
      e.set_round p.height { e.round p.height with proposal := some p, block } := by
  unfold admitting admitted
  rw [if_pos h, insert_voted h]
  rfl

theorem admit_of_not_voted {p : Proposal} (block : Option Block)
    (h : (p.height, e.local_address) ∉ e.voted_this_height) :
    e.admitting p block =
      { e.set_round p.height
          { e.round p.height with
            proposal := some p
            block
            votes := (e.round p.height).votes.insert e.local_address
              (e.local_vote p.block_hash p.height p.round) } with
        voted_this_height := e.voted_this_height.insert (p.height, e.local_address) } := by
  unfold admitting admitted
  rw [if_neg h]

theorem handle_proposal_cases (p : Proposal) :
    (∃ err, e.validate_proposal p = .error err ∧ e.handle_proposal p = (.error err, e)) ∨
    (e.validate_proposal p = .ok () ∧
      e.handle_proposal p = (.ok (), e.admitting p (e.round p.height).block)) := by
  unfold handle_proposal
  rcases hv : e.validate_proposal p with err | u
  · exact Or.inl ⟨err, rfl, rfl⟩
  · refine Or.inr ⟨rfl, ?_⟩
    dsimp only
    by_cases hvoted : (p.height, e.local_address) ∈ e.voted_this_height
    · rw [if_pos (ExtTreeSet.contains_iff_mem.mpr hvoted), admit_of_voted e _ hvoted]
    · rw [if_neg (mt ExtTreeSet.contains_iff_mem.mp hvoted), admit_of_not_voted e _ hvoted]

variable [Crates]

theorem handle_block_cases (b : Block) :
    (∃ err, e.validate_proposal (.from_block b) = .error err ∧ e.handle_block b = (.error err, e)) ∨
    (e.validate_proposal (.from_block b) = .ok () ∧
      e.handle_block b =
        (if (b.header.height, e.local_address) ∈ e.voted_this_height then .error .InvalidVote
          else .ok (e.local_vote b.hash b.header.height 0),
            e.admitting (.from_block b) (some b))) := by
  unfold handle_block
  dsimp only
  rcases hv : e.validate_proposal (.from_block b) with err | u
  · exact Or.inl ⟨err, rfl, rfl⟩
  · refine Or.inr ⟨rfl, ?_⟩
    dsimp only
    by_cases hvoted : (b.header.height, e.local_address) ∈ e.voted_this_height
    · rw [if_pos hvoted, admit_of_voted e (p := .from_block b) _ hvoted]
      exact if_pos (ExtTreeSet.contains_iff_mem.mpr hvoted)
    · rw [if_neg hvoted, admit_of_not_voted e (p := .from_block b) _ hvoted]
      exact if_neg (mt ExtTreeSet.contains_iff_mem.mp hvoted)

/-! ## A vote that is recorded -/

omit [Crates] in
def record_vote (v : Vote) : BftConsensus B :=
  e.set_round v.height
    { e.round v.height with votes := (e.round v.height).votes.insert ⟨v.voter⟩ v }

omit [Crates] in
theorem record_vote_round (v : Vote) (h : UInt64) :
    (e.record_vote v).round h =
      if v.height = h then { e.round h with votes := (e.round h).votes.insert ⟨v.voter⟩ v }
      else e.round h := by
  unfold record_vote
  rw [set_round_round]
  split
  · rename_i heq
    rw [heq]
  · rfl

omit [Crates] in
@[simp] theorem record_vote_local_address (v : Vote) :
    (e.record_vote v).local_address = e.local_address := rfl

omit [Crates] in
@[simp] theorem record_vote_proposal (v : Vote) (h : UInt64) :
    ((e.record_vote v).round h).proposal = (e.round h).proposal := by
  rw [record_vote_round]
  split
  · rfl
  · rfl

omit [Crates] in
@[simp] theorem record_vote_block (v : Vote) (h : UInt64) :
    ((e.record_vote v).round h).block = (e.round h).block := by
  rw [record_vote_round]
  split
  · rfl
  · rfl

omit [Crates] in
theorem handle_vote_cases (v : Vote) :
    (∃ err, e.validate_vote v = .error err ∧ e.handle_vote v = (.error err, e)) ∨
    (e.validate_vote v = .ok () ∧ e.handle_vote v = (.ok (), e.record_vote v)) := by
  unfold handle_vote
  rcases hv : e.validate_vote v with err | u
  · exact Or.inl ⟨err, rfl, rfl⟩
  · exact Or.inr ⟨rfl, rfl⟩

/-! ## A block that is finalized -/

omit [Crates] in
/-- The round of the next height is marked as finalized. -/
def mark : BftConsensus B :=
  e.set_round (e.height + 1) { e.round (e.height + 1) with finalized := true }

def commit (b : Block) : BftConsensus B :=
  { e.mark with
    finalized := e.finalized.insert (e.height + 1) b
    previous_hash := b.hash
    height := e.height + 1
    voted_this_height := e.voted_this_height.filter fun k => k.1 ≠ e.height + 1 }

omit [Crates] in
theorem mark_round (h : UInt64) :
    e.mark.round h =
      if e.height + 1 = h then { e.round h with finalized := true } else e.round h := by
  unfold mark
  rw [set_round_round]
  split
  · rename_i heq
    rw [heq]
  · rfl

omit [Crates] in
@[simp] theorem mark_proposal (h : UInt64) : (e.mark.round h).proposal = (e.round h).proposal := by
  rw [mark_round]
  split
  · rfl
  · rfl

omit [Crates] in
@[simp] theorem mark_block (h : UInt64) : (e.mark.round h).block = (e.round h).block := by
  rw [mark_round]
  split
  · rfl
  · rfl

omit [Crates] in
@[simp] theorem mark_votes (h : UInt64) : (e.mark.round h).votes = (e.round h).votes := by
  rw [mark_round]
  split
  · rfl
  · rfl

/-- The rounds after a commit are the rounds after the mark. -/
theorem commit_mark (b : Block) (h : UInt64) : (e.commit b).round h = e.mark.round h := rfl

theorem commit_round (b : Block) (h : UInt64) :
    (e.commit b).round h =
      if e.height + 1 = h then { e.round h with finalized := true } else e.round h :=
  e.mark_round h

theorem commit_has_quorum (b : Block) (h : UInt64) :
    (e.commit b).has_quorum h = e.has_quorum h := by
  rw [Bool.eq_iff_iff, has_quorum_iff, has_quorum_iff, commit_round]
  split
  · exact Iff.rfl
  · exact Iff.rfl

omit [Crates] in
/-- The next height is higher, unless it wraps around. -/
theorem lt_next (h : e.height + 1 ≠ 0) : e.height < e.height + 1 := by
  have hmax := e.height.toNat_lt
  have hne : (e.height + 1).toNat ≠ 0 := mt (UInt64.toNat_inj (b := 0)).mp h
  rw [UInt64.lt_iff_toNat_lt]
  rw [UInt64.toNat_add, UInt64.toNat_one] at hne ⊢
  omega

/-- Only the next height can be finalized: its proposal has the hash, and it has a quorum. -/
theorem finalize_eq (hash : Hash) (now : UInt64) :
    e.finalize hash now =
      if (e.round (e.height + 1)).proposal.map (·.block_hash) = some hash ∧
          e.has_quorum (e.height + 1) then
        match (e.round (e.height + 1)).finalized, (e.round (e.height + 1)).block with
        | true, some b => (.ok ⟨b, now⟩, e)
        | true, none => (.error .InvalidProposal, e)
        | false, some b => (.ok ⟨b, now⟩, e.commit b)
        | false, none => (.error .InvalidProposal, e.mark)
      else (.error .InvalidProposal, e) := by
  unfold finalize commit mark
  dsimp only
  cases hr : e.rounds[e.height + 1]? with
  | none =>
    have hround : e.round (e.height + 1) = default := by rw [round, hr]; rfl
    have hp : (default : RoundState).proposal = none := rfl
    rw [hround, hp]
    simp
  | some r =>
    rw [round_of_some hr]
    dsimp only
    cases hp : r.proposal with
    | none => simp
    | some p =>
      simp only [Option.map_some, Option.some.injEq]
      by_cases hhash : p.block_hash = hash
      · rw [if_pos hhash]
        unfold try_finalize
        by_cases hq : e.has_quorum (e.height + 1) = true
        · simp only [hq, not_true, if_false, hr, hhash, and_self, if_true]
          cases hf : r.finalized with
          | true =>
            cases r.block with
            | none => simp
            | some b => simp
          | false =>
            cases r.block with
            | none => simp [hp]
            | some b => simp [hp]
        · simp [hq]
      · simp [hhash]

/-- What `finalize` can do to the engine. -/
theorem finalize_cases (hash : Hash) (now : UInt64) :
    (e.finalize hash now).2 = e ∨
    ((e.round (e.height + 1)).block = none ∧ (e.round (e.height + 1)).proposal ≠ none ∧
      (e.finalize hash now).2 = e.mark) ∨
    ∃ b p, (e.round (e.height + 1)).block = some b ∧ (e.round (e.height + 1)).proposal = some p ∧
      p.block_hash = hash ∧ e.has_quorum (e.height + 1) ∧
      (e.round (e.height + 1)).finalized = false ∧
        e.finalize hash now = (.ok ⟨b, now⟩, e.commit b) := by
  rw [finalize_eq]
  split
  · rename_i hgo
    obtain ⟨hp, hq⟩ := hgo
    obtain ⟨p, hp, hhash⟩ := Option.map_eq_some_iff.mp hp
    split
    · exact Or.inl rfl
    · exact Or.inl rfl
    · rename_i b hf hb
      exact Or.inr (Or.inr ⟨b, p, hb, hp, hhash, hq, hf, rfl⟩)
    · rename_i hf hb
      exact Or.inr (Or.inl ⟨hb, by simp [hp], rfl⟩)
  · exact Or.inl rfl

/-- A property that each `finalize` keeps is kept by the loop over the candidates. -/
theorem finalize_candidates_preserves {P : BftConsensus B → Prop}
    (hstep : ∀ e hash now, P e → P (finalize e hash now).2) (now : UInt64) (heights : List UInt64)
    (found : Option Block) (h : P e) : P (finalize_candidates now heights found e).2 := by
  induction heights generalizing found e with
  | nil => exact h
  | cons height rest ih =>
    unfold finalize_candidates
    split
    · exact ih e found h
    · rename_i p _
      have hnext := hstep e p.block_hash now h
      split
      · rename_i f e' hf
        rw [hf] at hnext
        exact ih e' _ hnext
      · rename_i err e' hf
        rw [hf] at hnext
        exact ih e' _ hnext

theorem finalize_pending_preserves {P : BftConsensus B → Prop}
    (hstep : ∀ e hash now, P e → P (finalize e hash now).2) (now : UInt64) (h : P e) :
    P (e.finalize_pending now).2 :=
  e.finalize_candidates_preserves hstep now _ _ h

/-! ## No quorum is left behind -/

omit [Crates] in
/-- The next height has no proposal or no quorum. -/
def Idle : Prop :=
  (e.round (e.height + 1)).proposal ≠ none → e.has_quorum (e.height + 1) = false

omit [Crates] in
/-- The rounds with a proposal are ready to be finalized, and round 0 is never used. -/
structure Ready : Prop where
  zero : (e.round 0).proposal = none
  block : ∀ {h : UInt64}, e.height < h → (e.round h).proposal ≠ none → (e.round h).block ≠ none
  flag : ∀ {h : UInt64}, e.height < h → (e.round h).finalized = false

theorem finalize_of_idle {e : BftConsensus B} (hidle : e.Idle) (hash : Hash) (now : UInt64) :
    e.finalize hash now = (.error .InvalidProposal, e) := by
  rw [finalize_eq, if_neg]
  rintro ⟨hp, hq⟩
  have hsome : (e.round (e.height + 1)).proposal ≠ none := by
    intro hnone
    rw [hnone] at hp
    cases hp
  rw [hidle hsome] at hq
  cases hq

theorem finalize_candidates_of_idle {e : BftConsensus B} (hidle : e.Idle) (now : UInt64)
    (heights : List UInt64) (found : Option Block) :
    finalize_candidates now heights found e = (found, e) := by
  induction heights with
  | nil => rfl
  | cons h rest ih =>
    unfold finalize_candidates
    split
    · exact ih
    · rw [finalize_of_idle hidle]
      exact ih

omit [Crates] in
theorem mem_candidates {e : BftConsensus B} {h : UInt64} :
    h ∈ e.candidates ↔ e.height < h ∧ (e.round h).proposal ≠ none := by
  unfold candidates
  simp only [List.mem_map, List.mem_filter, decide_eq_true_eq, Prod.exists,
    ExtTreeMap.mem_toList_iff_getElem?_eq_some, exists_and_right, exists_eq_right]
  constructor
  · rintro ⟨r, hr, hh, hp⟩
    rw [round_of_some hr]
    exact ⟨hh, Option.isSome_iff_ne_none.mp hp⟩
  · rintro ⟨hh, hp⟩
    cases hr : e.rounds[h]? with
    | none =>
      rw [round, hr] at hp
      exact absurd rfl hp
    | some r =>
      rw [round_of_some hr] at hp
      exact ⟨r, rfl, hh, Option.isSome_iff_ne_none.mpr hp⟩

omit [Crates] in
theorem candidates_sorted : e.candidates.Pairwise (· < ·) := by
  unfold candidates
  rw [List.pairwise_map]
  refine (e.rounds.ordered_keys_toList.filter _).imp ?_
  intro a b hab
  exact Std.compare_eq_lt.mp hab

omit [Crates] in
theorem bind_proposal (h : UInt64) : (e.rounds[h]?).bind (·.proposal) = (e.round h).proposal := by
  unfold round
  cases e.rounds[h]? with
  | none => rfl
  | some r => rfl

omit [Crates] in
/-- The heights are those above the current one that have a proposal, in order. -/
structure Queued (heights : List UInt64) : Prop where
  sorted : heights.Pairwise (· < ·)
  mem : ∀ h, h ∈ heights ↔ e.height < h ∧ (e.round h).proposal ≠ none

omit [Crates] in
theorem candidates_queued : e.Queued e.candidates := ⟨e.candidates_sorted, fun _ => mem_candidates⟩

omit [Crates] in
/-- The next height has a proposal and a quorum. -/
def Due : Prop :=
  e.height < e.height + 1 ∧ (e.round (e.height + 1)).proposal ≠ none ∧
    e.has_quorum (e.height + 1) = true

theorem commit_round_of_lt (b : Block) {h : UInt64} (hlt : (e.commit b).height < h) :
    (e.commit b).round h = e.round h := by
  have hne : e.height + 1 ≠ h := UInt64.ne_of_lt hlt
  rw [commit_round, if_neg hne]

/-- The height that is finalized leaves the queue. -/
theorem Queued.tail {e : BftConsensus B} {rest : List UInt64}
    (hqueued : e.Queued ((e.height + 1) :: rest)) (hlt : e.height < e.height + 1) (b : Block) :
    (e.commit b).Queued rest := by
  obtain ⟨hfirst, hrest⟩ := List.pairwise_cons.mp hqueued.sorted
  refine ⟨hrest, ?_⟩
  intro k
  constructor
  · intro hk
    have hgt := hfirst k hk
    rw [e.commit_round_of_lt b hgt]
    exact ⟨hgt, ((hqueued.mem k).mp (List.mem_cons_of_mem _ hk)).2⟩
  · rintro ⟨hgt, hp⟩
    rw [e.commit_round_of_lt b hgt] at hp
    have hk := (hqueued.mem k).mpr ⟨UInt64.lt_trans hlt hgt, hp⟩
    exact (List.mem_cons.mp hk).resolve_left (UInt64.ne_of_lt hgt).symm

omit [Crates] in
/-- Where the next height is due, it is the first of the queue. -/
theorem Queued.first {e : BftConsensus B} {heights : List UInt64} (hqueued : e.Queued heights)
    (hdue : e.Due) : ∃ rest, heights = (e.height + 1) :: rest := by
  have hin := (hqueued.mem _).mpr ⟨hdue.1, hdue.2.1⟩
  cases heights with
  | nil => cases hin
  | cons h rest =>
    refine ⟨rest, ?_⟩
    rcases List.mem_cons.mp hin with heq | hin
    · rw [heq]
    · have hlow := UInt64.lt_iff_toNat_lt.mp ((hqueued.mem h).mp List.mem_cons_self).1
      have hhigh := UInt64.lt_iff_toNat_lt.mp ((List.pairwise_cons.mp hqueued.sorted).1 _ hin)
      have hmod : (e.height + 1).toNat ≤ e.height.toNat + 1 := by
        rw [UInt64.toNat_add, UInt64.toNat_one]
        exact Nat.mod_le _ _
      omega

/-- A turn of the loop: the next height is finalized, or nothing happens in the rest of it. -/
theorem finalize_candidates_cases {heights : List UInt64} (hqueued : e.Queued heights)
    (hblock : ∀ {h : UInt64}, e.height < h → (e.round h).proposal ≠ none →
      (e.round h).block ≠ none)
    (hflag : ∀ {h : UInt64}, e.height < h → (e.round h).finalized = false)
    (found : Option Block) (now : UInt64) :
    (¬ e.Due ∧ finalize_candidates now heights found e = (found, e)) ∨
    ∃ b rest, e.Due ∧ heights = (e.height + 1) :: rest ∧ (e.commit b).Queued rest ∧
      finalize_candidates now heights found e =
        finalize_candidates now rest (some b) (e.commit b) := by
  by_cases hdue : e.Due
  · obtain ⟨rest, rfl⟩ := hqueued.first hdue
    obtain ⟨hlt, hp, hq⟩ := id hdue
    obtain ⟨b, hb⟩ := Option.ne_none_iff_exists'.mp (hblock hlt hp)
    obtain ⟨p, hp⟩ := Option.ne_none_iff_exists'.mp hp
    have hfin : e.finalize p.block_hash now = (.ok ⟨b, now⟩, e.commit b) := by
      rw [finalize_eq, hp, hb, hflag hlt, hq]
      simp
    refine Or.inr ⟨b, rest, hdue, rfl, hqueued.tail hlt b, ?_⟩
    rw [finalize_candidates, bind_proposal, hp]
    simp only [hfin]
  · refine Or.inl ⟨hdue, ?_⟩
    by_cases hlt : e.height < e.height + 1
    · refine finalize_candidates_of_idle ?_ now heights found
      intro hp
      rw [Bool.eq_false_iff]
      intro hq
      exact hdue ⟨hlt, hp, hq⟩
    · -- At `u64::MAX` nothing is left in the queue.
      cases heights with
      | nil => rfl
      | cons h rest =>
        have hh := UInt64.lt_iff_toNat_lt.mp ((hqueued.mem h).mp List.mem_cons_self).1
        have hmax := h.toNat_lt
        refine absurd (UInt64.lt_iff_toNat_lt.mpr ?_) hlt
        rw [UInt64.toNat_add, UInt64.toNat_one]
        omega

theorem Ready.commit {e : BftConsensus B} (hready : e.Ready) (hlt : e.height < e.height + 1)
    (b : Block) : (e.commit b).Ready := by
  refine ⟨?_, ?_, ?_⟩
  · rw [commit_round, if_neg ?_]
    · exact hready.zero
    · intro hzero
      rw [hzero] at hlt
      exact absurd hlt UInt64.not_lt_zero
  · intro k hk hp
    rw [e.commit_round_of_lt b hk] at hp ⊢
    exact hready.block (UInt64.lt_trans hlt hk) hp
  · intro k hk
    rw [e.commit_round_of_lt b hk]
    exact hready.flag (UInt64.lt_trans hlt hk)

omit [Crates] in
theorem Ready.idle {e : BftConsensus B} (hready : e.Ready) (hdue : ¬ e.Due) : e.Idle := by
  intro hp
  rw [Bool.eq_false_iff]
  intro hq
  refine hdue ⟨e.lt_next ?_, hp, hq⟩
  intro hzero
  rw [hzero] at hp
  exact hp hready.zero

/-- The loop goes up from the next height and stops at the first one without a quorum. -/
theorem finalize_candidates_idle (now : UInt64) (heights : List UInt64) (found : Option Block)
    (hready : e.Ready) (hqueued : e.Queued heights) :
    (finalize_candidates now heights found e).2.Idle := by
  induction heights generalizing e found with
  | nil =>
    refine hready.idle ?_
    intro hdue
    obtain ⟨rest, hrest⟩ := hqueued.first hdue
    cases hrest
  | cons h rest ih =>
    rcases e.finalize_candidates_cases hqueued hready.block hready.flag found now with
      ⟨hdue, he⟩ | ⟨b, rest', hdue, hheights, hrest, he⟩
    · rw [he]
      exact hready.idle hdue
    · cases hheights
      rw [he]
      exact ih (e.commit b) _ (hready.commit hdue.1 b) hrest

theorem finalize_pending_idle {e : BftConsensus B} (hready : e.Ready) (now : UInt64) :
    (e.finalize_pending now).2.Idle :=
  e.finalize_candidates_idle now _ none hready e.candidates_queued

/-! ## A block that is proposed -/

variable [StateBackend B]

/-- The engine after it has proposed: the store and the set of the execution, and the
proposal, block and vote in the round. -/
def proposed (height : UInt64) (block : Block) (state : StateStore B)
    (validator_set : ValidatorSet) :
    BftConsensus B :=
  { e.set_round height
      { e.round height with
        proposal := some
          { block_hash := block.hash, height, round := 0, proposer := e.local_address.bytes }
        block := some block
        votes :=
          (e.round height).votes.insert e.local_address (e.local_vote block.hash height 0) } with
    state
    validator_set
    voted_this_height := e.voted_this_height.insert (height, e.local_address) }

omit [StateBackend B] in
theorem proposed_round (height : UInt64) (block : Block) (state : StateStore B)
    (validator_set : ValidatorSet) (h : UInt64) :
    (e.proposed height block state validator_set).round h =
      if height = h then
        { e.round height with
          proposal := some
            { block_hash := block.hash, height, round := 0, proposer := e.local_address.bytes }
          block := some block
          votes :=
            (e.round height).votes.insert e.local_address (e.local_vote block.hash height 0) }
      else e.round h :=
  e.set_round_round _ _ _

omit [StateBackend B] in
theorem proposed_block (height : UInt64) (block : Block) (state : StateStore B)
    (validator_set : ValidatorSet) (h : UInt64) :
    ((e.proposed height block state validator_set).round h).block =
      if height = h then some block else (e.round h).block := by
  rw [proposed_round, apply_ite RoundState.block]

/-- The block that the engine builds from an executed store. -/
def built (height : UInt64) (transactions : List Transaction) (now : UInt64) (state_root : Hash) :
    Block :=
  ⟨{ height, timestamp := now, previous_hash := e.previous_hash, state_root,
     tx_root := Hash.hash_bytes (encode transactions), proposer := e.local_address.bytes },
    ⟨transactions⟩⟩

/-- The set that `update_validator_set` leaves for a store. -/
def next_set (validator_set : ValidatorSet) (state : StateStore B) : ValidatorSet :=
  match state.validator_records with
  | .error _ => validator_set
  | .ok records =>
    let active := ((active_candidates records).mergeSort candidate_le).take MAX_ACTIVE_VALIDATORS
    let new_set := active.foldl (fun set (address, power) => set.add address power) ValidatorSet.new
    if new_set.is_empty then validator_set else new_set

theorem update_validator_set_eq :
    e.update_validator_set = { e with validator_set := next_set e.validator_set e.state } := by
  unfold update_validator_set next_set
  cases e.state.validator_records with
  | error err => rfl
  | ok records =>
    dsimp only
    split
    · rfl
    · rfl

theorem build_block_cases (height : UInt64) (transactions : List Transaction) (now : UInt64) :
    (∃ err, (execute_all e.state transactions).1 = .error err ∧
      e.build_block height transactions now = (.error (.ExecutionFailed err.to_string),
        { e with state := (execute_all e.state transactions).2 })) ∨
    ((execute_all e.state transactions).1 = .ok () ∧
      let state := (execute_all e.state transactions).2
      let e' := { e with state, validator_set := next_set e.validator_set state }
      ((∃ err, state.state_root = .error err ∧
          e.build_block height transactions now = (.error .Storage, e')) ∨
        ∃ root, state.state_root = .ok root ∧
          e.build_block height transactions now =
            (.ok (e.built height transactions now root), e'))) := by
  unfold build_block
  rcases execute_all e.state transactions with ⟨err | u, state⟩
  · exact Or.inl ⟨err, rfl, rfl⟩
  · refine Or.inr ⟨rfl, ?_⟩
    dsimp only
    rw [update_validator_set_eq]
    dsimp only
    rcases state.state_root with err | root
    · exact Or.inl ⟨err, rfl, rfl⟩
    · exact Or.inr ⟨root, rfl, rfl⟩

/-- A proposal is refused, or its execution fails, or the block goes into the round. -/
theorem propose_cases (height : UInt64) (transactions : List Transaction) (now : UInt64) :
    (e.validator_set.proposer height 0 ≠ some e.local_address ∧
      e.propose height transactions now = (.error .NotProposer, e)) ∨
    (e.validator_set.proposer height 0 = some e.local_address ∧
      let state := (execute_all e.state transactions).2
      ((∃ err validator_set,
            ((∃ err, (execute_all e.state transactions).1 = .error err) ∧
                validator_set = e.validator_set ∨
              (∃ err, state.state_root = .error err) ∧
                validator_set = next_set e.validator_set state) ∧
          e.propose height transactions now = (.error err, { e with state, validator_set })) ∨
        ∃ root, (execute_all e.state transactions).1 = .ok () ∧ state.state_root = .ok root ∧
          e.propose height transactions now =
            (.ok (e.built height transactions now root),
              e.proposed height (e.built height transactions now root) state
                (next_set e.validator_set state)))) := by
  unfold propose
  rcases hp : e.validator_set.proposer height 0 with _ | proposer
  · exact Or.inl ⟨by simp, rfl⟩
  · by_cases hlocal : proposer = e.local_address
    · subst hlocal
      refine Or.inr ⟨rfl, ?_⟩
      simp only [ne_eq, not_true, if_false]
      rcases e.build_block_cases height transactions now with
        ⟨err, herr, hb⟩ | ⟨hok, ⟨err, herr, hb⟩ | ⟨root, hroot, hb⟩⟩
      · rw [hb]
        exact Or.inl ⟨_, _, Or.inl ⟨⟨err, herr⟩, rfl⟩, rfl⟩
      · rw [hb]
        exact Or.inl ⟨_, _, Or.inr ⟨⟨err, herr⟩, rfl⟩, rfl⟩
      · rw [hb]
        exact Or.inr ⟨root, hok, hroot, rfl⟩
    · refine Or.inl ⟨by simpa using hlocal, ?_⟩
      simp only [ne_eq, hlocal, not_false_eq_true, if_true]

end BftConsensus

/-! ## Calls and runs -/

/-- One call of a method of the engine, with its arguments and the clock. -/
inductive EngineCall where
  | propose (height : UInt64) (transactions : List Transaction) (now : UInt64)
  | handle_block (block : Block)
  | handle_proposal (proposal : Proposal)
  | handle_vote (vote : Vote)
  | finalize (block_hash : Hash) (now : UInt64)
  | finalize_pending (now : UInt64)

variable {B : Type} [StateBackend B] [Crates]

/-- The engine after the call. -/
def EngineCall.apply (e : BftConsensus B) : EngineCall → BftConsensus B
  | .propose height transactions now => (e.propose height transactions now).2
  | .handle_block block => (e.handle_block block).2
  | .handle_proposal proposal => (e.handle_proposal proposal).2
  | .handle_vote vote => (e.handle_vote vote).2
  | .finalize block_hash now => (e.finalize block_hash now).2
  | .finalize_pending now => (e.finalize_pending now).2

/-- The engine after all calls of a run. -/
def BftConsensus.run (e : BftConsensus B) (calls : List EngineCall) : BftConsensus B :=
  calls.foldl EngineCall.apply e

@[simp] theorem BftConsensus.run_nil (e : BftConsensus B) : e.run [] = e := rfl

@[simp] theorem BftConsensus.run_cons (e : BftConsensus B) (c : EngineCall)
    (calls : List EngineCall) : e.run (c :: calls) = (c.apply e).run calls := rfl

@[simp] theorem BftConsensus.run_append (e : BftConsensus B) (calls more : List EngineCall) :
    e.run (calls ++ more) = (e.run calls).run more := List.foldl_append

/-- What each call of a run preserves, the run preserves. -/
theorem BftConsensus.run_preserves {P : BftConsensus B → Prop} (calls : List EngineCall)
    (hstep : ∀ c ∈ calls, ∀ e, P e → P (c.apply e)) (e : BftConsensus B) (h : P e) :
    P (e.run calls) := by
  induction calls generalizing e with
  | nil => exact h
  | cons c calls ih =>
    refine ih (fun c' hc' => hstep c' (List.mem_cons_of_mem c hc')) (c.apply e) ?_
    exact hstep c List.mem_cons_self e h

/-- Each call of the run meets a condition on the engine before it. -/
def BftConsensus.Meets (C : BftConsensus B → EngineCall → Prop) (e : BftConsensus B) :
    List EngineCall → Prop
  | [] => True
  | c :: calls => C e c ∧ Meets C (c.apply e) calls

theorem BftConsensus.meets_append {C : BftConsensus B → EngineCall → Prop} {e : BftConsensus B}
    {calls more : List EngineCall} :
    e.Meets C (calls ++ more) ↔ e.Meets C calls ∧ (e.run calls).Meets C more := by
  induction calls generalizing e with
  | nil => simp [Meets]
  | cons c calls ih => simp only [List.cons_append, Meets, ih, and_assoc, run_cons]

/-- What each call that meets the condition preserves, a run of such calls preserves. -/
theorem BftConsensus.run_preserves_of_meets {P : BftConsensus B → Prop}
    {C : BftConsensus B → EngineCall → Prop} (hstep : ∀ e c, P e → C e c → P (c.apply e))
    {e : BftConsensus B} {calls : List EngineCall} (h : P e) (hc : e.Meets C calls) :
    P (e.run calls) := by
  induction calls generalizing e with
  | nil => exact h
  | cons c calls ih => exact ih (hstep e c h hc.1) hc.2

end Pemrix

/-! ## Fixed validators and blocks -/

namespace Pemrix.Concrete

/-- Two validators of power 1. -/
def two : ValidatorSet := .from_validators [⟨addr 1, 1⟩, ⟨addr 2, 1⟩]

/-- Four validators of power 1. -/
def four : ValidatorSet :=
  .from_validators [⟨addr 1, 1⟩, ⟨addr 2, 1⟩, ⟨addr 3, 1⟩, ⟨addr 4, 1⟩]

/-- A new engine with an empty store. -/
def engine (set : ValidatorSet) (a : Address) : BftConsensus InMemoryBackend :=
  .new_with_store a set .new_in_memory default

/-- A block with no transactions on a block with the hash `previous_hash`. -/
def empty_block (height timestamp : UInt64) (previous_hash : Hash) (proposer : Address) : Block :=
  { header :=
      { height, timestamp, previous_hash, state_root := default,
        tx_root := Hash.hash_bytes [91, 93],
        proposer := proposer.bytes }
    body := ⟨[]⟩ }

/-- A block of height 1. -/
def first : Block := empty_block 1 10 default (addr 2)

/-- Another one from the same proposer. -/
def rival : Block := empty_block 1 20 default (addr 2)

def vote_for (b : Block) (voter : Address) : Vote :=
  { block_hash := b.hash, height := b.header.height, round := 0, voter := voter.bytes }

end Pemrix.Concrete
