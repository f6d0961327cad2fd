-- What the rounds of an engine hold, whatever is called: blocks of their height
-- from the proposer of the height, votes under the name of the voter, and
-- nothing that did not come in.
import Pemrix.Certificates

open Std

namespace Pemrix

variable {B : Type} [StateBackend B] [Crates]

/-! ## What a round holds -/

namespace BftConsensus

omit [StateBackend B] [Crates] in
/-- A round holds a known block of its height from the proposer of the height, and votes only
with a proposal. -/
structure Stored (set : ValidatorSet) (known : Block → Prop) (h : UInt64) (r : RoundState) :
    Prop where
  block : ∀ {b : Block}, r.block = some b →
    b.header.height = h ∧ set.proposer h 0 = some ⟨b.header.proposer⟩ ∧ known b
  filled : r.proposal ≠ none → r.block ≠ none
  voted : ∀ {a : Address} {v : Vote}, r.votes[a]? = some v →
    r.proposal ≠ none ∧ v.voter = a.bytes ∧ v.height = h

variable {set : ValidatorSet} {known : Block → Prop} {e : BftConsensus B}

omit [StateBackend B] [Crates] in
theorem Stored.mono {more : Block → Prop} {h : UInt64} {r : RoundState}
    (hs : Stored set known h r) (hmore : ∀ b, known b → more b) : Stored set more h r := by
  refine ⟨?_, hs.filled, hs.voted⟩
  intro b hb
  obtain ⟨h1, h2, h3⟩ := hs.block hb
  exact ⟨h1, h2, hmore b h3⟩

omit [StateBackend B] [Crates] in
/-- One more vote in its own name. -/
theorem Stored.insert {h : UInt64} {r : RoundState} (hs : Stored set known h r) {a : Address}
    {v : Vote} (hp : r.proposal ≠ none) (hvoter : v.voter = a.bytes) (hheight : v.height = h) :
    Stored set known h { r with votes := r.votes.insert a v } := by
  refine ⟨hs.block, hs.filled, ?_⟩
  intro a' v' hv'
  dsimp only at hv' ⊢
  rw [ExtTreeMap.getElem?_insert] at hv'
  split at hv'
  · rename_i heq
    cases hv'
    rw [← LawfulEqCmp.eq_of_compare heq]
    exact ⟨hp, hvoter, hheight⟩
  · exact hs.voted hv'

omit [StateBackend B] [Crates] in
/-- A known block takes its place in the round. -/
theorem Stored.put {h : UInt64} {r : RoundState} (hs : Stored set known h r) {b : Block}
    (p : Proposal) (hheight : b.header.height = h)
    (hproposer : set.proposer h 0 = some ⟨b.header.proposer⟩) (hknown : known b) :
    Stored set known h { r with proposal := some p, block := some b } := by
  refine ⟨?_, ?_, ?_⟩
  · intro b' hb'
    cases hb'
    exact ⟨hheight, hproposer, hknown⟩
  · intro _ hb'
    cases hb'
  · intro a v hv
    obtain ⟨-, h2, h3⟩ := hs.voted hv
    exact ⟨by simp, h2, h3⟩

omit [StateBackend B] [Crates] in
/-- A step that writes one round. -/
theorem stored_of_set {n : BftConsensus B} {k : UInt64} {r : RoundState}
    (hs : ∀ h, Stored set known h (e.round h)) (hr : Stored set known k r)
    (hround : ∀ h, n.round h = if k = h then r else e.round h) (h : UInt64) :
    Stored set known h (n.round h) := by
  rw [hround]
  split
  · rename_i heq
    rw [← heq]
    exact hr
  · exact hs h

omit [StateBackend B] in
theorem handle_block_stored (hs : ∀ h, Stored set known h (e.round h))
    (hset : e.validator_set = set)
    {b : Block} (hb : known b) (h : UInt64) :
    Stored set known h ((e.handle_block b).2.round h) := by
  rcases e.handle_block_cases b with ⟨err, -, he⟩ | ⟨hok, he⟩
  · rw [he]
    exact hs h
  · rw [he]
    obtain ⟨-, hproposer⟩ := e.validate_proposal_ok.mp hok
    rw [hset] at hproposer
    have hput := (hs b.header.height).put (.from_block b) rfl hproposer hb
    refine stored_of_set hs (k := b.header.height) (r := e.admitted (.from_block b) (some b)) ?_
      (fun h => set_round_round ..) h
    unfold admitted
    dsimp only
    split
    · exact hput
    · exact hput.insert (by simp) rfl rfl

omit [StateBackend B] [Crates] in
theorem handle_vote_stored (hs : ∀ h, Stored set known h (e.round h)) (v : Vote) (h : UInt64) :
    Stored set known h ((e.handle_vote v).2.round h) := by
  rcases e.handle_vote_cases v with ⟨err, -, he⟩ | ⟨hok, he⟩
  · rw [he]
    exact hs h
  · rw [he]
    obtain ⟨-, -, p, hp, -⟩ := e.validate_vote_ok.mp hok
    refine stored_of_set hs (k := v.height) ?_ (fun h => set_round_round ..) h
    exact (hs v.height).insert (by simp [hp]) rfl rfl

omit [StateBackend B] in
theorem finalize_stored (hs : ∀ h, Stored set known h (e.round h)) (hash : Hash) (now : UInt64)
    (h : UInt64) : Stored set known h ((e.finalize hash now).2.round h) := by
  have hmark : Stored set known (e.height + 1) { e.round (e.height + 1) with finalized := true } :=
    ⟨(hs _).block, (hs _).filled, (hs _).voted⟩
  have hround : ∀ h, e.mark.round h = if e.height + 1 = h
      then { e.round (e.height + 1) with finalized := true } else e.round h :=
    fun h => set_round_round ..
  rcases e.finalize_cases hash now with he | ⟨-, -, he⟩ | ⟨b, p, -, -, -, -, -, he⟩
  · rw [he]
    exact hs h
  · rw [he]
    exact stored_of_set hs hmark hround h
  · rw [he]
    exact stored_of_set (n := e.commit b) hs hmark hround h

omit [StateBackend B] in
theorem finalize_pending_stored (hs : ∀ h, Stored set known h (e.round h)) (now h : UInt64) :
    Stored set known h ((e.finalize_pending now).2.round h) :=
  e.finalize_pending_preserves (P := fun e => ∀ h, Stored set known h (e.round h))
    (fun _ hash now he => finalize_stored he hash now) now hs h

theorem propose_stored (hs : ∀ h, Stored set known h (e.round h)) (hset : e.validator_set = set)
    (height : UInt64) (transactions : List Transaction) (now : UInt64)
    (hknown : ∀ b, (e.propose height transactions now).1 = .ok b →
      b.header.height = height → b.header.proposer = e.local_address.bytes → known b) (h : UInt64) :
    Stored set known h ((e.propose height transactions now).2.round h) := by
  rcases e.propose_cases height transactions now with
    ⟨-, he⟩ | ⟨hp, ⟨err, set', -, he⟩ | ⟨root, -, -, he⟩⟩
  · rw [he]
    exact hs h
  · rw [he]
    exact hs h
  · have hb := hknown _ (by rw [he]) rfl rfl
    rw [hset] at hp
    rw [he]
    refine stored_of_set (k := height) hs ?_ (fun h => set_round_round ..) h
    exact ((hs height).put _ rfl hp hb).insert (by simp) rfl rfl

/-! ## What a call leaves as it is -/

omit [StateBackend B] in
theorem finalize_pending_same (now : UInt64) :
    (e.finalize_pending now).2.local_address = e.local_address ∧
      SameVotes e (e.finalize_pending now).2 := by
  refine e.finalize_pending_preserves
    (P := fun e' => e'.local_address = e.local_address ∧ SameVotes e e') ?_ now
    ⟨rfl, rfl, fun _ => rfl⟩
  rintro e' hash now ⟨hlocal, hsame⟩
  have hmark := mark_same_votes e'
  rcases e'.finalize_cases hash now with he | ⟨-, -, he⟩ | ⟨b, p, -, -, -, -, -, he⟩
  · rw [he]
    exact ⟨hlocal, hsame⟩
  · rw [he]
    exact ⟨hlocal, hsame.set, fun h => (hmark.votes h).trans (hsame.votes h)⟩
  · rw [he]
    exact ⟨hlocal, hsame.set, fun h => (hmark.votes h).trans (hsame.votes h)⟩

omit [StateBackend B] in
theorem handle_block_same (b : Block) :
    (e.handle_block b).2.local_address = e.local_address ∧
      (e.handle_block b).2.validator_set = e.validator_set := by
  rcases e.handle_block_cases b with ⟨err, -, he⟩ | ⟨-, he⟩
  · rw [he]
    exact ⟨rfl, rfl⟩
  · rw [he]
    exact ⟨rfl, rfl⟩

omit [StateBackend B] [Crates] in
theorem handle_vote_same (v : Vote) :
    (e.handle_vote v).2.local_address = e.local_address ∧
      (e.handle_vote v).2.validator_set = e.validator_set := by
  rcases e.handle_vote_cases v with ⟨err, -, he⟩ | ⟨-, he⟩
  · rw [he]
    exact ⟨rfl, rfl⟩
  · rw [he]
    exact ⟨rfl, rfl⟩

theorem propose_local_address (height : UInt64) (transactions : List Transaction) (now : UInt64) :
    (e.propose height transactions now).2.local_address = e.local_address := by
  rcases e.propose_cases height transactions now with
    ⟨-, he⟩ | ⟨-, ⟨err, set, -, he⟩ | ⟨root, -, -, he⟩⟩
  · rw [he]
  · rw [he]
  · rw [he]
    rfl

/-- The votes of the others in the second engine were in the first, or one of them is the
vote that came in. -/
def TakesVotes (e e' : BftConsensus B) (came : Option Vote) : Prop :=
  ∀ h a v, (e'.round h).votes[a]? = some v → a ≠ e.local_address →
    (e.round h).votes[a]? = some v ∨ came = some v ∧ a = ⟨v.voter⟩ ∧ h = v.height

omit [StateBackend B] [Crates] in
theorem takesVotes_of_insert {e' : BftConsensus B} {k : UInt64} {r : RoundState}
    (hround : ∀ h, e'.round h = if k = h then r else e.round h)
    (hvotes : ∀ a, a ≠ e.local_address → r.votes[a]? = (e.round k).votes[a]?) :
    TakesVotes e e' none := by
  intro h a v hv hne
  rw [hround] at hv
  split at hv
  · rename_i heq
    subst heq
    rw [hvotes a hne] at hv
    exact Or.inl hv
  · exact Or.inl hv

omit [StateBackend B] [Crates] in
/-- The local vote is the only one that a local action writes. -/
theorem getElem?_insert_local {votes : ExtTreeMap Address Vote} {me a : Address} (v : Vote)
    (hne : a ≠ me) : (votes.insert me v)[a]? = votes[a]? := by
  rw [ExtTreeMap.getElem?_insert, if_neg]
  rw [LawfulEqCmp.compare_eq_iff_eq]
  exact hne.symm

omit [StateBackend B] in
theorem handle_block_takes (b : Block) : TakesVotes e (e.handle_block b).2 none := by
  rcases e.handle_block_cases b with ⟨err, -, he⟩ | ⟨-, he⟩
  · rw [he]
    exact fun h a v hv _ => Or.inl hv
  · rw [he]
    refine takesVotes_of_insert (k := b.header.height) (fun h => set_round_round ..) ?_
    intro a hne
    unfold admitted
    dsimp only
    split
    · rfl
    · exact getElem?_insert_local _ hne

omit [StateBackend B] [Crates] in
theorem handle_vote_takes (v : Vote) : TakesVotes e (e.handle_vote v).2 (some v) := by
  rcases e.handle_vote_cases v with ⟨err, -, he⟩ | ⟨-, he⟩
  · rw [he]
    exact fun h a v hv _ => Or.inl hv
  · rw [he]
    intro h a v' hv' _
    rw [record_vote_round] at hv'
    split at hv'
    · rename_i heq
      subst heq
      rw [ExtTreeMap.getElem?_insert] at hv'
      split at hv'
      · rename_i heq
        cases hv'
        exact Or.inr ⟨rfl, (LawfulEqCmp.eq_of_compare heq).symm, rfl⟩
      · exact Or.inl hv'
    · exact Or.inl hv'

theorem propose_takes (height : UInt64) (transactions : List Transaction) (now : UInt64) :
    TakesVotes e (e.propose height transactions now).2 none := by
  rcases e.propose_cases height transactions now with
    ⟨-, he⟩ | ⟨-, ⟨err, set, -, he⟩ | ⟨root, -, -, he⟩⟩
  · rw [he]
    exact fun h a v hv _ => Or.inl hv
  · rw [he]
    exact fun h a v hv _ => Or.inl hv
  · rw [he]
    exact takesVotes_of_insert (k := height) (fun h => set_round_round ..)
      fun a hne => getElem?_insert_local _ hne

end BftConsensus

end Pemrix
