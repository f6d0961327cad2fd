-- The law of delivery: where the powers of the voters for a block fit in a
-- `u64`, an engine that only receives ends with the same log in whatever order
-- the blocks and votes come, as long as each vote comes after its block.
import Pemrix.VotingPower
import Pemrix.FinalLog

open Std

namespace Pemrix

/-- A message that an engine receives. -/
inductive Delivery where
  | block (b : Block)
  | vote (v : Vote)
  deriving DecidableEq

/-- Some copy of the vote comes after a copy of the block. -/
def ComesAfter (b : Block) (v : Vote) : List Delivery → Prop
  | [] => False
  | m :: rest => (m = .block b ∧ .vote v ∈ rest) ∨ ComesAfter b v rest

theorem comesAfter_append {b : Block} {v : Vote} {done : List Delivery} {m : Delivery}
    (h : ComesAfter b v (done ++ [m])) :
    ComesAfter b v done ∨ (m = .vote v ∧ .block b ∈ done) := by
  induction done with
  | nil => simp [ComesAfter] at h
  | cons x rest ih =>
    rcases h with ⟨hx, hv⟩ | h
    · rcases List.mem_append.mp hv with hv | hv
      · exact Or.inl (Or.inl ⟨hx, hv⟩)
      · exact Or.inr ⟨(List.mem_singleton.mp hv).symm, by rw [hx]; exact List.mem_cons_self⟩
    · rcases ih h with h | ⟨hm, hb⟩
      · exact Or.inl (Or.inr h)
      · exact Or.inr ⟨hm, List.mem_cons_of_mem x hb⟩

variable {B : Type} [Crates]

/-- The messages of a run: at most one block for a height, each from the proposer of its
height, and any votes. -/
structure Family (set : ValidatorSet) where
  blocks : List Block
  votes : List Vote
  unique : ∀ b ∈ blocks, ∀ b' ∈ blocks, b.header.height = b'.header.height → b = b'
  proposer : ∀ b ∈ blocks, set.proposer b.header.height 0 = some ⟨b.header.proposer⟩

namespace Family

variable {set : ValidatorSet} (F : Family set) (me : Address)

/-- The local validator and the voters for the block. -/
def Backs (b : Block) (a : Address) : Prop :=
  a = me ∨ ∃ v ∈ F.votes, v.height = b.header.height ∧ v.block_hash = b.hash ∧ v.voter = a.bytes

instance (b : Block) : DecidablePred (F.Backs me b) := fun _ => inferInstanceAs (Decidable (_ ∨ _))

/-- The power of the local validator and of the set members that voted for the block. -/
def backing (b : Block) : Nat := set.validators.weight (F.Backs me b)

/-- The block of the height is in the family with the power of a quorum behind it. -/
def Final (h : Nat) : Prop :=
  ∃ b ∈ F.blocks, b.header.height.toNat = h ∧ set.quorum_threshold.toNat ≤ F.backing me b

/-- The sequence has only messages of the family, with each block, and each vote after the
block of its height. -/
structure Delivers (seq : List Delivery) : Prop where
  blocks : ∀ b, .block b ∈ seq → b ∈ F.blocks
  votes : ∀ v, .vote v ∈ seq → v ∈ F.votes
  every_block : ∀ b ∈ F.blocks, .block b ∈ seq
  every_vote : ∀ v ∈ F.votes, .vote v ∈ seq
  after : ∀ v ∈ F.votes, ∀ b ∈ F.blocks, b.header.height = v.height → ComesAfter b v seq

end Family

/-- One turn of the network loop: the message, and then `finalize_pending`. -/
def BftConsensus.deliver (e : BftConsensus B) (now : UInt64) : Delivery → BftConsensus B
  | .block b => ((e.handle_block b).2.finalize_pending now).2
  | .vote v => ((e.handle_vote v).2.finalize_pending now).2

/-- The turns of a sequence of messages, each with the clock at it. -/
def BftConsensus.deliver_all (e : BftConsensus B) (seq : List (Delivery × UInt64)) :
    BftConsensus B :=
  seq.foldl (fun e m => e.deliver m.2 m.1) e

/-! ## The invariant -/

section Invariant

variable {set : ValidatorSet} (F : Family set) (me : Address)

/-- A round holds the block of the family for its height and only votes for it, with the
local one. -/
structure RoundTracks (h : UInt64) (r : RoundState) : Prop where
  block : ∀ {b : Block}, r.block = some b → b ∈ F.blocks ∧ b.header.height = h ∧ 0 < h ∧
    ∃ p, r.proposal = some p ∧ p.block_hash = b.hash
  proposal : r.proposal ≠ none → r.block ≠ none
  votes : ∀ {a : Address}, a ∈ r.votes → ∃ b, r.block = some b ∧ F.Backs me b a
  own : r.block ≠ none → me ∈ r.votes

/-- The engine has what the messages so far allow, and nothing else. -/
structure Tracks (genesis : Hash) (done : List Delivery) (e : BftConsensus B) : Prop extends
    FinalLog genesis e where
  is_local : e.local_address = me
  is_set : e.validator_set = set
  rounds : ∀ h, RoundTracks F me h (e.round h)
  flag : ∀ {h : UInt64}, e.height < h → (e.round h).finalized = false
  voted : ∀ {h : UInt64}, (h, me) ∈ e.voted_this_height → (e.round h).block ≠ none
  log_block : ∀ {h : UInt64} {b : Block}, e.finalized[h]? = some b →
    (e.round h).block = some b ∧ set.quorum_threshold.toNat ≤ F.backing me b
  stored : ∀ b ∈ F.blocks, .block b ∈ done → 0 < b.header.height →
    (e.round b.header.height).block = some b
  counted : ∀ b ∈ F.blocks, ∀ v ∈ F.votes, ComesAfter b v done → v.height = b.header.height →
    v.block_hash = b.hash → set.is_validator ⟨v.voter⟩ = true →
    ⟨v.voter⟩ ∈ (e.round v.height).votes ∨ v.height ≤ e.height

end Invariant

namespace Tracks

variable {set : ValidatorSet} {F : Family set} {me : Address} {genesis : Hash}
  {done done' : List Delivery} {e e' : BftConsensus B}

/-- Round 0 has no block, so it has no proposal. -/
theorem zero (ht : Tracks F me genesis done e) : (e.round 0).proposal = none := by
  by_contra hp
  obtain ⟨b, hb⟩ := Option.ne_none_iff_exists'.mp ((ht.rounds 0).proposal hp)
  exact absurd ((ht.rounds 0).block hb).2.2.1 (by decide)

theorem ready (ht : Tracks F me genesis done e) : e.Ready :=
  ⟨ht.zero, fun _ hp => (ht.rounds _).proposal hp, fun hh => ht.flag hh⟩

/-- A final height has the block of the family. -/
theorem block_of_height (ht : Tracks F me genesis done e) {b : Block} (hb : b ∈ F.blocks)
    (hpos : 0 < b.header.height) (hle : b.header.height ≤ e.height) :
    (e.round b.header.height).block = some b := by
  have hmem : b.header.height ∈ e.finalized := by
    rw [ht.heights, ← UInt64.le_iff_toNat_le]
    have := UInt64.lt_iff_toNat_lt.mp hpos
    rw [UInt64.toNat_zero] at this
    exact ⟨this, hle⟩
  obtain ⟨b', hb'⟩ := Option.isSome_iff_exists.mp (ExtTreeMap.mem_iff_isSome_getElem?.mp hmem)
  have hround := (ht.log_block hb').1
  obtain ⟨hin, hheight, -⟩ := (ht.rounds _).block hround
  rw [F.unique b' hin b hb hheight] at hround
  exact hround

/-- A message that changes nothing. -/
theorem refused (ht : Tracks F me genesis done e)
    (hstored : ∀ b ∈ F.blocks, .block b ∈ done' → .block b ∈ done ∨ b.header.height ≤ e.height)
    (hcounted : ∀ b ∈ F.blocks, ∀ v ∈ F.votes, ComesAfter b v done' → v.height = b.header.height →
      v.block_hash = b.hash → set.is_validator ⟨v.voter⟩ = true →
      ComesAfter b v done ∨ v.height ≤ e.height) : Tracks F me genesis done' e := by
  refine { ht with stored := ?_, counted := ?_ }
  · intro b hb hmem hpos
    rcases hstored b hb hmem with hmem | hle
    · exact ht.stored b hb hmem hpos
    · exact ht.block_of_height hb hpos hle
  · intro b hb v hv hafter hheight hhash hval
    rcases hcounted b hb v hv hafter hheight hhash hval with hafter | hle
    · exact ht.counted b hb v hv hafter hheight hhash hval
    · exact Or.inr hle

/-- A message that changes the round of one height above the log: the round keeps what it
has, and what is new in the messages is in it. -/
theorem set_round (ht : Tracks F me genesis done e) {k : UInt64} {r : RoundState}
    (hlocal : e'.local_address = e.local_address) (hset : e'.validator_set = e.validator_set)
    (hfin : e'.finalized = e.finalized) (hheight : e'.height = e.height)
    (hprev : e'.previous_hash = e.previous_hash)
    (hround : ∀ h, e'.round h = if k = h then r else e.round h) (hk : e.height < k)
    (hr : RoundTracks F me k r) (hflag : r.finalized = false)
    (hvoted : ∀ h, (h, me) ∈ e'.voted_this_height →
      (h, me) ∈ e.voted_this_height ∨ (h = k ∧ r.block ≠ none))
    (hblock : ∀ b, (e.round k).block = some b → r.block = some b)
    (hvotes : ∀ a, a ∈ (e.round k).votes → a ∈ r.votes)
    (hstored : ∀ b ∈ F.blocks, .block b ∈ done' → .block b ∈ done ∨
      (b.header.height = k ∧ r.block = some b))
    (hcounted : ∀ b ∈ F.blocks, ∀ v ∈ F.votes, ComesAfter b v done' →
      ComesAfter b v done ∨ (v.height = k ∧ ⟨v.voter⟩ ∈ r.votes)) :
    Tracks F me genesis done' e' := by
  have hkeep : ∀ {h b}, (e.round h).block = some b → (e'.round h).block = some b := by
    intro h b hb
    rw [hround]
    split
    · rename_i heq
      subst heq
      exact hblock b hb
    · exact hb
  refine ⟨(ht.toFinalLog.of_same_log hfin hheight hprev).1, hlocal.trans ht.is_local,
    hset.trans ht.is_set, ?_, ?_, ?_, ?_, ?_, ?_⟩
  · intro h
    rw [hround]
    split
    · rename_i heq
      subst heq
      exact hr
    · exact ht.rounds h
  · intro h hh
    rw [hheight] at hh
    rw [hround]
    split
    · exact hflag
    · exact ht.flag hh
  · intro h hv
    rcases hvoted h hv with hold | ⟨rfl, hnew⟩
    · obtain ⟨b, hb⟩ := Option.ne_none_iff_exists'.mp (ht.voted hold)
      rw [hkeep hb]
      simp
    · rw [hround, if_pos rfl]
      exact hnew
  · intro h b hb
    rw [hfin] at hb
    obtain ⟨hin, hq⟩ := ht.log_block hb
    exact ⟨hkeep hin, hq⟩
  · intro b hb hmem hpos
    rcases hstored b hb hmem with hold | ⟨heq, hnew⟩
    · exact hkeep (ht.stored b hb hold hpos)
    · rw [hround, if_pos heq.symm]
      exact hnew
  · intro b hb v hv hafter hvh hhash hval
    rw [hheight]
    rcases hcounted b hb v hv hafter with hold | ⟨heq, hnew⟩
    · rcases ht.counted b hb v hv hold hvh hhash hval with hin | hle
      · refine Or.inl ?_
        rw [hround]
        split
        · rename_i heq
          subst heq
          exact hvotes _ hin
        · exact hin
      · exact Or.inr hle
    · refine Or.inl ?_
      rw [hround, if_pos heq.symm]
      exact hnew

/-! ## What each method preserves -/

theorem handle_block (ht : Tracks F me genesis done e) (b : Block) (hb : b ∈ F.blocks) :
    Tracks F me genesis (done ++ [.block b]) (e.handle_block b).2 := by
  have hafter : ∀ {b' v}, ComesAfter b' v (done ++ [.block b]) → ComesAfter b' v done := by
    intro b' v h
    rcases comesAfter_append h with h | ⟨h, -⟩
    · exact h
    · cases h
  have hmem : ∀ b', .block b' ∈ done ++ [.block b] → .block b' ∈ done ∨ b' = b := by
    intro b' h
    rcases List.mem_append.mp h with h | h
    · exact Or.inl h
    · exact Or.inr (Delivery.block.inj (List.mem_singleton.mp h))
  rcases e.handle_block_cases b with ⟨err, herr, he⟩ | ⟨hok, he⟩
  · -- The proposer is the right one, so the height is already final.
    have hle : b.header.height ≤ e.height := by
      by_contra hlt
      have hok := (e.validate_proposal_ok (p := .from_block b)).mpr
        ⟨by show e.height < b.header.height; grind, by rw [ht.is_set]; exact F.proposer b hb⟩
      rw [hok] at herr
      cases herr
    rw [he]
    refine ht.refused ?_ fun b' _ v _ h _ _ _ => Or.inl (hafter h)
    intro b' _ h
    rcases hmem b' h with h | rfl
    · exact Or.inl h
    · exact Or.inr hle
  · rw [he]
    have hlt : e.height < b.header.height := (e.validate_proposal_ok.mp hok).1
    have hold : ∀ {b'}, (e.round b.header.height).block = some b' → b' = b := by
      intro b' hb'
      obtain ⟨hin, hheight, -⟩ := (ht.rounds _).block hb'
      exact F.unique b' hin b hb hheight
    have hvotes : ∀ a, a ∈ (e.admitted (.from_block b) (some b)).votes ↔
        a ∈ (e.round b.header.height).votes ∨
          (a = me ∧ (b.header.height, me) ∉ e.voted_this_height) := by
      intro a
      unfold BftConsensus.admitted
      rw [ht.is_local]
      by_cases hvoted : (b.header.height, me) ∈ e.voted_this_height
      · simp [Proposal.from_block, hvoted]
      · simp only [Proposal.from_block, hvoted, if_false, ExtTreeMap.mem_insert,
          LawfulEqCmp.compare_eq_iff_eq, not_false_eq_true, and_true]
        rw [or_comm, eq_comm]
    refine ht.set_round (k := b.header.height)
      (r := e.admitted (.from_block b) (some b)) rfl rfl rfl
      rfl rfl (fun k => e.set_round_round _ _ _) hlt ⟨?_, ?_, ?_, ?_⟩ (ht.flag hlt) ?_ ?_ ?_ ?_ ?_
    · rintro _ ⟨⟩
      exact ⟨hb, rfl, by grind, _, rfl, rfl⟩
    · intro _
      simp [BftConsensus.admitted]
    · intro a ha
      refine ⟨b, rfl, ?_⟩
      rcases (hvotes a).mp ha with ha | ⟨rfl, -⟩
      · obtain ⟨b', hb', hbacks⟩ := (ht.rounds _).votes ha
        rwa [hold hb'] at hbacks
      · exact Or.inl rfl
    · intro _
      rw [hvotes]
      by_cases hvoted : (b.header.height, me) ∈ e.voted_this_height
      · exact Or.inl ((ht.rounds _).own (ht.voted hvoted))
      · exact Or.inr ⟨rfl, hvoted⟩
    · intro h hv
      simp only [BftConsensus.admitting, ExtTreeSet.mem_insert, LawfulEqCmp.compare_eq_iff_eq,
        Prod.mk.injEq] at hv
      rcases hv with ⟨heq, -⟩ | hv
      · exact Or.inr ⟨heq.symm, by simp [BftConsensus.admitted]⟩
      · exact Or.inl hv
    · intro b' hb'
      rw [hold hb']
      rfl
    · intro a ha
      exact (hvotes a).mpr (Or.inl ha)
    · intro b' _ h
      rcases hmem b' h with h | rfl
      · exact Or.inl h
      · exact Or.inr ⟨rfl, rfl⟩
    · intro b' _ v _ h
      exact Or.inl (hafter h)

theorem handle_vote (ht : Tracks F me genesis done e) (v : Vote) (hv : v ∈ F.votes) :
    Tracks F me genesis (done ++ [.vote v]) (e.handle_vote v).2 := by
  have hmem : ∀ b, .block b ∈ done ++ [.vote v] → .block b ∈ done := by
    intro b h
    rcases List.mem_append.mp h with h | h
    · exact h
    · cases List.mem_singleton.mp h
  rcases e.handle_vote_cases v with ⟨err, herr, he⟩ | ⟨hok, he⟩
  · rw [he]
    refine ht.refused (fun b _ h => Or.inl (hmem b h)) ?_
    intro b hb v' _ h hheight hhash hval
    rcases comesAfter_append h with h | ⟨heq, hin⟩
    · exact Or.inl h
    · -- A vote after its block is refused only when the height is already final.
      cases heq
      refine Or.inr ?_
      by_contra hlt
      have hlt : e.height < v.height := by grind
      have hblock := ht.stored b hb hin (by grind)
      rw [← hheight] at hblock
      obtain ⟨-, -, -, p, hp, hhash'⟩ := (ht.rounds _).block hblock
      have hok := e.validate_vote_ok.mpr
        ⟨hlt, by rw [ht.is_set]; exact hval, p, hp, hhash'.trans hhash.symm⟩
      rw [hok] at herr
      cases herr
  · rw [he]
    obtain ⟨hlt, hval, p, hp, hhash⟩ := e.validate_vote_ok.mp hok
    obtain ⟨b, hb⟩ := Option.ne_none_iff_exists'.mp ((ht.rounds v.height).proposal (by simp [hp]))
    obtain ⟨hin, hheight, hpos, p', hp', hhash'⟩ := (ht.rounds v.height).block hb
    rw [hp] at hp'
    cases hp'
    have hvotes : ∀ a, a ∈ ((e.round v.height).votes.insert ⟨v.voter⟩ v) ↔
        (⟨v.voter⟩ : Address) = a ∨ a ∈ (e.round v.height).votes := by
      intro a
      simp only [ExtTreeMap.mem_insert, LawfulEqCmp.compare_eq_iff_eq]
    refine ht.set_round (k := v.height)
      (r := { e.round v.height with votes := (e.round v.height).votes.insert ⟨v.voter⟩ v })
      rfl rfl rfl
      rfl rfl (fun k => e.set_round_round _ _ _) hlt
      ⟨(ht.rounds v.height).block, (ht.rounds v.height).proposal, ?_, ?_⟩ (ht.flag hlt)
      (fun h h' => Or.inl h') (fun _ h => h) ?_ (fun b _ h => Or.inl (hmem b h)) ?_
    · intro a ha
      rcases (hvotes a).mp ha with rfl | ha
      · exact ⟨b, hb, Or.inr ⟨v, hv, hheight.symm, hhash.symm.trans hhash', rfl⟩⟩
      · exact (ht.rounds v.height).votes ha
    · intro h
      exact (hvotes me).mpr (Or.inr ((ht.rounds v.height).own h))
    · intro a ha
      exact (hvotes a).mpr (Or.inr ha)
    · intro b' _ v' _ h
      rcases comesAfter_append h with h | ⟨heq, -⟩
      · exact Or.inl h
      · cases heq
        exact Or.inr ⟨rfl, (hvotes _).mpr (Or.inl rfl)⟩

/-- The voters of a round are behind its block. -/
theorem votes_le_backing (ht : Tracks F me genesis done e) {h : UInt64} {b : Block}
    (hb : (e.round h).block = some b) :
    (e.validator_set.validators.weight fun a => a ∈ (e.round h).votes) ≤ F.backing me b := by
  rw [ht.is_set]
  refine ExtTreeMap.weight_mono ?_
  intro a ha
  obtain ⟨b', hb', hbacks⟩ := (ht.rounds h).votes ha
  rw [hb] at hb'
  cases hb'
  exact hbacks

theorem finalize (ht : Tracks F me genesis done e) (hfits : ∀ b ∈ F.blocks, F.backing me b < 2 ^ 64)
    (hash : Hash) (now : UInt64) : Tracks F me genesis done (e.finalize hash now).2 := by
  rcases e.finalize_cases hash now with he | ⟨hnone, hp, he⟩ | ⟨b, p, hb, hp, -, hq, -, he⟩
  · rw [he]
    exact ht
  · exact absurd hnone ((ht.rounds _).proposal hp)
  · rw [he]
    obtain ⟨hin, hheight, hpos, -⟩ := (ht.rounds _).block hb
    have hne : e.height + 1 ≠ 0 := by grind
    have hbacking : set.quorum_threshold.toNat ≤ F.backing me b := by
      have hle := ht.votes_le_backing hb
      rw [BftConsensus.has_quorum_iff, UInt64.le_iff_toNat_le,
        BftConsensus.toNat_vote_power e _ (Nat.lt_of_le_of_lt hle (hfits b hin)), ht.is_set] at hq
      rw [ht.is_set] at hle
      exact Nat.le_trans hq hle
    have hround : ∀ h, ((e.commit b).round h).block = (e.round h).block ∧
        ((e.commit b).round h).votes = (e.round h).votes ∧
        ((e.commit b).round h).proposal = (e.round h).proposal := by
      intro h
      rw [BftConsensus.commit_round]
      split
      · exact ⟨rfl, rfl, rfl⟩
      · exact ⟨rfl, rfl, rfl⟩
    refine ⟨(ht.toFinalLog.commit hheight (toNat_succ_of_ne_zero hne)).1, ht.is_local, ht.is_set,
      ?_, ?_, ?_, ?_, ?_, ?_⟩
    · intro h
      obtain ⟨h1, h2, h3⟩ := hround h
      refine ⟨?_, ?_, ?_, ?_⟩
      · rw [h1, h3]
        exact (ht.rounds h).block
      · rw [h1, h3]
        exact (ht.rounds h).proposal
      · rw [h1, h2]
        exact (ht.rounds h).votes
      · rw [h1, h2]
        exact (ht.rounds h).own
    · intro h hh
      change e.height + 1 < h at hh
      rw [BftConsensus.commit_round, if_neg (by grind)]
      exact ht.flag (by grind)
    · intro h hv
      rw [(hround h).1]
      simp only [BftConsensus.commit, ExtTreeSet.mem_filter] at hv
      exact ht.voted hv.1
    · intro h b' hb'
      rw [getElem?_commit] at hb'
      rw [(hround h).1]
      split at hb'
      · rename_i heq
        subst heq
        cases hb'
        exact ⟨hb, hbacking⟩
      · exact ht.log_block hb'
    · intro b' hb' hmem hpos'
      rw [(hround _).1]
      exact ht.stored b' hb' hmem hpos'
    · intro b' hb' v hv hafter hvh hhash hval
      rw [(hround _).2.1]
      rcases ht.counted b' hb' v hv hafter hvh hhash hval with h | hle
      · exact Or.inl h
      · refine Or.inr ?_
        show v.height ≤ e.height + 1
        grind

/-- What one turn preserves, and that it leaves no quorum behind. -/
theorem deliver (ht : Tracks F me genesis done e) (hfits : ∀ b ∈ F.blocks, F.backing me b < 2 ^ 64)
    (m : Delivery) (hblock : ∀ b, m = .block b → b ∈ F.blocks)
    (hvote : ∀ v, m = .vote v → v ∈ F.votes) (now : UInt64) :
    Tracks F me genesis (done ++ [m]) (e.deliver now m) ∧ (e.deliver now m).Idle := by
  have hpending : ∀ {e' : BftConsensus B}, Tracks F me genesis (done ++ [m]) e' →
      Tracks F me genesis (done ++ [m]) (e'.finalize_pending now).2 ∧
        (e'.finalize_pending now).2.Idle := by
    intro e' ht'
    refine ⟨?_, BftConsensus.finalize_pending_idle ht'.ready now⟩
    exact e'.finalize_pending_preserves (P := Tracks F me genesis (done ++ [m]))
      (fun _ hash now h => h.finalize hfits hash now) now ht'
  cases m with
  | block b => exact hpending (ht.handle_block b (hblock b rfl))
  | vote v => exact hpending (ht.handle_vote v (hvote v rfl))

/-- What a whole sequence preserves. -/
theorem deliver_all (ht : Tracks F me genesis done e) (hidle : e.Idle)
    (hfits : ∀ b ∈ F.blocks, F.backing me b < 2 ^ 64) (seq : List (Delivery × UInt64))
    (hblocks : ∀ b, .block b ∈ seq.map (·.1) → b ∈ F.blocks)
    (hvotes : ∀ v, .vote v ∈ seq.map (·.1) → v ∈ F.votes) :
    Tracks F me genesis (done ++ seq.map (·.1)) (e.deliver_all seq) ∧ (e.deliver_all seq).Idle := by
  induction seq generalizing done e with
  | nil =>
    rw [List.map_nil, List.append_nil]
    exact ⟨ht, hidle⟩
  | cons m rest ih =>
    rw [List.map_cons] at hblocks hvotes ⊢
    obtain ⟨ht', hidle'⟩ := ht.deliver hfits m.1
      (fun b hb => hblocks b (by rw [← hb]; exact List.mem_cons_self))
      (fun v hv => hvotes v (by rw [← hv]; exact List.mem_cons_self)) m.2
    have hrest := ih ht' hidle' (fun b hb => hblocks b (List.mem_cons_of_mem _ hb))
      fun v hv => hvotes v (List.mem_cons_of_mem _ hv)
    rwa [List.append_assoc] at hrest

/-- An engine that has received nothing. -/
theorem new (F : Family set) (me : Address) (state : StateStore B) (genesis : Hash) :
    Tracks F me genesis [] (BftConsensus.new_with_store me set state genesis) := by
  have hround := BftConsensus.new_round me set state genesis
  have hempty : ∀ a, a ∉ (default : RoundState).votes := by
    intro a
    show a ∉ (∅ : ExtTreeMap Address Vote)
    simp
  refine ⟨(new_growing me set state genesis).toFinalLog, rfl, rfl, ?_, ?_, ?_, ?_, ?_, ?_⟩
  · intro h
    rw [hround]
    refine ⟨fun hb => ?_, fun hp => absurd rfl hp, fun ha => absurd ha (hempty _),
      fun hb => absurd rfl hb⟩
    cases hb
  · intro h _
    rw [hround]
    rfl
  · intro h hv
    simp [BftConsensus.new_with_store] at hv
  · intro h b hb
    simp [BftConsensus.new_with_store] at hb
  · intro b _ hmem
    cases hmem
  · intro b _ v _ hafter
    exact absurd hafter id

end Tracks

/-! ## The outcome -/

/-- The height is the largest one up to which all heights are final, and the log holds the
blocks of these heights. -/
structure Family.Settles {set : ValidatorSet} (F : Family set) (me : Address) (genesis : Hash)
    (e : BftConsensus B) : Prop where
  reached : ∀ h, 1 ≤ h → h ≤ e.height.toNat → F.Final me h
  largest : ¬ F.Final me (e.height.toNat + 1)
  log : ∀ (h : UInt64) b, e.finalized[h]? = some b ↔
    b ∈ F.blocks ∧ b.header.height = h ∧ 1 ≤ h.toNat ∧ h.toNat ≤ e.height.toNat
  tip : e.height = 0 ∧ e.previous_hash = genesis ∨
    ∃ b, e.finalized[e.height]? = some b ∧ e.previous_hash = b.hash

section Outcome

variable {set : ValidatorSet} {F : Family set} {me : Address} {genesis : Hash}
  {e e' : BftConsensus B}

/-- After all messages, with no quorum left behind. -/
theorem Tracks.settles {seq : List Delivery} (ht : Tracks F me genesis seq e) (hidle : e.Idle)
    (hfits : ∀ b ∈ F.blocks, F.backing me b < 2 ^ 64) (hseq : F.Delivers seq) :
    F.Settles me genesis e := by
  refine ⟨?_, ?_, ?_, ht.tip⟩
  · intro h h1 hle
    have hlt : h < 2 ^ 64 := Nat.lt_of_le_of_lt hle e.height.toNat_lt
    have hmem : UInt64.ofNat h ∈ e.finalized := by
      rw [ht.heights, UInt64.toNat_ofNat_of_lt' hlt]
      exact ⟨h1, hle⟩
    obtain ⟨b, hb⟩ := Option.isSome_iff_exists.mp (ExtTreeMap.mem_iff_isSome_getElem?.mp hmem)
    obtain ⟨hround, hq⟩ := ht.log_block hb
    obtain ⟨hin, hheight, -⟩ := (ht.rounds _).block hround
    exact ⟨b, hin, by rw [hheight, UInt64.toNat_ofNat_of_lt' hlt], hq⟩
  · rintro ⟨b, hb, hheight, hq⟩
    have hnext : b.header.height = e.height + 1 := by
      refine UInt64.toNat_inj.mp ?_
      have := b.header.height.toNat_lt
      rw [hheight, toNat_succ (by omega)]
    have hpos : 0 < b.header.height := by
      rw [UInt64.lt_iff_toNat_lt, hheight, UInt64.toNat_zero]
      omega
    have hlt : e.height < b.header.height := by
      rw [UInt64.lt_iff_toNat_lt, hheight]
      omega
    have hround := ht.stored b hb (hseq.every_block b hb) hpos
    -- Every member behind the block has its vote in the round.
    have hback : F.backing me b ≤ set.validators.weight fun a =>
        a ∈ (e.round b.header.height).votes := by
      refine ExtTreeMap.weight_mono_of_mem ?_
      rintro a w hw (rfl | ⟨v, hv, hvh, hhash, hvoter⟩)
      · exact (ht.rounds _).own (by simp [hround])
      · have haddr : (⟨v.voter⟩ : Address) = a := by rw [hvoter]
        have hval : set.is_validator ⟨v.voter⟩ = true := by
          rw [haddr]
          exact ExtTreeMap.mem_iff_contains.mp
            (ExtTreeMap.mem_iff_isSome_getElem?.mpr (by rw [hw]; rfl))
        rcases ht.counted b hb v hv (hseq.after v hv b hb hvh.symm) hvh hhash hval with h | hle
        · rwa [haddr, hvh] at h
        · exact absurd hlt (by grind)
    have hpower : e.has_quorum (e.height + 1) = true := by
      rw [← hnext, BftConsensus.has_quorum_iff, UInt64.le_iff_toNat_le,
        BftConsensus.toNat_vote_power e _
          (Nat.lt_of_le_of_lt (ht.votes_le_backing hround) (hfits b hb)), ht.is_set]
      exact Nat.le_trans hq hback
    obtain ⟨-, -, -, p, hp, -⟩ := (ht.rounds _).block hround
    rw [hnext] at hp
    rw [hidle (by simp [hp])] at hpower
    cases hpower
  · intro h b
    constructor
    · intro hb
      obtain ⟨hround, -⟩ := ht.log_block hb
      obtain ⟨hin, hheight, -⟩ := (ht.rounds _).block hround
      have hmem : h ∈ e.finalized := by
        rw [ExtTreeMap.mem_iff_isSome_getElem?, hb]
        rfl
      exact ⟨hin, hheight, (ht.heights h).mp hmem⟩
    · rintro ⟨hin, hheight, hbounds⟩
      obtain ⟨b', hb'⟩ := Option.isSome_iff_exists.mp
        (ExtTreeMap.mem_iff_isSome_getElem?.mp ((ht.heights h).mpr hbounds))
      obtain ⟨hround, -⟩ := ht.log_block hb'
      obtain ⟨hin', hheight', -⟩ := (ht.rounds _).block hround
      rw [hb', F.unique b' hin' b hin (hheight'.trans hheight.symm)]

/-- The outcome is determined by the family. -/
theorem Family.Settles.eq (h : F.Settles me genesis e) (h' : F.Settles me genesis e') :
    e.height = e'.height ∧ e.finalized = e'.finalized ∧ e.previous_hash = e'.previous_hash := by
  have hheight : e.height = e'.height := by
    refine UInt64.toNat_inj.mp ?_
    rcases Nat.lt_trichotomy e.height.toNat e'.height.toNat with hlt | heq | hgt
    · exact absurd (h'.reached _ (Nat.le_add_left 1 _) hlt) h.largest
    · exact heq
    · exact absurd (h.reached _ (Nat.le_add_left 1 _) hgt) h'.largest
  have hlog : e.finalized = e'.finalized := by
    apply ExtTreeMap.ext_getElem?
    intro k
    ext b
    rw [h.log, h'.log, hheight]
  refine ⟨hheight, hlog, ?_⟩
  have hnone : ∀ {b : Block}, e.height = 0 → e.finalized[e.height]? ≠ some b := by
    intro b h0 hb
    have := ((h.log _ _).mp hb).2.2.1
    rw [h0] at this
    exact absurd this (by decide)
  rcases h.tip with ⟨h0, hp⟩ | ⟨b, hb, hp⟩
  · rcases h'.tip with ⟨-, hp'⟩ | ⟨b', hb', -⟩
    · rw [hp, hp']
    · rw [← hheight, ← hlog] at hb'
      exact absurd hb' (hnone h0)
  · rcases h'.tip with ⟨h0, -⟩ | ⟨b', hb', hp'⟩
    · exact absurd hb (hnone (hheight.trans h0))
    · rw [← hheight, ← hlog, hb] at hb'
      cases hb'
      rw [hp, hp']

end Outcome

/-- Where the powers behind each block fit in a `u64`, any two sequences that deliver the
family end with the same height, log and tip, which the family alone determines. -/
theorem delivery_order_does_not_matter (me : Address) (set : ValidatorSet) (state : StateStore B)
    (genesis : Hash) (F : Family set) (hfits : ∀ b ∈ F.blocks, F.backing me b < 2 ^ 64)
    (seq seq' : List (Delivery × UInt64)) (h : F.Delivers (seq.map (·.1)))
    (h' : F.Delivers (seq'.map (·.1))) :
    let e := (BftConsensus.new_with_store me set state genesis).deliver_all seq
    let e' := (BftConsensus.new_with_store me set state genesis).deliver_all seq'
    e.height = e'.height ∧ e.finalized = e'.finalized ∧ e.previous_hash = e'.previous_hash ∧
      F.Settles me genesis e := by
  have hidle : (BftConsensus.new_with_store me set state genesis).Idle := by
    intro hp
    rw [BftConsensus.new_round] at hp
    exact absurd rfl hp
  have hsettles : ∀ seq : List (Delivery × UInt64), F.Delivers (seq.map (·.1)) →
      F.Settles me genesis
        ((BftConsensus.new_with_store me set state genesis).deliver_all seq) := by
    intro seq hseq
    obtain ⟨ht, hidle'⟩ := (Tracks.new F me state genesis).deliver_all hidle hfits seq hseq.blocks
      hseq.votes
    exact ht.settles hidle' hfits hseq
  obtain ⟨h1, h2, h3⟩ := (hsettles seq h).eq (hsettles seq' h')
  exact ⟨h1, h2, h3, hsettles seq h⟩

end Pemrix

/-! ## Two votes in two orders -/

namespace Pemrix.Concrete

/-- The first block, and the votes of two more validators for it. -/
def votes_for_first (set : ValidatorSet) (hset : set.proposer 1 0 = some (addr 2)) :
    Family set where
  blocks := [first]
  votes := [vote_for first (addr 2), vote_for first (addr 3)]
  unique b hb b' hb' _ := (List.mem_singleton.mp hb).trans (List.mem_singleton.mp hb').symm
  proposer b hb := by
    rw [List.mem_singleton.mp hb]
    exact hset

/-- The block and then the two votes, in either order. -/
def block_and_votes (a a' : Address) : List (Delivery × UInt64) :=
  [(.block first, 30), (.vote (vote_for first a), 31), (.vote (vote_for first a'), 32)]

theorem delivers_block_and_votes {set : ValidatorSet} (hset : set.proposer 1 0 = some (addr 2))
    {a a' : Address} (ha : a = addr 2 ∧ a' = addr 3 ∨ a = addr 3 ∧ a' = addr 2) :
    (votes_for_first set hset).Delivers ((block_and_votes a a').map (·.1)) := by
  rcases ha with ⟨rfl, rfl⟩ | ⟨rfl, rfl⟩
  all_goals
    refine ⟨?_, ?_, ?_, ?_, ?_⟩
    · simp [block_and_votes, votes_for_first]
    · simp [block_and_votes, votes_for_first]
    · simp [block_and_votes, votes_for_first]
    · simp [block_and_votes, votes_for_first]
    · simp [block_and_votes, votes_for_first, ComesAfter]

/-- Powers of which two sum to `u64::MAX` and three to `2^64`. -/
def heavy : ValidatorSet :=
  .from_validators [⟨addr 1, 1⟩, ⟨addr 2, 18446744073709551614⟩, ⟨addr 3, 1⟩, ⟨addr 4, 3⟩]

theorem heavy_proposer : heavy.proposer 1 0 = some (addr 2) := by decide +kernel

/-- The sum of the powers wraps: with the large vote first the block is finalized, with the
small one first it never is. -/
theorem order_matters_where_the_power_wraps :
    (votes_for_first heavy heavy_proposer).Delivers
      ((block_and_votes (addr 2) (addr 3)).map (·.1)) ∧
    (votes_for_first heavy heavy_proposer).Delivers
      ((block_and_votes (addr 3) (addr 2)).map (·.1)) ∧
    ((engine heavy (addr 1)).deliver_all (block_and_votes (addr 2) (addr 3))).height = 1 ∧
    ((engine heavy (addr 1)).deliver_all (block_and_votes (addr 3) (addr 2))).height = 0 :=
  ⟨delivers_block_and_votes heavy_proposer (Or.inl ⟨rfl, rfl⟩),
    delivers_block_and_votes heavy_proposer (Or.inr ⟨rfl, rfl⟩),
    by decide +kernel, by decide +kernel⟩

theorem four_proposer : four.proposer 1 0 = some (addr 2) := by decide +kernel

/-- Four equal validators end alike in both orders, with the block in the log. -/
theorem both_orders_end_alike :
    let e := (engine four (addr 1)).deliver_all (block_and_votes (addr 2) (addr 3))
    let e' := (engine four (addr 1)).deliver_all (block_and_votes (addr 3) (addr 2))
    e.height = 1 ∧ e.height = e'.height ∧ e.finalized = e'.finalized ∧
      e.previous_hash = e'.previous_hash ∧
      (votes_for_first four four_proposer).Settles (addr 1) default e := by
  refine ⟨by decide +kernel, delivery_order_does_not_matter (addr 1) four .new_in_memory default
    (votes_for_first four four_proposer) ?_ _ _
    (delivers_block_and_votes four_proposer (Or.inl ⟨rfl, rfl⟩))
    (delivers_block_and_votes four_proposer (Or.inr ⟨rfl, rfl⟩))⟩
  intro b hb
  rw [List.mem_singleton.mp hb]
  decide +kernel

end Pemrix.Concrete
