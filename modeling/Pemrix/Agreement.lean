-- The law of agreement: honest engines over links that authenticate the sender,
-- with less than a third of the power in other hands. Where no engine takes a
-- second block in the place of the first, no two of them finalize different
-- blocks of one height.
import Pemrix.OwnVotes
import Pemrix.Rounds

open Std

namespace Pemrix

variable {B : Type} [StateBackend B] [Crates]

/-! ## The network -/

/-- The engines of the honest validators, the blocks and votes that they have broadcast, and
the heights for which they have proposed. -/
structure Network (B : Type) where
  engine : Address → BftConsensus B
  blocks : List Block
  votes : List Vote
  proposed : List (Address × UInt64)

/-- What an honest validator does next. A message that was broadcast can be delivered to each
peer any number of times, or never. -/
inductive NetworkStep where
  | propose (u : Address) (height : UInt64) (transactions : List Transaction) (now : UInt64)
  | broadcast_block (u : Address) (height : UInt64)
  | broadcast_vote (u : Address) (height : UInt64)
  | deliver_block (u : Address) (block : Block)
  | deliver_vote (u : Address) (vote : Vote)
  | finalize_pending (u : Address) (now : UInt64)

namespace Network

omit [StateBackend B] [Crates] in
def set_engine (N : Network B) (u : Address) (e : BftConsensus B) : Network B :=
  { N with engine := fun a => if a = u then e else N.engine a }

/-- The network after a step. A vote that `handle_block` returns is broadcast at once. -/
def step (N : Network B) : NetworkStep → Network B
  | .propose u height transactions now =>
    let (r, e) := (N.engine u).propose height transactions now
    { N.set_engine u e with
      proposed := match r with
        | .ok _ => (u, height) :: N.proposed
        | .error _ => N.proposed }
  | .broadcast_block u height =>
    { N with blocks := ((N.engine u).own_proposal height).toList ++ N.blocks }
  | .broadcast_vote u height =>
    { N with votes := ((N.engine u).own_vote height).toList ++ N.votes }
  | .deliver_block u block =>
    let (r, e) := (N.engine u).handle_block block
    { N.set_engine u e with votes := r.toOption.toList ++ N.votes }
  | .deliver_vote u vote => N.set_engine u ((N.engine u).handle_vote vote).2
  | .finalize_pending u now => N.set_engine u ((N.engine u).finalize_pending now).2

/-- The rules of the node and of the links: a validator proposes once for a height, from 1 on,
and a message in the name of an honest validator is one that it has sent. The others send what
they like in their own names. The set stays as it is. -/
def Allowed (set : ValidatorSet) (honest : Address → Bool) (N : Network B) : NetworkStep → Prop
  | .propose u height transactions now => honest u ∧ 0 < height ∧ (u, height) ∉ N.proposed ∧
      ((N.engine u).propose height transactions now).2.validator_set = set
  | .broadcast_block u _ => honest u
  | .broadcast_vote u _ => honest u
  | .deliver_block u b => honest u ∧ (b ∈ N.blocks ∨ ¬ honest ⟨b.header.proposer⟩)
  | .deliver_vote u v => honest u ∧ (v ∈ N.votes ∨ ¬ honest ⟨v.voter⟩)
  | .finalize_pending u _ => honest u

instance (set : ValidatorSet) (honest : Address → Bool) (N : Network B) :
    DecidablePred (N.Allowed set honest)
  | .propose .. => inferInstanceAs (Decidable (_ ∧ _ ∧ _ ∧ _))
  | .broadcast_block u _ => inferInstanceAs (Decidable (honest u))
  | .broadcast_vote u _ => inferInstanceAs (Decidable (honest u))
  | .deliver_block .. => inferInstanceAs (Decidable (_ ∧ (_ ∨ _)))
  | .deliver_vote .. => inferInstanceAs (Decidable (_ ∧ (_ ∨ _)))
  | .finalize_pending u _ => inferInstanceAs (Decidable (honest u))

omit [StateBackend B] in
/-- A block that passes the check of the engine does not meet another proposal for its height:
what the engine leaves to the proposers. -/
def Unrivalled (N : Network B) : NetworkStep → Prop
  | .deliver_block u b => (N.engine u).Unchallenged (.handle_block b)
  | _ => True

instance (N : Network B) : DecidablePred N.Unrivalled
  | .deliver_block u b => inferInstanceAs (Decidable ((N.engine u).Unchallenged (.handle_block b)))
  | .propose .. => inferInstanceAs (Decidable True)
  | .broadcast_block .. => inferInstanceAs (Decidable True)
  | .broadcast_vote .. => inferInstanceAs (Decidable True)
  | .deliver_vote .. => inferInstanceAs (Decidable True)
  | .finalize_pending .. => inferInstanceAs (Decidable True)

def run (N : Network B) (steps : List NetworkStep) : Network B := steps.foldl step N

/-- Each step of the run meets a condition on the network before it. -/
def Follows (C : Network B → NetworkStep → Prop) (N : Network B) : List NetworkStep → Prop
  | [] => True
  | s :: steps => C N s ∧ Follows C (N.step s) steps

instance followsDecidable {C : Network B → NetworkStep → Prop} [∀ N, DecidablePred (C N)]
    (N : Network B) : (steps : List NetworkStep) → Decidable (Follows C N steps)
  | [] => inferInstanceAs (Decidable True)
  | s :: steps =>
    have := followsDecidable (C := C) (N.step s) steps
    inferInstanceAs (Decidable (_ ∧ _))

omit [StateBackend B] [Crates] in
/-- New engines, with a store and a first hash for each validator. -/
def start (set : ValidatorSet) (state : Address → StateStore B) (genesis : Address → Hash) :
    Network B :=
  { engine := fun u => .new_with_store u set (state u) (genesis u), blocks := [], votes := [],
    proposed := [] }

end Network

/-! ## The invariant -/

namespace Network

variable (set : ValidatorSet) (honest : Address → Bool) (N : Network B)

omit [StateBackend B] [Crates] in
/-- A block from an honest validator is one that it has proposed. -/
def Known (b : Block) : Prop :=
  honest ⟨b.header.proposer⟩ →
    ((⟨b.header.proposer⟩, b.header.height) : Address × UInt64) ∈ N.proposed

omit [StateBackend B] [Crates] in
/-- The local vote of the validator for the height is for the block with the hash. -/
def Cast (a : Address) (h : UInt64) (hash : Hash) : Prop :=
  ((N.engine a).own_vote h).map (·.block_hash) = some hash

instance (a : Address) (h : UInt64) (hash : Hash) : Decidable (N.Cast a h hash) :=
  inferInstanceAs (Decidable (_ = _))

omit [StateBackend B] [Crates] in
/-- The validator may count for the block: if it is honest, it has voted for it. -/
def Backs (h : UInt64) (hash : Hash) (a : Address) : Prop := honest a → N.Cast a h hash

instance (h : UInt64) (hash : Hash) : DecidablePred (N.Backs honest h hash) :=
  fun _ => inferInstanceAs (Decidable (_ → _))

omit [StateBackend B] in
/-- What holds of one honest engine in the network. -/
structure EngineSound (u : Address) (e : BftConsensus B) : Prop where
  is_local : e.local_address = u
  is_set : e.validator_set = set
  agree : e.RoundsAgree
  once : e.VotesOnce
  stored : ∀ h, BftConsensus.Stored set (N.Known honest) h (e.round h)
  received : ∀ a, honest a → ∀ h v, (e.round h).votes[a]? = some v → N.Cast a h v.block_hash
  final : ∀ h b, e.finalized[h]? = some b →
    set.quorum_threshold.toNat ≤ set.validators.weight (N.Backs honest h b.hash)

omit [StateBackend B] in
/-- The honest engines are sound, and so is all that was broadcast. -/
structure Sound : Prop where
  engines : ∀ u, honest u → N.EngineSound set honest u (N.engine u)
  blocks : ∀ b ∈ N.blocks, N.Known honest b
  votes : ∀ v ∈ N.votes, honest ⟨v.voter⟩ → N.Cast ⟨v.voter⟩ v.height v.block_hash

variable {set honest} {N N' : Network B}

omit [StateBackend B] in
/-- An engine that does not move stays sound, as long as the votes of the others stay. -/
theorem EngineSound.mono {u : Address} {e : BftConsensus B} (hs : N.EngineSound set honest u e)
    (hknown : ∀ b, N.Known honest b → N'.Known honest b)
    (hcast : ∀ a, honest a → ∀ h hash, N.Cast a h hash → N'.Cast a h hash) :
    N'.EngineSound set honest u e := by
  refine ⟨hs.is_local, hs.is_set, hs.agree, hs.once, fun h => (hs.stored h).mono hknown, ?_, ?_⟩
  · intro a ha h v hv
    exact hcast a ha h _ (hs.received a ha h v hv)
  · intro h b hb
    exact Nat.le_trans (hs.final h b hb)
      (ExtTreeMap.weight_mono fun a hback ha => hcast a ha h _ (hback ha))

variable (N') in
/-- One engine takes a call: the engines stay sound, and the votes that were cast stay. -/
theorem Sound.call (hs : N.Sound set honest) (hpower : 2 * set.total < 2 ^ 64) {u : Address}
    (hu : honest u) (c : EngineCall) (came : Option Vote)
    (hengine : ∀ a, N'.engine a = if a = u then c.apply (N.engine u) else N.engine a)
    (hknown : ∀ b, N.Known honest b → N'.Known honest b)
    (hlocal : (c.apply (N.engine u)).local_address = (N.engine u).local_address)
    (hset : (c.apply (N.engine u)).validator_set = set) (hguard : (N.engine u).Guarded c)
    (hfree : (N.engine u).Unchallenged c)
    (hstored : ∀ h, BftConsensus.Stored set (N'.Known honest) h ((c.apply (N.engine u)).round h))
    (htakes : BftConsensus.TakesVotes (N.engine u) (c.apply (N.engine u)) came)
    (hcame : ∀ v, came = some v → honest ⟨v.voter⟩ → N.Cast ⟨v.voter⟩ v.height v.block_hash) :
    (∀ a, honest a → N'.EngineSound set honest a (N'.engine a)) ∧
      ∀ a, honest a → ∀ h hash, N.Cast a h hash → N'.Cast a h hash := by
  have he := hs.engines u hu
  obtain ⟨honce, hkeep⟩ := BftConsensus.apply_votes_once c he.once hguard
  obtain ⟨hagree, hcert⟩ :=
    BftConsensus.apply_certifies c he.agree (by rw [he.is_set]; exact hpower) hfree
  have hself : N'.engine u = c.apply (N.engine u) := by rw [hengine, if_pos rfl]
  have hcast : ∀ a, honest a → ∀ h hash, N.Cast a h hash → N'.Cast a h hash := by
    intro a _ h hash hc
    unfold Cast at hc ⊢
    by_cases ha : a = u
    · subst ha
      obtain ⟨v, hv, hhash⟩ := Option.map_eq_some_iff.mp hc
      obtain ⟨v', hv', hhash'⟩ := hkeep h v hv
      rw [hself, hv', Option.map_some, hhash', hhash]
    · rw [hengine, if_neg ha]
      exact hc
  refine ⟨fun a ha => ?_, hcast⟩
  by_cases hau : a = u
  · subst hau
    rw [hself]
    have hreceived : ∀ b, honest b → ∀ h v,
        ((c.apply (N.engine a)).round h).votes[b]? = some v → N'.Cast b h v.block_hash := by
      intro b hb h v hv
      by_cases hba : b = a
      · -- The own vote is the one that was cast.
        subst hba
        unfold Cast
        rw [hself, BftConsensus.own_vote_eq, hlocal, he.is_local, hv]
        rfl
      · rcases htakes h b v hv (by rw [he.is_local]; exact hba) with hold | ⟨hin, rfl, rfl⟩
        · exact hcast b hb h _ (he.received b hb h v hold)
        · exact hcast _ hb _ _ (hcame v hin hb)
    refine ⟨hlocal.trans he.is_local, hset, hagree, honce, hstored, hreceived, ?_⟩
    intro h b hb
    rcases hcert h b hb with hold | hnew
    · exact Nat.le_trans (he.final h b hold)
        (ExtTreeMap.weight_mono fun w hback hw => hcast w hw h _ (hback hw))
    · unfold BftConsensus.support at hnew
      rw [hset] at hnew
      refine Nat.le_trans hnew (ExtTreeMap.weight_mono ?_)
      intro w hvote hw
      obtain ⟨v, hv, hhash⟩ := Option.map_eq_some_iff.mp hvote
      rw [← hhash]
      exact hreceived w hw h v hv
  · rw [hengine, if_neg hau]
    exact (hs.engines a ha).mono hknown hcast

/-! ## What each step preserves -/

omit [StateBackend B] in
/-- The proposer of a height that has not proposed for it has nothing in the round. -/
theorem Sound.unproposed (hs : N.Sound set honest) {u : Address} (hu : honest u) {height : UInt64}
    (hp : (N.engine u).validator_set.proposer height 0 = some (N.engine u).local_address)
    (hnot : (u, height) ∉ N.proposed) :
    ((N.engine u).round height).proposal = none ∧ (N.engine u).own_vote height = none := by
  have he := hs.engines u hu
  rw [he.is_set, he.is_local] at hp
  have hnone : ((N.engine u).round height).proposal = none := by
    by_contra hsome
    obtain ⟨b, hb⟩ := Option.ne_none_iff_exists'.mp ((he.stored height).filled hsome)
    obtain ⟨hheight, hproposer, hknown⟩ := (he.stored height).block hb
    rw [hp, Option.some.injEq] at hproposer
    unfold Known at hknown
    rw [← hproposer, hheight] at hknown
    exact hnot (hknown hu)
  refine ⟨hnone, ?_⟩
  rw [BftConsensus.own_vote_eq]
  by_contra hsome
  obtain ⟨v, hv⟩ := Option.ne_none_iff_exists'.mp hsome
  exact ((he.stored height).voted hv).1 hnone

theorem Sound.propose (hs : N.Sound set honest) (hpower : 2 * set.total < 2 ^ 64) {u : Address}
    {height : UInt64} {transactions : List Transaction} {now : UInt64}
    (ha : N.Allowed set honest (.propose u height transactions now)) :
    (N.step (.propose u height transactions now)).Sound set honest := by
  obtain ⟨hu, hpos, hnot, hset⟩ := ha
  have he := hs.engines u hu
  have hmore : ∀ k ∈ N.proposed, k ∈ (N.step (.propose u height transactions now)).proposed := by
    intro k hk
    show k ∈ (match ((N.engine u).propose height transactions now).1 with
      | .ok _ => (u, height) :: N.proposed
      | .error _ => N.proposed)
    split
    · exact List.mem_cons_of_mem _ hk
    · exact hk
  have hknown : ∀ b, N.Known honest b →
      (N.step (.propose u height transactions now)).Known honest b :=
    fun b hb hh => hmore _ (hb hh)
  have hown : ∀ b, ((N.engine u).propose height transactions now).1 = .ok b →
      b.header.height = height → b.header.proposer = (N.engine u).local_address.bytes →
      (N.step (.propose u height transactions now)).Known honest b := by
    intro b hok hheight hproposer _
    show _ ∈ (match ((N.engine u).propose height transactions now).1 with
      | .ok _ => (u, height) :: N.proposed
      | .error _ => N.proposed)
    rw [hok, hheight, hproposer, he.is_local]
    exact List.mem_cons_self
  obtain ⟨hengines, hcast⟩ := hs.call (N.step (.propose u height transactions now)) hpower hu
    (.propose height transactions now) none (fun a => rfl) hknown
    (BftConsensus.propose_local_address height transactions now) hset
    (fun hp => ⟨hpos, (hs.unproposed hu hp hnot).2⟩)
    (fun hp => ⟨hpos, fun _ => (hs.unproposed hu hp hnot).1⟩)
    (BftConsensus.propose_stored (fun h => (he.stored h).mono hknown) he.is_set height transactions
      now hown)
    (BftConsensus.propose_takes height transactions now) (fun v hv => by cases hv)
  exact ⟨hengines, fun b hb => hknown b (hs.blocks b hb),
    fun v hv hh => hcast _ hh _ _ (hs.votes v hv hh)⟩

theorem Sound.deliver_block (hs : N.Sound set honest) (hpower : 2 * set.total < 2 ^ 64)
    {u : Address} {b : Block} (ha : N.Allowed set honest (.deliver_block u b))
    (hfree : N.Unrivalled (.deliver_block u b)) :
    (N.step (.deliver_block u b)).Sound set honest := by
  obtain ⟨hu, hsent⟩ := ha
  have he := hs.engines u hu
  have hb : N.Known honest b := by
    rcases hsent with hsent | hother
    · exact hs.blocks b hsent
    · exact fun hh => absurd hh hother
  obtain ⟨hlocal, hset⟩ := (N.engine u).handle_block_same b
  obtain ⟨hengines, hcast⟩ := hs.call (N.step (.deliver_block u b)) hpower hu
    (.handle_block b) none (fun a => rfl) (fun _ hk => hk) hlocal
    (hset.trans he.is_set) trivial hfree
    (BftConsensus.handle_block_stored he.stored he.is_set hb)
    (BftConsensus.handle_block_takes b) (fun v hv => by cases hv)
  refine ⟨hengines, hs.blocks, ?_⟩
  intro v hv hh
  change v ∈ ((N.engine u).handle_block b).1.toOption.toList ++ N.votes at hv
  rcases List.mem_append.mp hv with hv | hv
  · -- The vote that was returned is now the local one.
    have hret : ((N.engine u).handle_block b).1 = .ok v := by
      cases hr : ((N.engine u).handle_block b).1 with
      | error err =>
        rw [hr] at hv
        cases hv
      | ok w =>
        rw [hr, Except.toOption, Option.mem_toList] at hv
        cases hv
        rfl
    have hown := BftConsensus.own_vote_of_handle_block hret
    have hvote : v = (N.engine u).local_vote b.hash b.header.height 0 := by
      rcases (N.engine u).handle_block_cases b with ⟨err, -, hcase⟩ | ⟨-, hcase⟩
      · rw [hcase] at hret
        cases hret
      · rw [hcase] at hret
        dsimp only at hret
        split at hret
        · cases hret
        · exact (Except.ok.inj hret).symm
    have hvoter : (⟨v.voter⟩ : Address) = u := by
      rw [hvote]
      exact he.is_local
    have hheight : v.height = b.header.height := by rw [hvote]; rfl
    unfold Cast
    rw [hvoter, hheight]
    show (((if u = u then ((N.engine u).handle_block b).2 else _).own_vote b.header.height).map
      (·.block_hash)) = _
    rw [if_pos rfl, hown]
    rfl
  · exact hcast _ hh _ _ (hs.votes v hv hh)

theorem Sound.deliver_vote (hs : N.Sound set honest) (hpower : 2 * set.total < 2 ^ 64)
    {u : Address} {v : Vote} (ha : N.Allowed set honest (.deliver_vote u v)) :
    (N.step (.deliver_vote u v)).Sound set honest := by
  obtain ⟨hu, hsent⟩ := ha
  have he := hs.engines u hu
  have hv : honest ⟨v.voter⟩ → N.Cast ⟨v.voter⟩ v.height v.block_hash := by
    intro hh
    rcases hsent with hsent | hother
    · exact hs.votes v hsent hh
    · exact absurd hh hother
  -- A vote in the local name was cast by the engine itself.
  have hguard : (N.engine u).Guarded (.handle_vote v) := by
    intro hname _ own hown
    have haddr : (⟨v.voter⟩ : Address) = u := by rw [hname]; exact he.is_local
    have hcast := hv (by rw [haddr]; exact hu)
    unfold Cast at hcast
    rw [haddr, hown] at hcast
    exact (Option.some.inj hcast).symm
  obtain ⟨hlocal, hset⟩ := (N.engine u).handle_vote_same v
  obtain ⟨hengines, hcast⟩ := hs.call (N.step (.deliver_vote u v)) hpower hu
    (.handle_vote v) (some v) (fun a => rfl) (fun _ hk => hk) hlocal
    (hset.trans he.is_set) hguard trivial (BftConsensus.handle_vote_stored he.stored v)
    (BftConsensus.handle_vote_takes v) (fun w hw => by cases hw; exact hv)
  exact ⟨hengines, hs.blocks, fun w hw hh => hcast _ hh _ _ (hs.votes w hw hh)⟩

theorem Sound.finalize_pending (hs : N.Sound set honest) (hpower : 2 * set.total < 2 ^ 64)
    {u : Address} {now : UInt64} (hu : honest u) :
    (N.step (.finalize_pending u now)).Sound set honest := by
  have he := hs.engines u hu
  obtain ⟨hlocal, hsame⟩ := BftConsensus.finalize_pending_same (e := N.engine u) now
  have htakes :
      BftConsensus.TakesVotes (N.engine u) ((N.engine u).finalize_pending now).2 none := by
    intro h a v hv _
    rw [hsame.votes] at hv
    exact Or.inl hv
  obtain ⟨hengines, hcast⟩ := hs.call (N.step (.finalize_pending u now)) hpower hu
    (.finalize_pending now) none (fun a => rfl) (fun _ hk => hk) hlocal
    (hsame.set.trans he.is_set) trivial trivial
    (BftConsensus.finalize_pending_stored he.stored now) htakes (fun v hv => by cases hv)
  exact ⟨hengines, hs.blocks, fun v hv hh => hcast _ hh _ _ (hs.votes v hv hh)⟩

theorem Sound.broadcast_block (hs : N.Sound set honest) {u : Address} {height : UInt64}
    (hu : honest u) : (N.step (.broadcast_block u height)).Sound set honest := by
  refine ⟨fun a ha => ?_, ?_, hs.votes⟩
  · have he := hs.engines a ha
    exact ⟨he.is_local, he.is_set, he.agree, he.once, he.stored, he.received, he.final⟩
  · intro b hb
    rcases List.mem_append.mp hb with hb | hb
    · rw [Option.mem_toList, BftConsensus.own_proposal_eq] at hb
      exact (((hs.engines u hu).stored height).block hb).2.2
    · exact hs.blocks b hb

theorem Sound.broadcast_vote (hs : N.Sound set honest) {u : Address} {height : UInt64}
    (hu : honest u) : (N.step (.broadcast_vote u height)).Sound set honest := by
  have he := hs.engines u hu
  refine ⟨fun a ha => ?_, hs.blocks, ?_⟩
  · have he := hs.engines a ha
    exact ⟨he.is_local, he.is_set, he.agree, he.once, he.stored, he.received, he.final⟩
  · intro v hv hh
    rcases List.mem_append.mp hv with hv | hv
    · rw [Option.mem_toList] at hv
      have hround := hv
      rw [BftConsensus.own_vote_eq, he.is_local] at hround
      obtain ⟨-, hvoter, hheight⟩ := (he.stored height).voted hround
      show ((N.engine ⟨v.voter⟩).own_vote v.height).map (·.block_hash) = _
      rw [hvoter, hheight, hv]
      rfl
    · exact hs.votes v hv hh

/-- What one step preserves. -/
theorem Sound.step (hs : N.Sound set honest) (hpower : 2 * set.total < 2 ^ 64) {s : NetworkStep}
    (ha : N.Allowed set honest s) (hfree : N.Unrivalled s) : (N.step s).Sound set honest := by
  cases s with
  | propose u height transactions now => exact hs.propose hpower ha
  | broadcast_block u height => exact hs.broadcast_block ha
  | broadcast_vote u height => exact hs.broadcast_vote ha
  | deliver_block u b => exact hs.deliver_block hpower ha hfree
  | deliver_vote u v => exact hs.deliver_vote hpower ha
  | finalize_pending u now => exact hs.finalize_pending hpower ha

/-! ## Runs -/

/-- What a whole run preserves. -/
theorem Sound.run (hpower : 2 * set.total < 2 ^ 64) {steps : List NetworkStep}
    (hs : N.Sound set honest) (ha : N.Follows (Allowed set honest) steps)
    (hfree : N.Follows Unrivalled steps) : (N.run steps).Sound set honest := by
  induction steps generalizing N with
  | nil => exact hs
  | cons s steps ih => exact ih (hs.step hpower ha.1 hfree.1) ha.2 hfree.2

omit [StateBackend B] in
theorem start_sound (set : ValidatorSet) (honest : Address → Bool) (state : Address → StateStore B)
    (genesis : Address → Hash) : (start set state genesis).Sound set honest := by
  refine ⟨fun u _ => ?_, fun b hb => ?_, fun v hv => ?_⟩
  · have hround := BftConsensus.new_round u set (state u) (genesis u)
    refine ⟨rfl, rfl, BftConsensus.new_rounds_agree u set (state u) (genesis u),
      BftConsensus.new_votes_once u set (state u) (genesis u), ?_, ?_, ?_⟩
    · intro h
      show BftConsensus.Stored set _ h
        ((BftConsensus.new_with_store u set (state u) (genesis u)).round h)
      rw [hround]
      refine ⟨fun hb => ?_, fun hp => absurd rfl hp, fun hv => ?_⟩
      · cases hb
      · change (∅ : ExtTreeMap Address Vote)[_]? = some _ at hv
        simp at hv
    · intro a _ h v hv
      change ((BftConsensus.new_with_store u set (state u) (genesis u)).round h).votes[a]? =
        some v at hv
      rw [hround] at hv
      change (∅ : ExtTreeMap Address Vote)[a]? = some v at hv
      simp at hv
    · intro h b hb
      change (∅ : ExtTreeMap UInt64 Block)[h]? = some b at hb
      simp at hb
  · cases hb
  · cases hv

/-- With less than a third of the power in other hands, in every run in which no honest engine
takes a block in the place of another one, no two honest engines finalize blocks with different
hashes at one height. -/
theorem honest_engines_agree (set : ValidatorSet) (honest : Address → Bool)
    (state : Address → StateStore B) (genesis : Address → Hash)
    (hpower : 2 * set.total < 2 ^ 64)
    (hothers : 3 * set.validators.weight (fun a => ¬ honest a) < set.total)
    (steps : List NetworkStep)
    (ha : (start set state genesis).Follows (Allowed set honest) steps)
    (hfree : (start set state genesis).Follows Unrivalled steps) :
    let N := (start set state genesis).run steps
    ∀ u w, honest u → honest w → ∀ (h : UInt64) b b', (N.engine u).finalized[h]? = some b →
      (N.engine w).finalized[h]? = some b' → b.hash = b'.hash := by
  intro N u w hu hw h b b' hb hb'
  have hs := (start_sound set honest state genesis).run hpower ha hfree
  have hq := ValidatorSet.two_thirds_of_quorum hpower ((hs.engines u hu).final h b hb)
  have hq' := ValidatorSet.two_thirds_of_quorum hpower ((hs.engines w hw).final h b' hb')
  obtain ⟨a, hback, hback', hhonest⟩ := ExtTreeMap.exists_common_voter hq hq' hothers
  -- The honest validator in both quorums has one vote for the height.
  have hcast := hback (not_not.mp hhonest)
  have hcast' := hback' (not_not.mp hhonest)
  unfold Cast at hcast hcast'
  rw [hcast] at hcast'
  exact Option.some.inj hcast'

end Network

end Pemrix

/-! ## Four validators, one of them dishonest -/

namespace Pemrix.Concrete

open Network

/-- The second validator, the proposer of height 1, is the dishonest one. -/
def honest (a : Address) : Bool := a ≠ addr 2

def four_nodes : Network InMemoryBackend := start four (fun _ => .new_in_memory) (fun _ => default)

/-- A block at a node, and `finalize_pending` after it. -/
def block_at (u : Address) (b : Block) : List NetworkStep :=
  [.deliver_block u b, .finalize_pending u 30]

/-- A vote at a node, and `finalize_pending` after it. -/
def vote_at (u : Address) (b : Block) (voter : Address) : List NetworkStep :=
  [.deliver_vote u (vote_for b voter), .finalize_pending u 30]

/-- The first block at two nodes, the rival at the third node and at one of the two. -/
def split_steps : List NetworkStep :=
  block_at (addr 1) first ++ block_at (addr 3) first ++ block_at (addr 4) rival ++
    vote_at (addr 1) first (addr 2) ++ vote_at (addr 1) first (addr 3) ++
    block_at (addr 3) rival ++ vote_at (addr 3) rival (addr 2) ++ vote_at (addr 3) rival (addr 4)

/-- The dishonest validator holds a quarter of the power. It sends two blocks and votes for
both, and two honest engines finalize different ones. -/
theorem honest_engines_split :
    let N := four_nodes.run split_steps
    3 * four.validators.weight (fun a => ¬ honest a) < four.total ∧
      four_nodes.Follows (Allowed four honest) split_steps ∧
      (N.engine (addr 1)).finalized[(1 : UInt64)]? = some first ∧
      (N.engine (addr 3)).finalized[(1 : UInt64)]? = some rival ∧ first.hash ≠ rival.hash := by
  decide +kernel

/-- The first block and the votes for it at two nodes. -/
def joint_steps : List NetworkStep :=
  block_at (addr 1) first ++ block_at (addr 3) first ++ vote_at (addr 1) first (addr 2) ++
    vote_at (addr 1) first (addr 3) ++ vote_at (addr 3) first (addr 2) ++
    vote_at (addr 3) first (addr 1)

theorem joint_nodes_agree :
    let N := four_nodes.run joint_steps
    (N.engine (addr 1)).finalized[(1 : UInt64)]? = some first ∧
      ((N.engine (addr 3)).finalized[(1 : UInt64)]?.get (by decide +kernel)).hash = first.hash := by
  refine ⟨by decide +kernel, ?_⟩
  exact honest_engines_agree four honest (fun _ => .new_in_memory) (fun _ => default)
    (by decide +kernel) (by decide +kernel) joint_steps (by decide +kernel) (by decide +kernel)
    (addr 3) (addr 1) (by decide) (by decide) 1 _ first (Option.some_get _).symm (by decide +kernel)

end Pemrix.Concrete
