-- When the network that is bootstrapped as a chain finalizes height 1 everywhere: the
-- runs of two nodes, and with them and the chain of three or more the exact size.
import Pemrix.ChainGap
import Pemrix.TwoNodes

open Std

namespace Pemrix

open BftConsensus

namespace Cluster

/-! ## Two validators -/

/-- The proposer of height 1 and the other one of two validators. -/
structure Pair (validators : List Address) (p f : Nat) : Prop where
  nodup : validators.Nodup
  two : validators.length = 2
  lt : p < 2 ∧ f < 2
  ne : p ≠ f
  proposer : (equal_set validators).proposer 1 0 = some (address validators p)

section Pair

variable {validators : List Address} {p f : Nat}

theorem address_mem {i : Nat} (hi : i < validators.length) : address validators i ∈ validators := by
  rw [address, List.getD_eq_getElem?_getD, List.getElem?_eq_getElem hi]
  exact List.getElem_mem hi

theorem address_ne (hd : validators.Nodup) {i j : Nat} (hi : i < validators.length)
    (hj : j < validators.length) (hne : i ≠ j) : address validators i ≠ address validators j := by
  simp only [address, List.getD_eq_getElem?_getD, List.getElem?_eq_getElem hi,
    List.getElem?_eq_getElem hj, Option.getD_some]
  intro heq
  exact hne (hd.getElem_inj_iff.mp heq)

theorem is_validator_address {i : Nat} (hi : i < validators.length) :
    (equal_set validators).is_validator (address validators i) = true := by
  unfold ValidatorSet.is_validator
  exact ExtTreeMap.contains_iff_mem.mpr (mem_equal_set.mpr (address_mem hi))

theorem Pair.total (h : Pair validators p f) : (equal_set validators).total < 2 ^ 64 := by
  rw [equal_set_total h.nodup, h.two]
  decide

theorem Pair.threshold (h : Pair validators p f) :
    (equal_set validators).quorum_threshold.toNat = 2 := by
  rw [equal_set_threshold h.nodup (by rw [h.two]; decide), h.two]

theorem Pair.few (h : Pair validators p f) (a : Address) :
    (equal_set validators).validators.weight (· = a) <
      (equal_set validators).quorum_threshold.toNat := by
  rw [h.threshold]
  have hle : (equal_set validators).validators.weight (· = a) ≤ [a].length :=
    equal_set_weight_le [a] fun _ _ heq => List.mem_singleton.mpr heq
  simp only [List.length_cons, List.length_nil] at hle
  omega

/-- The two validators are a quorum. -/
theorem Pair.quorum (h : Pair validators p f) {i j : Nat} (hi : i < 2) (hj : j < 2) (hne : i ≠ j) :
    (equal_set validators).quorum_threshold.toNat ≤ (equal_set validators).validators.weight
      (· ∈ [address validators i, address validators j]) := by
  have hi : i < validators.length := h.two ▸ hi
  have hj : j < validators.length := h.two ▸ hj
  rw [h.threshold, equal_set_weight]
  · rfl
  · simpa using address_ne h.nodup hi hj hne
  · intro a ha
    rcases List.mem_cons.mp ha with rfl | ha
    · exact address_mem hi
    · rw [List.mem_singleton.mp ha]
      exact address_mem hj

theorem Pair.connected (h : Pair validators p f) :
    Connected validators.length p f ∧ Connected validators.length f p := by
  obtain ⟨hp, hf⟩ := h.lt
  have hne := h.ne
  rw [h.two, connected_iff, connected_iff]
  omega

theorem Pair.cases (h : Pair validators p f) {i : Nat} (hi : i < validators.length) :
    i = p ∨ i = f := by
  obtain ⟨hp, hf⟩ := h.lt
  have hne := h.ne
  rw [h.two] at hi
  omega

theorem Pair.link_cases (h : Pair validators p f) {i j : Nat}
    (hc : Connected validators.length i j) : i = p ∧ j = f ∨ i = f ∧ j = p := by
  obtain ⟨hp, hf⟩ := h.lt
  have hne := h.ne
  rw [h.two, connected_iff] at hc
  omega

end Pair

/-! ## The block on its way -/

variable [Crates] [VoteFormat] {validators : List Address}
  {allocations : ExtTreeMap Address Account} {p f : Nat} {b : Block} {N : Cluster}

/-- The network from the proposal for height 1 on. A vote of the proposer that was sent comes
after the block, and the other validator answers the block with its vote. -/
structure Serving (validators : List Address) (allocations : ExtTreeMap Address Account) (p f : Nat)
    (b : Block) (N : Cluster) : Prop where
  leader : Leading (equal_set validators) (genesis_store allocations) (address validators p) b
    (N.node p)
  follower : Following (equal_set validators) (genesis_store allocations) (address validators f) b
    (N.node f)
  from_leader : ∀ m ∈ N.link p f, Says (fun b' => b'.header.height = 1 → b' = b)
    (fun v => v.height = 1 → v = first_vote b (address validators p)) m
  from_follower : ∀ m ∈ N.link f p, Says (fun b' => b'.header.height ≠ 1)
    (fun v => v.height = 1 → v = first_vote b (address validators f)) m
  in_order : (N.node p).height = 1 → (N.node p).producing = .broadcast_vote →
    BlockComing (equal_set validators) (genesis_store allocations) (address validators f) b
      (N.link p f) (N.node f).consensus
  vote_out : ∀ v : Vote, v.height = 1 → (p, .Vote (encode v)) ∈ N.sent →
    VoteComing (equal_set validators) (genesis_store allocations) (address validators f) b
      (first_vote b (address validators p)) (N.link p f) (N.node f).consensus
  reply : Holding (equal_set validators) (genesis_store allocations) (address validators f) b
      (N.node f).consensus → Final (N.node p).consensus ∨
    (N.node f).receiving = .broadcast_vote (first_vote b (address validators f)) ∨
    .Vote (encode (first_vote b (address validators f))) ∈ N.link f p

/-- In the end both validators have finalized height 1. -/
theorem Serving.final (hN : Serving validators allocations p f b N) (hquiet : Quiet 2 N)
    (hp : p < 2) (hf : f < 2) {v : Vote} (hv : v.height = 1)
    (hsent : (p, .Vote (encode v)) ∈ N.sent) :
    Final (N.node p).consensus ∧ Final (N.node f).consensus := by
  have hfinal : Final (N.node f).consensus := by
    rcases hN.vote_out v hv hsent with hfinal | ⟨-, hmem⟩ | ⟨before, after, heq, -⟩
    · exact hfinal
    · rw [hquiet.1 p f hp hf] at hmem
      cases hmem
    · rw [hquiet.1 p f hp hf] at heq
      simp at heq
  refine ⟨?_, hfinal⟩
  have hholding := hN.follower.stage.resolve_left fun hfresh => hfinal.height hfresh.height
  rcases hN.reply hholding with hdone | hrec | hmem
  · exact hdone
  · rw [hquiet.2 f hf] at hrec
    cases hrec
  · rw [hquiet.1 f p hf hp] at hmem
    cases hmem

/-- A piece of the loops of the proposer. -/
theorem Serving.leader_moves (hpair : Pair validators p f)
    (hN : Serving validators allocations p f b N) {n : ValidatorNode InMemoryBackend}
    {out : List Message}
    (hlead : Leading (equal_set validators) (genesis_store allocations) (address validators p) b n)
    (hon : Onward (equal_set validators) (genesis_store allocations) (address validators p) b
      (N.node p).consensus n.consensus)
    (hout : ∀ m ∈ out, Says (fun b' => b'.header.height = 1 → b' = b)
      (fun v => v.height = 1 → v = first_vote b (address validators p)) m)
    (horder : n.height = 1 → n.producing = .broadcast_vote →
      ((N.node p).height = 1 ∧ (N.node p).producing = .broadcast_vote) ∨ .Block b ∈ out)
    (hvote : ∀ v : Vote, v.height = 1 → .Vote (encode v) ∈ out →
      (N.node p).height = 1 ∧ (N.node p).producing = .broadcast_vote ∧
        out = [.Vote (encode (first_vote b (address validators p)))]) :
    Serving validators allocations p f b (broadcast validators.length (N.set_node p n) p out) := by
  have hfp := hpair.ne.symm
  have hlink : (broadcast validators.length (N.set_node p n) p out).link p f = N.link p f ++ out :=
    if_pos ⟨rfl, hpair.connected.1⟩
  have hback : (broadcast validators.length (N.set_node p n) p out).link f p = N.link f p :=
    if_neg fun h => hfp h.1
  have hnode : (broadcast validators.length (N.set_node p n) p out).node p = n := set_node_self ..
  have hother : (broadcast validators.length (N.set_node p n) p out).node f = N.node f :=
    set_node_ne N n hfp
  refine ⟨?_, ?_, ?_, ?_, ?_, ?_, ?_⟩
  · rw [hnode]
    exact hlead
  · rw [hother]
    exact hN.follower
  · rw [hlink]
    intro m hm
    rcases List.mem_append.mp hm with hm | hm
    · exact hN.from_leader m hm
    · exact hout m hm
  · rw [hback]
    exact hN.from_follower
  · rw [hnode, hlink, hother]
    intro hone hprod
    rcases horder hone hprod with ⟨hone', hprod'⟩ | hb
    · exact (hN.in_order hone' hprod').append out
    · exact Or.inr (List.mem_append_right _ hb)
  · rw [hlink, hother]
    intro v hv hsent
    rcases List.mem_append.mp hsent with hsent | hsent
    · exact (hN.vote_out v hv hsent).append out
    · obtain ⟨m, hm, heq⟩ := List.mem_map.mp hsent
      cases heq
      obtain ⟨hone, hprod, rfl⟩ := hvote v hv hm
      exact (hN.in_order hone hprod).vote _
  · rw [hnode, hback, hother]
    intro hholding
    exact (hN.reply hholding).imp_left (hon.final hN.leader.holding.toLone)

/-- A piece of the loops of the other validator. -/
theorem Serving.follower_moves (hpair : Pair validators p f)
    (hN : Serving validators allocations p f b N) {n : ValidatorNode InMemoryBackend}
    {out : List Message}
    (hfollow : Following (equal_set validators) (genesis_store allocations)
      (address validators f) b n)
    (hon : Onward (equal_set validators) (genesis_store allocations) (address validators f) b
      (N.node f).consensus n.consensus)
    (hout : ∀ m ∈ out, Says (fun b' => b'.header.height ≠ 1)
      (fun v => v.height = 1 → v = first_vote b (address validators f)) m)
    (hanswer : (N.node f).receiving = .broadcast_vote (first_vote b (address validators f)) →
      n.receiving = (N.node f).receiving ∨
        .Vote (encode (first_vote b (address validators f))) ∈ out) :
    Serving validators allocations p f b (broadcast validators.length (N.set_node f n) f out) := by
  have hpf := hpair.ne
  have hlink : (broadcast validators.length (N.set_node f n) f out).link f p = N.link f p ++ out :=
    if_pos ⟨rfl, hpair.connected.2⟩
  have hback : (broadcast validators.length (N.set_node f n) f out).link p f = N.link p f :=
    if_neg fun h => hpf h.1
  have hnode : (broadcast validators.length (N.set_node f n) f out).node f = n := set_node_self ..
  have hother : (broadcast validators.length (N.set_node f n) f out).node p = N.node p :=
    set_node_ne N n hpf
  refine ⟨?_, ?_, ?_, ?_, ?_, ?_, ?_⟩
  · rw [hother]
    exact hN.leader
  · rw [hnode]
    exact hfollow
  · rw [hback]
    exact hN.from_leader
  · rw [hlink]
    intro m hm
    rcases List.mem_append.mp hm with hm | hm
    · exact hN.from_follower m hm
    · exact hout m hm
  · rw [hnode, hback, hother]
    intro hone hprod
    exact (hN.in_order hone hprod).onward hon
  · rw [hnode, hback]
    intro v hv hsent
    rcases List.mem_append.mp hsent with hsent | hsent
    · exact (hN.vote_out v hv hsent).onward hN.follower.lone hon
    · obtain ⟨m, hm, heq⟩ := List.mem_map.mp hsent
      cases heq
      exact absurd rfl hpf
  · rw [hnode, hlink, hother]
    intro hholding
    have hheld : Holding (equal_set validators) (genesis_store allocations)
        (address validators f) b (N.node f).consensus :=
      hN.follower.stage.resolve_left fun hfresh => (hon.fresh hfresh).not_holding hholding
    rcases hN.reply hheld with hfinal | hrec | hmem
    · exact Or.inl hfinal
    · rcases hanswer hrec with hsame | hmem
      · exact Or.inr (Or.inl (hsame.trans hrec))
      · exact Or.inr (Or.inr (List.mem_append_right _ hmem))
    · exact Or.inr (Or.inr (List.mem_append_left _ hmem))

/-- A message of the other validator arrives at the proposer. -/
theorem Serving.leader_receives (hpair : Pair validators p f)
    (hN : Serving validators allocations p f b N) {m : Message} {rest : List Message}
    (hm : N.link f p = m :: rest) (now : UInt64) :
    Serving validators allocations p f b
      { N.set_node p ((N.node p).receive now m) with
        link := fun i j => if i = f ∧ j = p then rest else N.link i j } := by
  have hlen := hpair.two
  have hp : p < validators.length := hlen ▸ hpair.lt.1
  have hf : f < validators.length := hlen ▸ hpair.lt.2
  have hne := address_ne hpair.nodup hf hp hpair.ne.symm
  have hsaid := hN.from_follower m (by rw [hm]; exact List.mem_cons_self)
  have hsaid' : Says (fun b => b.header.height ≠ 1)
      (fun v => v.height = 1 → v.voter ≠ (address validators p).bytes) m := by
    refine hsaid.mono (fun _ h => h) ?_
    intro v hv hone
    rw [hv hone]
    exact fun h => hne (congrArg Address.mk h)
  have hon : Onward (equal_set validators) (genesis_store allocations) (address validators p) b
      (N.node p).consensus ((N.node p).receive now m).consensus := receive_onward
    hpair.total (hpair.few (address validators p)) hsaid' now
  obtain ⟨hheight, -, hproducing⟩ := (N.node p).receive_position now m
  have hnode : (N.set_node p ((N.node p).receive now m)).node p = (N.node p).receive now m :=
    set_node_self ..
  have hother : (N.set_node p ((N.node p).receive now m)).node f = N.node f :=
    set_node_ne N _ hpair.ne.symm
  have hlink : (if p = f ∧ f = p then rest else N.link p f) = N.link p f :=
    if_neg fun h => hpair.ne h.1
  refine ⟨?_, ?_, ?_, ?_, ?_, ?_, ?_⟩
  · dsimp only
    rw [hnode]
    exact hN.leader.receive hpair.total (hpair.few _) hsaid' now
  · dsimp only
    rw [hother]
    exact hN.follower
  · dsimp only
    rw [hlink]
    exact hN.from_leader
  · dsimp only
    rw [if_pos ⟨rfl, rfl⟩]
    intro m' hm'
    refine hN.from_follower m' ?_
    rw [hm]
    exact List.mem_cons_of_mem m hm'
  · dsimp only
    rw [hnode, hother, hlink, hheight, hproducing]
    exact hN.in_order
  · dsimp only
    rw [hother, hlink]
    exact hN.vote_out
  · dsimp only
    rw [hnode, hother, if_pos ⟨rfl, rfl⟩]
    intro hholding
    rcases hN.reply hholding with hfinal | hrec | hmem
    · exact Or.inl (hon.final hN.leader.holding.toLone hfinal)
    · exact Or.inr (Or.inl hrec)
    · rw [hm] at hmem
      rcases List.mem_cons.mp hmem with heq | hmem
      · left
        rw [← heq]
        exact receive_first_vote hpair.total (hpair.few _) hN.leader.holding
          (is_validator_address hf) hne (hpair.quorum hpair.lt.1 hpair.lt.2 hpair.ne) now
      · exact Or.inr (Or.inr hmem)

/-- A message of the proposer arrives at the other validator. -/
theorem Serving.follower_receives (hpair : Pair validators p f)
    (hheight : b.header.height = 1) (hproposer : b.header.proposer = (address validators p).bytes)
    (hN : Serving validators allocations p f b N) {m : Message} {rest : List Message}
    (hm : N.link p f = m :: rest) (hidle : (N.node f).receiving = .next_event) (now : UInt64) :
    Serving validators allocations p f b
      { N.set_node f ((N.node f).receive now m) with
        link := fun i j => if i = p ∧ j = f then rest else N.link i j } := by
  have hlen := hpair.two
  have hp : p < validators.length := hlen ▸ hpair.lt.1
  have hf : f < validators.length := hlen ▸ hpair.lt.2
  have hne := address_ne hpair.nodup hp hf hpair.ne
  have hsaid := hN.from_leader m (by rw [hm]; exact List.mem_cons_self)
  have hnode : (N.set_node f ((N.node f).receive now m)).node f = (N.node f).receive now m :=
    set_node_self ..
  have hother : (N.set_node f ((N.node f).receive now m)).node p = N.node p :=
    set_node_ne N _ hpair.ne
  have hlink : (if f = p ∧ p = f then rest else N.link f p) = N.link f p :=
    if_neg fun h => hpair.ne h.2
  have hrest : ∀ m' ∈ rest, Says (fun b' => b'.header.height = 1 → b' = b)
      (fun v => v.height = 1 → v = first_vote b (address validators p)) m' := by
    intro m' hm'
    refine hN.from_leader m' ?_
    rw [hm]
    exact List.mem_cons_of_mem m hm'
  have hnotvote : ∀ {P : Prop}, (N.node f).receiving =
      .broadcast_vote (first_vote b (address validators f)) → P := by
    intro P hrec
    rw [hidle] at hrec
    cases hrec
  by_cases hblock : m = .Block b
  · subst hblock
    obtain ⟨hfollow, hholding, hvote, hfinal⟩ :=
      hN.follower.receive_block hheight (by rw [hpair.proposer, hproposer]) now
    refine ⟨?_, ?_, ?_, ?_, ?_, ?_, ?_⟩
    · dsimp only
      rw [hother]
      exact hN.leader
    · dsimp only
      rw [hnode]
      exact hfollow
    · dsimp only
      rw [if_pos ⟨rfl, rfl⟩]
      exact hrest
    · dsimp only
      rw [hlink]
      exact hN.from_follower
    · dsimp only
      rw [hnode]
      exact fun _ _ => Or.inl hholding
    · dsimp only
      rw [hnode, if_pos ⟨rfl, rfl⟩]
      intro v hv hsent
      have hcoming := hN.vote_out v hv hsent
      rw [hm] at hcoming
      exact hcoming.block hholding hfinal
    · dsimp only
      rw [hnode, hother, hlink]
      intro _
      rcases hN.follower.stage with hfresh | hheld
      · exact Or.inr (Or.inl (hvote hfresh))
      · rcases hN.reply hheld with hdone | hrec | hmem
        · exact Or.inl hdone
        · exact hnotvote hrec
        · exact Or.inr (Or.inr hmem)
  · have hsaid' : Says (fun b => b.header.height ≠ 1)
        (fun v => v.height = 1 → v.voter ≠ (address validators f).bytes) m := by
      cases m with
      | Block b' =>
        intro hone
        exact hblock (congrArg Message.Block (hsaid hone))
      | Vote bytes =>
        intro v hv hone
        rw [hsaid v hv hone]
        exact fun h => hne (congrArg Address.mk h)
      | _ => trivial
    have hon : Onward (equal_set validators) (genesis_store allocations) (address validators f) b
        (N.node f).consensus ((N.node f).receive now m).consensus := receive_onward
      hpair.total (hpair.few (address validators f)) hsaid' now
    refine ⟨?_, ?_, ?_, ?_, ?_, ?_, ?_⟩
    · dsimp only
      rw [hother]
      exact hN.leader
    · dsimp only
      rw [hnode]
      exact hN.follower.receive_other hpair.total (hpair.few _) hsaid' now
    · dsimp only
      rw [if_pos ⟨rfl, rfl⟩]
      exact hrest
    · dsimp only
      rw [hlink]
      exact hN.from_follower
    · dsimp only
      rw [hnode, hother, if_pos ⟨rfl, rfl⟩]
      intro hone hprod
      have hcoming := hN.in_order hone hprod
      rw [hm] at hcoming
      exact hcoming.other hblock hon
    · dsimp only
      rw [hnode, if_pos ⟨rfl, rfl⟩]
      intro v hv hsent
      have hcoming := hN.vote_out v hv hsent
      rw [hm] at hcoming
      refine hcoming.other hblock hN.follower.lone hon ?_
      rintro hheld rfl
      exact receive_first_vote hpair.total (hpair.few _) hheld (is_validator_address hp) hne
        (hpair.quorum hpair.lt.2 hpair.lt.1 hpair.ne.symm) now
    · dsimp only
      rw [hnode, hother, hlink]
      intro hholding
      have hheld : Holding (equal_set validators) (genesis_store allocations)
          (address validators f) b (N.node f).consensus :=
        hN.follower.stage.resolve_left fun hfresh => (hon.fresh hfresh).not_holding hholding
      rcases hN.reply hheld with hdone | hrec | hmem
      · exact Or.inl hdone
      · exact hnotvote hrec
      · exact Or.inr (Or.inr hmem)

/-! ## Runs of two nodes -/

/-- Before the proposal for height 1: the two nodes are as they started, and nothing was sent. -/
structure Waiting (validators : List Address) (allocations : ExtTreeMap Address Account)
    (genesis_hash : Hash) (p f : Nat) (N : Cluster) : Prop where
  leader : ∃ producing, (producing = .check ∨ producing = .propose) ∧
    N.node p = { (start validators allocations genesis_hash).node p with producing }
  follower : ∃ producing, (producing = .check ∨ producing = .sleep) ∧
    N.node f = { (start validators allocations genesis_hash).node f with producing }
  links : N.link p f = [] ∧ N.link f p = []
  sent : N.sent = []

/-- The proposer of height 1 has not proposed yet, or its block is on its way. -/
def Under (validators : List Address) (allocations : ExtTreeMap Address Account)
    (genesis_hash : Hash) (p f : Nat) (N : Cluster) : Prop :=
  Waiting validators allocations genesis_hash p f N ∨
    ∃ b, b.header.height = 1 ∧ b.header.proposer = (address validators p).bytes ∧
      Serving validators allocations p f b N

variable {genesis_hash : Hash}

omit [Crates] [VoteFormat] in
theorem broadcast_nil (n : Nat) (N : Cluster) (i : Nat) : broadcast n N i [] = N := by
  simp [broadcast]

/-- The proposer checks whether it is its turn. -/
theorem Waiting.leader_checks (hpair : Pair validators p f)
    (hN : Waiting validators allocations genesis_hash p f N) (hnode : N.node p =
      { (start validators allocations genesis_hash).node p with producing := .check })
    (now : UInt64) :
    Waiting validators allocations genesis_hash p f (broadcast validators.length
      (N.set_node p ((N.node p).produce (peer_count validators.length p) now).2) p
      ((N.node p).produce (peer_count validators.length p) now).1) := by
  have hpeers : peer_count validators.length p ≠ 0 := by
    rw [hpair.two]
    exact peer_count_ne_zero (Nat.le_refl 2) hpair.lt.1
  have hturn : (equal_set validators).proposer 1 0 = some (address validators p) := hpair.proposer
  have hproduce : (N.node p).produce (peer_count validators.length p) now = ([],
      { (start validators allocations genesis_hash).node p with producing := .propose }) := by
    rw [hnode]
    simp [ValidatorNode.produce, start, ValidatorNode.new, new_with_store, hpeers, hturn]
  rw [hproduce, broadcast_nil]
  refine ⟨⟨.propose, Or.inr rfl, set_node_self ..⟩, ?_, hN.links, hN.sent⟩
  rw [set_node_ne N _ hpair.ne.symm]
  exact hN.follower

/-- The proposer proposes its block. -/
theorem Waiting.leader_proposes (hpair : Pair validators p f)
    (hN : Waiting validators allocations genesis_hash p f N) (hnode : N.node p =
      { (start validators allocations genesis_hash).node p with producing := .propose })
    (now : UInt64) :
    ∃ b, b.header.height = 1 ∧ b.header.proposer = (address validators p).bytes ∧
      Serving validators allocations p f b (broadcast validators.length
        (N.set_node p ((N.node p).produce (peer_count validators.length p) now).2) p
        ((N.node p).produce (peer_count validators.length p) now).1) := by
  have hfresh := fun i => new_fresh (equal_set validators) (genesis_store allocations)
    (address validators i) genesis_hash
  obtain ⟨b, hheight, hproposer, hok, hholding⟩ := (hfresh p).propose hpair.proposer now
  refine ⟨b, hheight, hproposer, ?_⟩
  let n : ValidatorNode InMemoryBackend :=
    { (start validators allocations genesis_hash).node p with
      consensus :=
        (((start validators allocations genesis_hash).node p).consensus.propose 1 [] now).2
      last_proposed_height := some 1
      producing := .broadcast_block }
  have hproduce : (N.node p).produce (peer_count validators.length p) now = ([], n) := by
    rw [hnode]
    have hpropose : ((start validators allocations genesis_hash).node p).consensus.propose
        ((start validators allocations genesis_hash).node p).height [] now =
        (.ok b,
          (((start validators allocations genesis_hash).node p).consensus.propose 1 [] now).2) := by
      rw [← hok]
      rfl
    simp only [ValidatorNode.produce, hpropose]
    rfl
  rw [hproduce, broadcast_nil]
  obtain ⟨producing, hwaits, hother⟩ := hN.follower
  have hleader : (N.set_node p n).node p = n := set_node_self ..
  have hfollower : (N.set_node p n).node f =
      { (start validators allocations genesis_hash).node f with producing } := by
    rw [set_node_ne N _ hpair.ne.symm]
    exact hother
  refine ⟨?_, ?_, ?_, ?_, ?_, ?_, ?_⟩
  · rw [hleader]
    refine ⟨hholding, Or.inl rfl, fun _ => ⟨rfl, fun h => by cases h⟩, ?_⟩
    intro v hv
    cases hv
  · rw [hfollower]
    refine ⟨Or.inl (hfresh f), Or.inl rfl, fun _ => hwaits, ?_⟩
    intro v hv
    cases hv
  · intro m hm
    change m ∈ N.link p f at hm
    rw [hN.links.1] at hm
    cases hm
  · intro m hm
    change m ∈ N.link f p at hm
    rw [hN.links.2] at hm
    cases hm
  · rw [hleader]
    intro _ hprod
    cases hprod
  · intro v _ hsent
    change (p, _) ∈ N.sent at hsent
    rw [hN.sent] at hsent
    cases hsent
  · rw [hfollower]
    intro hheld
    exact absurd hheld (hfresh f).not_holding

/-- The other validator has nothing to do for height 1 yet. -/
theorem Waiting.follower_waits (hpair : Pair validators p f)
    (hN : Waiting validators allocations genesis_hash p f N) (now : UInt64) :
    Waiting validators allocations genesis_hash p f (broadcast validators.length
      (N.set_node f ((N.node f).produce (peer_count validators.length f) now).2) f
      ((N.node f).produce (peer_count validators.length f) now).1) := by
  have hp : p < validators.length := hpair.two ▸ hpair.lt.1
  have hf : f < validators.length := hpair.two ▸ hpair.lt.2
  have hturn : (equal_set validators).proposer 1 0 ≠ some (address validators f) := by
    rw [hpair.proposer]
    intro heq
    exact address_ne hpair.nodup hp hf hpair.ne (Option.some.inj heq)
  have hproduce : ∃ producing, (producing = .check ∨ producing = .sleep) ∧
      (N.node f).produce (peer_count validators.length f) now =
        ([], { (start validators allocations genesis_hash).node f with producing }) := by
    obtain ⟨producing, hwaits, hnode⟩ := hN.follower
    rw [hnode]
    rcases hwaits with rfl | rfl
    · simp only [ValidatorNode.produce]
      split
      · exact ⟨.check, Or.inl rfl, rfl⟩
      · split
        · rename_i hyes
          exact absurd hyes hturn
        · exact ⟨.sleep, Or.inr rfl, rfl⟩
    · exact ⟨.check, Or.inl rfl, rfl⟩
  obtain ⟨producing, hwaits, hproduce⟩ := hproduce
  rw [hproduce, broadcast_nil]
  refine ⟨?_, ⟨producing, hwaits, set_node_self ..⟩, hN.links, hN.sent⟩
  rw [set_node_ne N _ hpair.ne]
  exact hN.leader

omit [Crates] [VoteFormat] in
theorem Waiting.receiving (hN : Waiting validators allocations genesis_hash p f N) :
    (N.node p).receiving = .next_event ∧ (N.node f).receiving = .next_event := by
  obtain ⟨x, -, hp⟩ := hN.leader
  obtain ⟨y, -, hf⟩ := hN.follower
  rw [hp, hf]
  exact ⟨rfl, rfl⟩

omit [Crates] [VoteFormat] in
theorem set_node_same (N : Cluster) (i : Nat) : N.set_node i (N.node i) = N := by
  have hnode : (fun k => if k = i then N.node i else N.node k) = N.node := by
    funext k
    split
    · rename_i hk
      rw [hk]
    · rfl
  unfold set_node
  rw [hnode]

/-- A piece of the production loop of one of the two. -/
theorem Under.produce (hpair : Pair validators p f)
    (hN : Under validators allocations genesis_hash p f N) {i : Nat} (hi : i < validators.length)
    (now : UInt64) :
    Under validators allocations genesis_hash p f (broadcast validators.length
      (N.set_node i ((N.node i).produce (peer_count validators.length i) now).2) i
      ((N.node i).produce (peer_count validators.length i) now).1) := by
  rcases hN with hN | ⟨b, hheight, hproposer, hN⟩
  · rcases hpair.cases hi with rfl | rfl
    · obtain ⟨producing, rfl | rfl, hnode⟩ := hN.leader
      · exact Or.inl (hN.leader_checks hpair hnode now)
      · exact Or.inr (hN.leader_proposes hpair hnode now)
    · exact Or.inl (hN.follower_waits hpair now)
  · refine Or.inr ⟨b, hheight, hproposer, ?_⟩
    rcases hpair.cases hi with rfl | rfl
    · refine hN.leader_moves hpair (hN.leader.produce hpair.total (hpair.few _) _ now)
        (produce_onward hpair.total (hpair.few _) (fun hp => hN.leader.propose_ne hp) _ now)
        (fun m hm => hN.leader.says_of_produce hm) ?_ ?_
      · intro hone hprod
        obtain ⟨-, hsame, hout⟩ := (N.node i).produce_block hprod
        rw [hsame] at hone
        right
        rw [hout, hone, own_proposal_eq, hN.leader.holding.block]
        exact List.mem_cons_self
      · intro v hv hmem
        rcases ValidatorNode.mem_produce hmem with ⟨-, b', -, hb'⟩ | ⟨hprod, v', hv', heq⟩
        · cases hb'
        · obtain rfl := encode_vote_inj (Message.Vote.inj heq)
          have hone : (N.node i).height = 1 := by
            rw [← (hN.leader.holding.toSteady.own_vote hv').2]
            exact hv
          refine ⟨hone, hprod, ?_⟩
          simp only [ValidatorNode.produce, hprod, hone, own_vote_eq, hN.leader.holding.is_local,
            hN.leader.holding.vote]
          rfl
    · refine hN.follower_moves hpair
        (hN.follower.produce hpair.total (hpair.few _) ?_ _ now)
        (produce_onward hpair.total (hpair.few _) (fun hp =>
          hN.follower.height_ne (by simp [hp]) (by simp [hp])) _ now) ?_ ?_
      · rw [hpair.proposer]
        intro heq
        exact address_ne hpair.nodup (hpair.two ▸ hpair.lt.1) hi hpair.ne (Option.some.inj heq)
      · intro m hm
        exact (hN.follower.says_of_produce hm).mono (fun _ h => h) fun v hv hone => absurd hone hv
      · intro _
        exact Or.inl (ValidatorNode.produce_receiving ..)

/-- A piece of the event loop of one of the two. -/
theorem Under.react (hpair : Pair validators p f)
    (hN : Under validators allocations genesis_hash p f N) {i : Nat} (hi : i < validators.length)
    (now : UInt64) :
    Under validators allocations genesis_hash p f (broadcast validators.length
      (N.set_node i ((N.node i).react now).2) i ((N.node i).react now).1) := by
  rcases hN with hN | ⟨b, hheight, hproposer, hN⟩
  · have hidle : (N.node i).receiving = .next_event := by
      rcases hpair.cases hi with rfl | rfl
      · exact hN.receiving.1
      · exact hN.receiving.2
    have hreact : (N.node i).react now = ([], N.node i) := by
      simp only [ValidatorNode.react, hidle]
    rw [hreact, broadcast_nil, set_node_same]
    exact Or.inl hN
  · refine Or.inr ⟨b, hheight, hproposer, ?_⟩
    rcases hpair.cases hi with rfl | rfl
    · obtain ⟨hsame, -, hproducing⟩ := (N.node i).react_position now
      refine hN.leader_moves hpair (hN.leader.react hpair.total (hpair.few _) now)
        (react_onward hpair.total (hpair.few _) now) ?_ ?_ ?_
      · intro m hm
        obtain ⟨v, hv, rfl⟩ := ValidatorNode.mem_react hm
        exact says_vote fun hone => absurd hone (hN.leader.pending hv)
      · intro hone hprod
        rw [hsame] at hone
        rw [hproducing] at hprod
        exact Or.inl ⟨hone, hprod⟩
      · intro v hv hmem
        obtain ⟨v', hv', heq⟩ := ValidatorNode.mem_react hmem
        obtain rfl := encode_vote_inj (Message.Vote.inj heq)
        exact absurd hv (hN.leader.pending hv')
    · refine hN.follower_moves hpair (hN.follower.react hpair.total (hpair.few _) now)
        (react_onward hpair.total (hpair.few _) now) ?_ ?_
      · intro m hm
        obtain ⟨v, hv, rfl⟩ := ValidatorNode.mem_react hm
        exact says_vote fun hone => hN.follower.pending hv hone
      · intro hrec
        right
        simp only [ValidatorNode.react, hrec]
        exact List.mem_cons_self

theorem run_under (hpair : Pair validators p f)
    (hN : Under validators allocations genesis_hash p f N)
    (steps : List ClusterStep) :
    Under validators allocations genesis_hash p f (N.run validators.length steps) := by
  refine run_preserves ?_ ?_ ?_ hN steps
  · intro N i now hi hN
    exact hN.produce hpair hi now
  · intro N i j now m rest hc hidle hlink hN
    rcases hN with hN | ⟨b, hheight, hproposer, hN⟩
    · rcases hpair.link_cases hc with ⟨rfl, rfl⟩ | ⟨rfl, rfl⟩
      · rw [hN.links.1] at hlink
        cases hlink
      · rw [hN.links.2] at hlink
        cases hlink
    · refine Or.inr ⟨b, hheight, hproposer, ?_⟩
      rcases hpair.link_cases hc with ⟨rfl, rfl⟩ | ⟨rfl, rfl⟩
      · exact hN.follower_receives hpair hheight hproposer hlink hidle now
      · exact hN.leader_receives hpair hlink now
  · intro N i now hi hN
    exact hN.react hpair hi now

/-! ## The size of the network -/

/-- The network of a bootstrap manifest of two or more validators finalizes height 1 everywhere,
whenever the proposer has broadcast its block and vote and no message is on the way, exactly
for two validators. A Rust vector has at most `isize::MAX` bytes. -/
theorem chain_finalizes_iff_two (validators : List Address) (hd : validators.Nodup)
    (hn : 2 ≤ validators.length) (hsize : 32 * validators.length ≤ 2 ^ 63 - 1)
    (allocations : ExtTreeMap Address Account) (genesis_hash : Hash) :
    (∀ steps, let N := (start validators allocations genesis_hash).run validators.length steps
      Announced validators N → Quiet validators.length N → FinalEverywhere validators.length N) ↔
    validators.length = 2 := by
  constructor
  · intro hall
    by_contra hne
    obtain ⟨steps, hannounced, hquiet, hnot⟩ :=
      exists_quiet_not_final hd (by omega) (by omega) allocations genesis_hash
    exact hnot (hall steps hannounced hquiet)
  · rintro htwo steps N ⟨q, b', v, hq, hqp, -, -, hv, -, hsent⟩ hquiet
    have hlen : q < 2 := htwo ▸ hq
    have hpair : Pair validators q (1 - q) := ⟨hd, htwo, ⟨hlen, by omega⟩, by omega, hqp⟩
    have hstart : Under validators allocations genesis_hash q (1 - q)
        (start validators allocations genesis_hash) :=
      Or.inl ⟨⟨.check, Or.inl rfl, rfl⟩, ⟨.check, Or.inl rfl, rfl⟩, ⟨rfl, rfl⟩, rfl⟩
    have hunder : Under validators allocations genesis_hash q (1 - q) N :=
      run_under hpair hstart steps
    rcases hunder with hwait | ⟨b, -, -, hserve⟩
    · rw [hwait.sent] at hsent
      cases hsent
    · rw [htwo] at hquiet
      obtain ⟨hp, hf⟩ := hserve.final hquiet hpair.lt.1 hpair.lt.2 hv hsent
      intro i hi
      rcases hpair.cases hi with rfl | rfl
      · exact Option.ne_none_iff_exists'.mp hp.block
      · exact Option.ne_none_iff_exists'.mp hf.block

end Cluster

namespace Concrete

open Cluster

/-- The proposer of height 1 is the middle one of three. It announces its block, its two neighbours
vote, and all messages arrive. -/
def three_steps : List ClusterStep :=
  [.produce 1 0, .produce 1 0, .produce 1 0, .produce 1 0,
    .deliver 1 0 0, .react 0 0, .react 0 0, .deliver 1 0 0,
    .deliver 1 2 0, .react 2 0, .react 2 0, .deliver 1 2 0,
    .deliver 0 1 0, .deliver 2 1 0]

/-- Of three validators only the middle one finalizes, though no message is on the way. -/
theorem three_nodes_stall :
    let N := (start [addr 1, addr 2, addr 3] ∅ default).run 3 three_steps
    Announced [addr 1, addr 2, addr 3] N ∧ Quiet 3 N ∧ ¬ FinalEverywhere 3 N := by
  have hclosed : (∀ i < 3, ∀ j < 3,
      ((start [addr 1, addr 2, addr 3] ∅ default).run 3 three_steps).link i j = []) ∧
      (∀ i < 3, (((start [addr 1, addr 2, addr 3] ∅ default).run 3 three_steps).node i).receiving =
        .next_event) ∧
      (((start [addr 1, addr 2, addr 3] ∅ default).run 3 three_steps).node 0).consensus.finalized[
        (1 : UInt64)]? = none := by
    decide +kernel
  refine ⟨?_, ⟨fun i j hi hj => hclosed.1 i hi j hj, hclosed.2.1⟩, ?_⟩
  · have hproposer : (equal_set [addr 1, addr 2, addr 3]).proposer 1 0 =
        some (address [addr 1, addr 2, addr 3] 1) := by
      decide +kernel
    exact (announced_after_four (by decide) (by decide) hproposer ∅ default).run
      (three_steps.drop 4)
  · intro hfinal
    obtain ⟨b, hb⟩ := hfinal 0 (by decide)
    rw [hclosed.2.2] at hb
    cases hb

/-- The chain of two, and the one of three. -/
theorem chain_of_two_and_three :
    (∀ steps, let N := (start [addr 1, addr 2] ∅ default).run 2 steps
      Announced [addr 1, addr 2] N → Quiet 2 N → FinalEverywhere 2 N) ∧
    ¬ ∀ steps, let N := (start [addr 1, addr 2, addr 3] ∅ default).run 3 steps
      Announced [addr 1, addr 2, addr 3] N → Quiet 3 N → FinalEverywhere 3 N := by
  refine ⟨?_, ?_⟩
  · exact (chain_finalizes_iff_two [addr 1, addr 2] (by decide +kernel) (by decide) (by decide) ∅
      default).mpr rfl
  · intro hall
    have hlen := (chain_finalizes_iff_two [addr 1, addr 2, addr 3] (by decide +kernel) (by decide)
      (by decide) ∅ default).mp hall
    cases hlen

end Concrete

end Pemrix
