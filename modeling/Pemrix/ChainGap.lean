-- With three validators or more, the first of the chain hears from the second only.
-- The two are no quorum, so the first never finalizes a block, though the messages
-- on the links always run out.
import Mathlib.Algebra.BigOperators.Group.Finset.Basic
import Mathlib.Algebra.Order.BigOperators.Group.Finset
import Pemrix.FirstHeight

open Std

namespace Pemrix

/-! ## The messages run out -/

/-- The work that a message brings: a block may be answered with a vote to each of the `n`. -/
def Message.cost (n : Nat) : Message → Nat
  | .Block _ => n + 3
  | _ => 1

/-- The work that is left of a block. -/
def Receiving.cost (n : Nat) : Receiving → Nat
  | .next_event => 0
  | .broadcast_vote _ => n + 2
  | .finalize => 1

namespace Cluster

/-- The work on the way to validator `j` and in its event loop. -/
def load (n : Nat) (N : Cluster) (j : Nat) : Nat :=
  (N.node j).receiving.cost n + ∑ i ∈ Finset.range n, ((N.link i j).map (Message.cost n)).sum

def work (n : Nat) (N : Cluster) : Nat := ∑ j ∈ Finset.range n, N.load n j

/-- There is nothing on a link that is not there. -/
def Wired (n : Nat) (N : Cluster) : Prop := ∀ i j, ¬ Connected n i j → N.link i j = []

@[simp] theorem broadcast_node (n : Nat) (N : Cluster) (i : Nat) (out : List Message) :
    (broadcast n N i out).node = N.node := rfl

theorem broadcast_link (n : Nat) (N : Cluster) (i : Nat) (out : List Message) (a b : Nat) :
    (broadcast n N i out).link a b =
      if a = i ∧ Connected n i b then N.link a b ++ out else N.link a b := rfl

@[simp] theorem set_node_link (N : Cluster) (i : Nat) (v : ValidatorNode InMemoryBackend) :
    (N.set_node i v).link = N.link := rfl

theorem set_node_node (N : Cluster) (i : Nat) (v : ValidatorNode InMemoryBackend) (k : Nat) :
    (N.set_node i v).node k = if k = i then v else N.node k := rfl

@[simp] theorem set_node_self (N : Cluster) (i : Nat) (v : ValidatorNode InMemoryBackend) :
    (N.set_node i v).node i = v := if_pos rfl

theorem set_node_ne (N : Cluster) {i k : Nat} (v : ValidatorNode InMemoryBackend) (hk : k ≠ i) :
    (N.set_node i v).node k = N.node k := if_neg hk

variable [Crates] [VoteFormat] {n : Nat} {N : Cluster}

theorem run_wired (hN : Wired n N) (steps : List ClusterStep) : Wired n (N.run n steps) := by
  have hbroadcast :
      ∀ (N : Cluster) i out v, Wired n N → Wired n (broadcast n (N.set_node i v) i out) := by
    intro N i out v hN a b hab
    rw [broadcast_link, set_node_link, if_neg]
    · exact hN a b hab
    · rintro ⟨rfl, hc⟩
      exact hab hc
  refine run_preserves ?_ ?_ ?_ hN steps
  · intro N i now _ hN
    exact hbroadcast N i _ _ hN
  · intro N i j now m rest hc _ _ hN a b hab
    show (if a = i ∧ b = j then rest else N.link a b) = []
    rw [if_neg]
    · exact hN a b hab
    · rintro ⟨rfl, rfl⟩
      exact hab hc
  · intro N i now _ hN
    exact hbroadcast N i _ _ hN

theorem sent_subset_step (s : ClusterStep) : N.sent ⊆ (N.step n s).sent := by
  cases s with
  | produce i now =>
    simp only [step]
    split
    · exact List.subset_append_left N.sent _
    · exact List.Subset.refl _
  | deliver i j now =>
    simp only [step]
    split
    · split
      · exact List.Subset.refl _
      · exact List.Subset.refl _
    · exact List.Subset.refl _
  | react i now =>
    simp only [step]
    split
    · exact List.subset_append_left N.sent _
    · exact List.Subset.refl _

/-- A node that has a vote to broadcast does so. -/
theorem react_vote_work {i : Nat} (hi : i < n) {v : Vote} (now : UInt64)
    (hr : (N.node i).receiving = .broadcast_vote v) :
    (N.step n (.react i now)).work n < N.work n := by
  have hstep : N.step n (.react i now) = broadcast n
      (N.set_node i { N.node i with receiving := .finalize }) i [.Vote (encode v)] := by
    simp only [step, if_pos hi, ValidatorNode.react, hr]
  rw [hstep]
  have hlink : ∀ j, ∑ a ∈ Finset.range n, (((broadcast n
      (N.set_node i { N.node i with receiving := .finalize }) i [.Vote (encode v)]).link a j).map
        (Message.cost n)).sum ≤
      ∑ a ∈ Finset.range n, ((N.link a j).map (Message.cost n)).sum + 1 := by
    intro j
    have hone : ∀ a ∈ Finset.range n, (((broadcast n
        (N.set_node i { N.node i with receiving := .finalize }) i [.Vote (encode v)]).link a j).map
          (Message.cost n)).sum ≤
        ((N.link a j).map (Message.cost n)).sum + if a = i then 1 else 0 := by
      intro a _
      rw [broadcast_link, set_node_link]
      split
      · rename_i h
        rw [if_pos h.1]
        simp [Message.cost]
      · exact Nat.le_add_right _ _
    refine (Finset.sum_le_sum hone).trans ?_
    rw [Finset.sum_add_distrib, Finset.sum_ite_eq' (Finset.range n) i fun _ => 1,
      if_pos (Finset.mem_range.mpr hi)]
  have hload : ∀ j ∈ Finset.range n, (broadcast n
      (N.set_node i { N.node i with receiving := .finalize }) i [.Vote (encode v)]).load n j +
        (if j = i then n + 1 else 0) ≤ N.load n j + 1 := by
    intro j _
    have hj := hlink j
    unfold load
    rw [broadcast_node]
    by_cases hji : j = i
    · subst hji
      rw [set_node_self, if_pos rfl, hr]
      simp only [Receiving.cost] at hj ⊢
      omega
    · rw [set_node_ne N _ hji, if_neg hji]
      omega
  have hsum := Finset.sum_le_sum hload
  rw [Finset.sum_add_distrib, Finset.sum_add_distrib,
    Finset.sum_ite_eq' (Finset.range n) i fun _ => n + 1,
    if_pos (Finset.mem_range.mpr hi), Finset.sum_const, Finset.card_range, smul_eq_mul] at hsum
  unfold work
  omega

theorem react_finalize_work {i : Nat} (hi : i < n) (now : UInt64)
    (hr : (N.node i).receiving = .finalize) : (N.step n (.react i now)).work n < N.work n := by
  have hstep : N.step n (.react i now) = broadcast n
      (N.set_node i { (N.node i).finalize_pending now with receiving := .next_event }) i [] := by
    simp only [step, if_pos hi, ValidatorNode.react, hr]
  have hlink : ∀ a j, (broadcast n (N.set_node i { (N.node i).finalize_pending now with
      receiving := .next_event }) i []).link a j = N.link a j := by
    intro a j
    rw [broadcast_link, set_node_link, List.append_nil, ite_self]
  rw [hstep]
  refine Finset.sum_lt_sum ?_ ⟨i, Finset.mem_range.mpr hi, ?_⟩
  · intro j _
    unfold load
    simp only [hlink, broadcast_node]
    by_cases hji : j = i
    · subst hji
      rw [set_node_self, hr]
      simp [Receiving.cost]
    · rw [set_node_ne N _ hji]
  · unfold load
    simp only [hlink, broadcast_node, set_node_self, hr]
    simp [Receiving.cost]

omit [Crates] in
theorem receive_cost [Crates] (v : ValidatorNode InMemoryBackend) (now : UInt64) (m : Message)
    (hr : v.receiving = .next_event) : (v.receive now m).receiving.cost n < m.cost n := by
  rcases v.receive_consensus now m with
    ⟨-, h⟩ | ⟨b, rfl, -, ⟨vote, -, h⟩ | ⟨-, h⟩⟩ | ⟨bytes, vote, rfl, -, -, h⟩
  · rw [h, hr]
    cases m <;> simp [Receiving.cost, Message.cost]
  · rw [h]
    simp [Receiving.cost, Message.cost]
  · rw [h]
    simp [Receiving.cost, Message.cost]
  · rw [h, hr]
    simp [Receiving.cost, Message.cost]

theorem deliver_work {i j : Nat} (hc : Connected n i j) (now : UInt64)
    (hr : (N.node j).receiving = .next_event) (hne : N.link i j ≠ []) :
    (N.step n (.deliver i j now)).work n < N.work n := by
  obtain ⟨m, rest, hlink⟩ := List.exists_cons_of_ne_nil hne
  have hstep : N.step n (.deliver i j now) =
      { N.set_node j ((N.node j).receive now m) with
        link := fun a b => if a = i ∧ b = j then rest else N.link a b } := by
    simp only [step, if_pos (And.intro hc hr), hlink]
  rw [hstep]
  obtain ⟨hi, hj, -⟩ := hc
  have hsum : ∑ a ∈ Finset.range n, ((N.link a j).map (Message.cost n)).sum =
      ∑ a ∈ Finset.range n,
        ((if a = i ∧ j = j then rest else N.link a j).map (Message.cost n)).sum +
        m.cost n := by
    have hone : ∀ a ∈ Finset.range n, ((N.link a j).map (Message.cost n)).sum =
        ((if a = i ∧ j = j then rest else N.link a j).map (Message.cost n)).sum +
          if a = i then m.cost n else 0 := by
      intro a _
      by_cases ha : a = i
      · subst ha
        rw [hlink, if_pos ⟨rfl, rfl⟩, if_pos rfl, List.map_cons, List.sum_cons, Nat.add_comm]
      · rw [if_neg (fun h => ha h.1), if_neg ha, Nat.add_zero]
    rw [Finset.sum_congr rfl hone, Finset.sum_add_distrib,
      Finset.sum_ite_eq' (Finset.range n) i fun _ => m.cost n, if_pos (Finset.mem_range.mpr hi)]
  have hload : load n { N.set_node j ((N.node j).receive now m) with
      link := fun a b => if a = i ∧ b = j then rest else N.link a b } j < N.load n j := by
    have hcost := receive_cost (n := n) (N.node j) now m hr
    unfold load
    dsimp only
    rw [set_node_self, hsum]
    omega
  refine Finset.sum_lt_sum ?_ ⟨j, Finset.mem_range.mpr hj, hload⟩
  intro k _
  by_cases hkj : k = j
  · rw [hkj]
    exact hload.le
  · unfold load
    simp only [hkj, and_false, if_false]
    rw [set_node_ne N _ hkj]

/-- While there is work, a node can do some of it. -/
theorem exists_work_lt (hN : Wired n N) (hq : ¬ Quiet n N) :
    ∃ s, (N.step n s).work n < N.work n := by
  by_cases hr : ∀ i, i < n → (N.node i).receiving = .next_event
  · have hlink : ¬ ∀ i j, i < n → j < n → N.link i j = [] := fun hlink => hq ⟨hlink, hr⟩
    push Not at hlink
    obtain ⟨i, j, -, hj, hne⟩ := hlink
    have hc : Connected n i j := by
      by_contra hc
      exact hne (hN i j hc)
    exact ⟨.deliver i j 0, deliver_work hc 0 (hr j hj) hne⟩
  · push Not at hr
    obtain ⟨i, hi, hne⟩ := hr
    cases hrec : (N.node i).receiving with
    | next_event => exact absurd hrec hne
    | broadcast_vote v => exact ⟨.react i 0, react_vote_work hi 0 hrec⟩
    | finalize => exact ⟨.react i 0, react_finalize_work hi 0 hrec⟩

/-- From every state of the network some steps lead to one where nothing is on the way. -/
theorem exists_quiet (hN : Wired n N) : ∃ steps, Quiet n (N.run n steps) := by
  induction hw : N.work n using Nat.strong_induction_on generalizing N with
  | _ w ih =>
    by_cases hq : Quiet n N
    · exact ⟨[], hq⟩
    · obtain ⟨s, hs⟩ := exists_work_lt hN hq
      obtain ⟨steps, hquiet⟩ := ih _ (hw ▸ hs) (run_wired hN [s]) rfl
      exact ⟨s :: steps, hquiet⟩

end Cluster

/-! ## The first of the chain -/

namespace BftConsensus

variable [Crates] {e : BftConsensus InMemoryBackend} {S : Address → Prop}

omit [Crates] in
/-- All voters are in a group, and no block is final. -/
structure Short (S : Address → Prop) (e : BftConsensus InMemoryBackend) : Prop where
  voters : ∀ h, e.VotersIn S h
  final : e.finalized = ∅

theorem handle_block_short (hs : Short S e) (hme : S e.local_address) (b : Block) :
    Short S (e.handle_block b).2 := by
  refine ⟨fun h => (handle_block_takes b).voters hme (hs.voters h) ?_, ?_⟩
  · intro v hv
    cases hv
  · rcases e.handle_block_cases b with ⟨err, -, he⟩ | ⟨-, he⟩
    · rw [he]
      exact hs.final
    · rw [he]
      exact hs.final

omit [Crates] in
theorem handle_vote_short (hs : Short S e) (hme : S e.local_address) {v : Vote} (hv : S ⟨v.voter⟩) :
    Short S (e.handle_vote v).2 := by
  refine ⟨fun h => (handle_vote_takes v).voters hme (hs.voters h) ?_, ?_⟩
  · intro v' hv' _
    cases hv'
    exact hv
  · rcases e.handle_vote_cases v with ⟨err, -, he⟩ | ⟨-, he⟩
    · rw [he]
      exact hs.final
    · rw [he]
      exact hs.final

theorem propose_short (hs : Short S e) (hme : S e.local_address) (height now : UInt64) :
    Short S (e.propose height [] now).2 := by
  refine ⟨fun h => (propose_takes height [] now).voters hme (hs.voters h) ?_, ?_⟩
  · intro v hv
    cases hv
  · rcases e.propose_cases height [] now with ⟨-, he⟩ | ⟨-, ⟨err, set, -, he⟩ | ⟨root, -, -, he⟩⟩
    · rw [he]
      exact hs.final
    · rw [he]
      exact hs.final
    · rw [he]
      exact hs.final

/-- A group without a quorum finalizes nothing. -/
theorem finalize_pending_short [DecidablePred S] (hs : Short S e)
    (htotal : e.validator_set.total < 2 ^ 64)
    (hfew : e.validator_set.validators.weight S < e.validator_set.quorum_threshold.toNat)
    (now : UInt64) : Short S (e.finalize_pending now).2 := by
  rw [finalize_pending_of_no_quorum (no_quorum_of_voters (hs.voters _) htotal hfew)]
  exact hs

end BftConsensus

namespace Cluster

open BftConsensus

variable [Crates] [VoteFormat] {validators : List Address}
  {allocations : ExtTreeMap Address Account} {N : Cluster}

omit [Crates] in
/-- Every node is tidy, the votes on a link are votes of the sender, and the first validator
has votes of the first two only. -/
structure Apart (validators : List Address) (allocations : ExtTreeMap Address Account)
    (N : Cluster) : Prop where
  tidy : ∀ i, i < validators.length → (N.node i).Tidy (equal_set validators)
    (genesis_store allocations) (address validators i)
  votes : ∀ i j m, m ∈ N.link i j →
    Says (fun _ => True) (fun v => v.voter = (address validators i).bytes) m
  short : (N.node 0).consensus.Short (· ∈ [address validators 0, address validators 1])

omit [Crates] in
theorem start_apart (validators : List Address) (allocations : ExtTreeMap Address Account)
    (genesis_hash : Hash) :
    Apart validators allocations (start validators allocations genesis_hash) := by
  refine ⟨fun i _ => ValidatorNode.new_tidy .., ?_, ?_, rfl⟩
  · intro i j m hm
    cases hm
  · intro h a v hv
    change (((new_with_store _ _ _ _ : BftConsensus InMemoryBackend).round h).votes)[a]? =
      some v at hv
    rw [new_round] at hv
    change (∅ : ExtTreeMap Address Vote)[a]? = some v at hv
    simp at hv

omit [Crates] in
/-- A node goes on, and its messages go out. -/
theorem Apart.broadcast (hN : Apart validators allocations N) {n i : Nat}
    {v : ValidatorNode InMemoryBackend} {out : List Message}
    (hv : i < validators.length →
      v.Tidy (equal_set validators) (genesis_store allocations) (address validators i))
    (hout : ∀ m ∈ out, Says (fun _ => True) (fun v => v.voter = (address validators i).bytes) m)
    (hshort : i = 0 → v.consensus.Short (· ∈ [address validators 0, address validators 1])) :
    Apart validators allocations (Cluster.broadcast n (N.set_node i v) i out) := by
  refine ⟨?_, ?_, ?_⟩
  · intro k hk
    rw [broadcast_node, set_node_node]
    split
    · rename_i hki
      subst hki
      exact hv hk
    · exact hN.tidy k hk
  · intro a b m hm
    rw [broadcast_link, set_node_link] at hm
    split at hm
    · rename_i h
      rcases List.mem_append.mp hm with hm | hm
      · exact hN.votes a b m hm
      · rw [h.1]
        exact hout m hm
    · exact hN.votes a b m hm
  · rw [broadcast_node, set_node_node]
    split
    · rename_i h
      exact hshort h.symm
    · exact hN.short

omit [Crates] [VoteFormat] in
/-- The power of the first two is not enough. -/
theorem few_of_two (hd : validators.Nodup) (hn : 3 ≤ validators.length)
    (hsize : 2 * validators.length < 2 ^ 64) :
    (equal_set validators).validators.weight (· ∈ [address validators 0, address validators 1]) <
      (equal_set validators).quorum_threshold.toNat := by
  rw [equal_set_threshold hd hsize]
  have hle : (equal_set validators).validators.weight
      (· ∈ [address validators 0, address validators 1]) ≤
        [address validators 0, address validators 1].length :=
    equal_set_weight_le _ fun _ _ h => h
  simp only [List.length_cons, List.length_nil] at hle
  omega

/-- In a chain of three or more the first validator never has a quorum. -/
theorem run_apart (hd : validators.Nodup) (hn : 3 ≤ validators.length)
    (hsize : 2 * validators.length < 2 ^ 64) (hN : Apart validators allocations N)
    (steps : List ClusterStep) : Apart validators allocations (N.run validators.length steps) := by
  have hfew := few_of_two hd hn hsize
  have htotal : (equal_set validators).total < 2 ^ 64 := by
    rw [equal_set_total hd]
    omega
  have hzero : 0 < validators.length := by omega
  have hpending : ∀ {e : BftConsensus InMemoryBackend} (now : UInt64),
      e.validator_set = equal_set validators →
      e.Short (· ∈ [address validators 0, address validators 1]) →
      (e.finalize_pending now).2.Short (· ∈ [address validators 0, address validators 1]) := by
    intro e now hset hs
    exact finalize_pending_short hs (by rw [hset]; exact htotal) (by rw [hset]; exact hfew) now
  refine run_preserves ?_ ?_ ?_ hN steps
  · intro N i now hi hN
    refine hN.broadcast (fun hi => (hN.tidy i hi).produce _ now)
      (fun m hm => (hN.tidy i hi).says_of_produce hm) ?_
    rintro rfl
    have hlocal := (hN.tidy 0 hzero).steady.is_local
    rcases (N.node 0).produce_consensus (peer_count validators.length 0) now with he | ⟨-, he⟩ | he
    · rw [he]
      exact hN.short
    · rw [he]
      exact propose_short hN.short (by rw [hlocal]; simp) _ now
    · rw [he]
      exact hpending now (hN.tidy 0 hzero).steady.is_set hN.short
  · intro N i j now m rest hc _ hlink hN
    have hm : m ∈ N.link i j := by
      rw [hlink]
      exact List.mem_cons_self
    refine ⟨?_, ?_, ?_⟩
    · intro k hk
      rw [set_node_node]
      split
      · rename_i hkj
        subst hkj
        exact (hN.tidy k hk).receive now m
      · exact hN.tidy k hk
    · intro a b m' hm'
      change m' ∈ (if a = i ∧ b = j then rest else N.link a b) at hm'
      split at hm'
      · rename_i h
        refine hN.votes a b m' ?_
        rw [h.1, h.2, hlink]
        exact List.mem_cons_of_mem m hm'
      · exact hN.votes a b m' hm'
    · rw [set_node_node]
      split
      · rename_i hj
        subst hj
        -- The only neighbour of the first validator is the second.
        obtain ⟨-, -, hi⟩ := connected_iff.mp hc
        have hi : i = 1 := by omega
        subst hi
        have hsteady := (hN.tidy 0 hzero).steady
        have hlocal := hsteady.is_local
        rcases (N.node 0).receive_consensus now m with
          ⟨he, -⟩ | ⟨b, -, he, -⟩ | ⟨bytes, v, rfl, hv, he, -⟩
        · rw [he]
          exact hN.short
        · rw [he]
          exact handle_block_short hN.short (by rw [hlocal]; simp) b
        · rw [he]
          have hvoter := hN.votes 1 0 _ hm v hv
          refine hpending now ?_
            (handle_vote_short hN.short (by rw [hlocal]; simp) (by rw [hvoter]; simp))
          exact (handle_vote_same v).2.trans hsteady.is_set
      · exact hN.short
  · intro N i now hi hN
    refine hN.broadcast (fun hi => (hN.tidy i hi).react now)
      (fun m hm => (hN.tidy i hi).says_of_react hm) ?_
    rintro rfl
    rcases (N.node 0).react_consensus now with he | he
    · rw [he]
      exact hN.short
    · rw [he]
      exact hpending now (hN.tidy 0 hzero).steady.is_set hN.short

/-! ## The proposer announces its block -/

omit [Crates] [VoteFormat] in
theorem peer_count_ne_zero {n i : Nat} (hn : 2 ≤ n) (hi : i < n) : peer_count n i ≠ 0 := by
  obtain ⟨j, hj⟩ : ∃ j, Connected n i j := by
    cases i with
    | zero => exact ⟨1, connected_iff.mpr ⟨hi, hn, Or.inr rfl⟩⟩
    | succ i => exact ⟨i, connected_iff.mpr ⟨hi, by omega, Or.inl rfl⟩⟩
  have hpos : 0 < peer_count n i :=
    List.countP_pos_iff.mpr ⟨j, List.mem_range.mpr hj.2.1, decide_eq_true hj⟩
  omega

theorem produce_step {n i : Nat} (hi : i < n) {N : Cluster} {now : UInt64} {out : List Message}
    {v v' : ValidatorNode InMemoryBackend} (hnode : N.node i = v)
    (h : v.produce (peer_count n i) now = (out, v')) :
    (N.step n (.produce i now)).node i = v' ∧
    (N.step n (.produce i now)).sent = N.sent ++ out.map fun m => (i, m) := by
  simp only [step, if_pos hi, hnode, h]
  exact ⟨set_node_self .., rfl⟩

/-- Four pieces of its production loop take the proposer of height 1 past its vote. -/
theorem announced_after_four {p : Nat} (hn : 2 ≤ validators.length) (hp : p < validators.length)
    (hproposer : (equal_set validators).proposer 1 0 = some (address validators p))
    (allocations : ExtTreeMap Address Account) (genesis_hash : Hash) :
    Announced validators ((start validators allocations genesis_hash).run validators.length
      [.produce p 0, .produce p 0, .produce p 0, .produce p 0]) := by
  have hpeers := peer_count_ne_zero hn hp
  let e : BftConsensus InMemoryBackend := new_with_store (address validators p)
    (equal_set validators) (genesis_store allocations) genesis_hash
  have hfresh : e.Fresh (equal_set validators) (genesis_store allocations) (address validators p) :=
    new_fresh ..
  obtain ⟨b, hheight, -, hok, hholding⟩ := hfresh.propose hproposer 0
  let v := first_vote b (address validators p)
  let n1 : ValidatorNode InMemoryBackend := { ValidatorNode.new e with producing := .propose }
  let n2 : ValidatorNode InMemoryBackend :=
    { n1 with
      consensus := (e.propose 1 [] 0).2, last_proposed_height := some 1,
      producing := .broadcast_block }
  let n3 : ValidatorNode InMemoryBackend := { n2 with producing := .broadcast_vote }
  let n4 : ValidatorNode InMemoryBackend := { n3 with producing := .finalize }
  have h1 : (ValidatorNode.new e).produce (peer_count validators.length p) 0 = ([], n1) := by
    have hlocal : e.validator_set.proposer 1 0 = some e.local_address := hproposer
    simp [n1, ValidatorNode.produce, ValidatorNode.new, hpeers, hlocal]
  have h2 : n1.produce (peer_count validators.length p) 0 = ([], n2) := by
    have hpropose : e.propose 1 [] 0 = (.ok b, (e.propose 1 [] 0).2) := by
      rw [← hok]
    simp only [n1, ValidatorNode.produce, ValidatorNode.new]
    rw [hpropose]
    rfl
  have h3 : n2.produce (peer_count validators.length p) 0 = ([.Block b], n3) := by
    have hb : (e.propose 1 [] 0).2.own_proposal 1 = some b := by
      rw [own_proposal_eq]
      exact hholding.block
    show (((e.propose 1 [] 0).2.own_proposal 1).toList.map Message.Block, n3) = _
    rw [hb]
    rfl
  have h4 : n3.produce (peer_count validators.length p) 0 = ([.Vote (encode v)], n4) := by
    have hv : (e.propose 1 [] 0).2.own_vote 1 = some v := by
      rw [own_vote_eq, hholding.is_local]
      exact hholding.vote
    show (((e.propose 1 [] 0).2.own_vote 1).toList.map (Message.Vote <| encode ·), n4) = _
    rw [hv]
    rfl
  obtain ⟨hnode1, -⟩ := produce_step hp (N := start validators allocations genesis_hash) rfl h1
  obtain ⟨hnode2, -⟩ := produce_step hp hnode1 h2
  obtain ⟨hnode3, hsent3⟩ := produce_step hp hnode2 h3
  obtain ⟨-, hsent4⟩ := produce_step hp hnode3 h4
  refine ⟨p, b, v, hp, hproposer, hheight, ?_, rfl, rfl, ?_⟩
  · simp only [run, List.foldl_cons, List.foldl_nil, hsent4, hsent3]
    simp
  · simp only [run, List.foldl_cons, List.foldl_nil, hsent4]
    simp

/-- What was announced stays announced. -/
theorem Announced.run {n : Nat} (h : Announced validators N) (steps : List ClusterStep) :
    Announced validators (N.run n steps) := by
  induction steps generalizing N with
  | nil => exact h
  | cons s steps ih =>
    obtain ⟨p, b, v, hp, hproposer, hb, hblock, hv, hvoter, hvote⟩ := h
    exact ih (N := N.step n s) ⟨p, b, v, hp, hproposer, hb, sent_subset_step s hblock, hv, hvoter,
      sent_subset_step s hvote⟩

/-- In a chain of three or more, some run leads to a state where the block and the vote for
height 1 are out, no message is on the way, and the first validator has finalized nothing. -/
theorem exists_quiet_not_final (hd : validators.Nodup) (hn : 3 ≤ validators.length)
    (hsize : 2 * validators.length < 2 ^ 64) (allocations : ExtTreeMap Address Account)
    (genesis_hash : Hash) : ∃ steps,
      Announced validators
        ((start validators allocations genesis_hash).run validators.length steps) ∧
      Quiet validators.length
        ((start validators allocations genesis_hash).run validators.length steps) ∧
      ¬ FinalEverywhere validators.length
        ((start validators allocations genesis_hash).run validators.length steps) := by
  have hne : validators ≠ [] := by
    rintro rfl
    simp at hn
  obtain ⟨p, hp, hproposer⟩ := equal_set_proposer hne 1
  have hannounced :=
    announced_after_four (Nat.le_of_succ_le hn) hp hproposer allocations genesis_hash
  generalize hsteps : [ClusterStep.produce p 0, .produce p 0, .produce p 0, .produce p 0] = steps
    at hannounced
  have hwired : Wired validators.length
      ((start validators allocations genesis_hash).run validators.length steps) :=
    run_wired (fun _ _ _ => rfl) steps
  obtain ⟨more, hquiet⟩ := exists_quiet hwired
  have hrun : (start validators allocations genesis_hash).run validators.length (steps ++ more) =
      ((start validators allocations genesis_hash).run validators.length steps).run
        validators.length more := List.foldl_append
  refine ⟨steps ++ more, ?_, ?_, ?_⟩
  · rw [hrun]
    exact hannounced.run more
  · rw [hrun]
    exact hquiet
  · intro hfinal
    obtain ⟨b, hb⟩ := hfinal 0 (by omega)
    rw [(run_apart hd hn hsize
      (start_apart validators allocations genesis_hash) _).short.final] at hb
    simp at hb

end Cluster

end Pemrix
