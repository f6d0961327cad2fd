-- The network that `bootstrap_bft_network` and `run_bft_testnet` set up. Each
-- validator dials the one before it in the list, so the links form a chain, and
-- what a node broadcasts reaches its neighbours in the chain only. The links are
-- up and lose nothing, and each of them keeps its messages in order.
import Pemrix.Node
import Pemrix.ProposerTurns
import Pemrix.Rounds

open Std

namespace Pemrix

/-! ## The configuration -/

/-- The validators in the bootstrap list of validator `i`. -/
def bootstrap_nodes (i : Nat) : List Nat := if 0 < i then [i - 1] else []

/-- The two are among the `n` validators, and one of them dials the other. -/
def Connected (n i j : Nat) : Prop :=
  i < n ∧ j < n ∧ (j ∈ bootstrap_nodes i ∨ i ∈ bootstrap_nodes j)

instance (n i j : Nat) : Decidable (Connected n i j) := inferInstanceAs (Decidable (_ ∧ _ ∧ _))

theorem connected_iff {n i j : Nat} :
    Connected n i j ↔ i < n ∧ j < n ∧ (j + 1 = i ∨ i + 1 = j) := by
  unfold Connected bootstrap_nodes
  refine and_congr_right fun _ => and_congr_right fun _ => ?_
  constructor
  · rintro (h | h)
    · split at h
      · rw [List.mem_singleton] at h
        omega
      · cases h
    · split at h
      · rw [List.mem_singleton] at h
        omega
      · cases h
  · rintro (rfl | rfl)
    · left
      rw [if_pos (Nat.succ_pos j)]
      simp
    · right
      rw [if_pos (Nat.succ_pos i)]
      simp

def peer_count (n i : Nat) : Nat := (List.range n).countP fun j => Connected n i j

/-- Every validator has power 1. -/
def equal_set (validators : List Address) : ValidatorSet :=
  .from_validators (validators.map fun a => ⟨a, 1⟩)

/-! ## The network -/

/-- The nodes, the messages on the way from one to another, and all that was broadcast. -/
structure Cluster where
  node : Nat → ValidatorNode InMemoryBackend
  link : Nat → Nat → List Message
  sent : List (Nat × Message)

/-- A node goes on with its production loop, takes a message from a link when its event loop
waits for one, or goes on with its event loop. -/
inductive ClusterStep where
  | produce (i : Nat) (now : UInt64)
  | deliver (i j : Nat) (now : UInt64)
  | react (i : Nat) (now : UInt64)

/-- A step of the network, or the next message of a link is lost. -/
inductive LossyStep where
  | step (s : ClusterStep)
  | lose (i j : Nat)

namespace Cluster

/-- The store of a new node: the genesis allocations, and no validator records. -/
def genesis_store (allocations : ExtTreeMap Address Account) : StateStore InMemoryBackend :=
  ⟨⟨allocations, ∅⟩⟩

def address (validators : List Address) (i : Nat) : Address := validators.getD i default

def start (validators : List Address) (allocations : ExtTreeMap Address Account)
    (genesis_hash : Hash) : Cluster :=
  { node := fun i => .new (.new_with_store (address validators i) (equal_set validators)
      (genesis_store allocations) genesis_hash)
    link := fun _ _ => []
    sent := [] }

def set_node (N : Cluster) (i : Nat) (v : ValidatorNode InMemoryBackend) : Cluster :=
  { N with node := fun k => if k = i then v else N.node k }

/-- The messages go to all peers of the node. -/
def broadcast (n : Nat) (N : Cluster) (i : Nat) (out : List Message) : Cluster :=
  { N with
    link := fun a b => if a = i ∧ Connected n i b then N.link a b ++ out else N.link a b
    sent := N.sent ++ out.map fun m => (i, m) }

variable [Crates] [VoteFormat]

/-- The network of `n` validators after a step. A step that is not possible changes nothing. -/
def step (n : Nat) (N : Cluster) : ClusterStep → Cluster
  | .produce i now =>
    if i < n then
      let (out, v) := (N.node i).produce (peer_count n i) now
      broadcast n (N.set_node i v) i out
    else N
  | .deliver i j now =>
    if Connected n i j ∧ (N.node j).receiving = .next_event then
      match N.link i j with
      | [] => N
      | m :: rest =>
        { N.set_node j ((N.node j).receive now m) with
          link := fun a b => if a = i ∧ b = j then rest else N.link a b }
    else N
  | .react i now =>
    if i < n then
      let (out, v) := (N.node i).react now
      broadcast n (N.set_node i v) i out
    else N

def run (n : Nat) (N : Cluster) (steps : List ClusterStep) : Cluster := steps.foldl (step n) N

/-- A connection that breaks takes what is on the way with it, one message after the other. -/
def lossy_step (n : Nat) (N : Cluster) : LossyStep → Cluster
  | .step s => N.step n s
  | .lose i j =>
    { N with link := fun a b => if a = i ∧ b = j then (N.link i j).tail else N.link a b }

def lossy_run (n : Nat) (N : Cluster) (steps : List LossyStep) : Cluster :=
  steps.foldl (lossy_step n) N

omit [Crates] [VoteFormat] in
/-- No message is on the way, and no node is in the middle of one. -/
def Quiet (n : Nat) (N : Cluster) : Prop :=
  (∀ i j, i < n → j < n → N.link i j = []) ∧ ∀ i, i < n → (N.node i).receiving = .next_event

omit [Crates] in
/-- The proposer of height 1 has broadcast its block and its vote for that height. -/
def Announced (validators : List Address) (N : Cluster) : Prop :=
  ∃ (p : Nat) (b : Block) (v : Vote), p < validators.length ∧
    (equal_set validators).proposer 1 0 = some (address validators p) ∧
    b.header.height = 1 ∧ (p, .Block b) ∈ N.sent ∧
    v.height = 1 ∧ v.voter = (address validators p).bytes ∧ (p, .Vote (encode v)) ∈ N.sent

omit [Crates] [VoteFormat] in
/-- Every validator has finalized height 1. -/
def FinalEverywhere (n : Nat) (N : Cluster) : Prop :=
  ∀ i, i < n → ∃ b, (N.node i).consensus.finalized[(1 : UInt64)]? = some b

end Cluster

/-! ## Equal powers -/

section EqualPower

variable {validators : List Address}

theorem from_validators_getElem? (l : List Address) (set : ValidatorSet) (a : Address) :
    ((l.map fun a => (⟨a, 1⟩ : Validator)).foldl (fun set v => set.add v.address v.power)
      set).validators[a]? = if a ∈ l then some 1 else set.validators[a]? := by
  induction l generalizing set with
  | nil => simp
  | cons c l ih =>
    rw [List.map_cons, List.foldl_cons, ih]
    by_cases hl : a ∈ l
    · rw [if_pos hl, if_pos (List.mem_cons_of_mem c hl)]
    · rw [if_neg hl]
      simp only [ValidatorSet.add, ExtTreeMap.getElem?_insert, LawfulEqCmp.compare_eq_iff_eq,
        List.mem_cons, hl, or_false]
      exact if_congr eq_comm rfl rfl

theorem equal_set_getElem? (a : Address) :
    (equal_set validators).validators[a]? = if a ∈ validators then some 1 else none := by
  unfold equal_set ValidatorSet.from_validators
  rw [from_validators_getElem?]
  simp [ValidatorSet.new]

theorem mem_equal_set {a : Address} : a ∈ (equal_set validators).validators ↔ a ∈ validators := by
  rw [ExtTreeMap.mem_iff_isSome_getElem?, equal_set_getElem?]
  split
  · rename_i h
    simp [h]
  · rename_i h
    simp [h]

/-- The power of some validators is their number. -/
theorem equal_set_weight {l : List Address} (hl : l.Nodup) (hsub : ∀ a ∈ l, a ∈ validators) :
    (equal_set validators).validators.weight (fun a => a ∈ l) = l.length := by
  rw [← ExtTreeMap.sum_lookup_eq_weight hl fun _ => Iff.rfl]
  have hone : l.map (fun a => ((equal_set validators).validators[a]?.map UInt64.toNat).getD 0) =
      l.map fun _ => 1 := by
    refine List.map_congr_left ?_
    intro a ha
    rw [equal_set_getElem?, if_pos (hsub a ha)]
    rfl
  rw [hone]
  simp

theorem equal_set_total (hd : validators.Nodup) :
    (equal_set validators).total = validators.length := by
  rw [← equal_set_weight hd fun _ ha => ha]
  refine Nat.le_antisymm ?_ ExtTreeMap.weight_le_totalWeight
  have htrue : (equal_set validators).total =
      (equal_set validators).validators.weight fun _ => True := by
    simp [ValidatorSet.total, ExtTreeMap.totalWeight, ExtTreeMap.weight]
  rw [htrue]
  refine ExtTreeMap.weight_mono_of_mem ?_
  intro a w hw _
  exact mem_equal_set.mp (ExtTreeMap.mem_iff_isSome_getElem?.mpr (by rw [hw]; rfl))

/-- A group of voters within a list has at most the power of the length of the list. -/
theorem equal_set_weight_le {p : Address → Prop} [DecidablePred p] (l : List Address)
    (hp : ∀ a ∈ validators, p a → a ∈ l) :
    (equal_set validators).validators.weight p ≤ l.length := by
  let known := l.dedup.filter (· ∈ validators)
  have hweight : (equal_set validators).validators.weight p ≤
      (equal_set validators).validators.weight fun a => a ∈ known := by
    refine ExtTreeMap.weight_mono_of_mem ?_
    intro a w hw ha
    have hmem := mem_equal_set.mp (ExtTreeMap.mem_iff_isSome_getElem?.mpr (by rw [hw]; rfl))
    simp [known, hp a hmem ha, hmem]
  rw [equal_set_weight (l.nodup_dedup.filter _) (by simp)] at hweight
  exact Nat.le_trans hweight
    (Nat.le_trans (List.length_filter_le _ _) (List.dedup_sublist l).length_le)

theorem equal_set_threshold (hd : validators.Nodup) (hsize : 2 * validators.length < 2 ^ 64) :
    (equal_set validators).quorum_threshold.toNat = validators.length * 2 / 3 + 1 := by
  have ht := equal_set_total hd
  rw [ValidatorSet.toNat_quorum_threshold (by rw [ht]; exact hsize), ht]

/-- The proposer of a height is one of the validators. -/
theorem equal_set_proposer (hne : validators ≠ []) (height : UInt64) :
    ∃ p, p < validators.length ∧
      (equal_set validators).proposer height 0 = some (Cluster.address validators p) := by
  obtain ⟨c, l, rfl⟩ := List.exists_cons_of_ne_nil hne
  have hmem : c ∈ (equal_set (c :: l)).validators := mem_equal_set.mpr List.mem_cons_self
  have hempty : (equal_set (c :: l)).is_empty = false := by
    cases hempty : (equal_set (c :: l)).is_empty with
    | false => rfl
    | true =>
      rw [ExtTreeMap.isEmpty_iff.mp hempty] at hmem
      exact absurd hmem ExtTreeMap.not_mem_empty
  obtain ⟨a, ha, hmember⟩ := ValidatorSet.exists_proposer hempty height 0
  have hin : a ∈ c :: l := mem_equal_set.mp (ExtTreeMap.contains_iff_mem.mp hmember)
  obtain ⟨p, hp, hget⟩ := List.mem_iff_getElem.mp hin
  refine ⟨p, hp, ?_⟩
  rw [ha, Cluster.address, List.getD_eq_getElem?_getD, List.getElem?_eq_getElem hp, hget]
  rfl

end EqualPower

end Pemrix
