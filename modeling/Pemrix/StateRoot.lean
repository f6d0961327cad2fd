-- The state root commits to the state. The accounts and the records have keys of
-- their own, so a snapshot has one ledger, and a hash that does not collide on the
-- snapshots has one snapshot.
import Pemrix.Interchange
import Pemrix.Canonical

open Std

namespace Pemrix

/-- Different values have different encodings. -/
class InjectiveEncodings [Crates] : Prop where
  account : ∀ x y : Account, encode x = encode y → x = y
  validator_record : ∀ x y : ValidatorRecord, encode x = encode y → x = y
  delegation : ∀ x y : Delegation, encode x = encode y → x = y
  snapshot : ∀ m n : ExtTreeMap String Bytes, encode m = encode n → m = n

theorem serde_crates_injective (blake3 : Bytes → Bytes32) (verify : Bytes → Bytes → Bytes → Bool) :
    @InjectiveEncodings (serde_crates blake3 verify) := by
  let _ := serde_crates blake3 verify
  exact ⟨fun _ _ h => Forms.account.to_vec_inj h, fun _ _ h => Forms.validator_record.to_vec_inj h,
    fun _ _ h => Forms.delegation.to_vec_inj h, fun _ _ h => Forms.snapshot_inj (Json.write_inj h)⟩

/-- Maps with the same encoded entries are the same. -/
theorem eq_of_getElem?_map_encode {K V : Type} [Ord K] [TransOrd K] [LawfulEqOrd K] [Serialize V]
    (hinj : ∀ x y : V, encode x = encode y → x = y) {m n : ExtTreeMap K V}
    (h : ∀ k : K, m[k]?.map encode = n[k]?.map encode) : m = n := by
  apply ExtTreeMap.ext_getElem?
  intro k
  exact Option.map_injective (fun x y => hinj x y) (h k)

variable [Crates]

namespace Ledger

/-- A ledger is known from its entries. -/
theorem eq_of_mem_entries [InjectiveEncodings] {L L' : Ledger}
    (h : ∀ e, e ∈ L.entries ↔ e ∈ L'.entries) : L = L' := by
  have haccounts : L.accounts = L'.accounts := by
    refine eq_of_getElem?_map_encode InjectiveEncodings.account fun a => ?_
    apply Option.ext
    intro bytes
    rw [← L.account_mem, h, L'.account_mem]
  have hvalidators : L.validators = L'.validators := by
    refine eq_of_getElem?_map_encode InjectiveEncodings.validator_record fun v => ?_
    apply Option.ext
    intro bytes
    rw [← L.validator_mem, h, L'.validator_mem]
  have hdelegations : L.delegations = L'.delegations := by
    refine eq_of_getElem?_map_encode InjectiveEncodings.delegation fun ⟨d, v⟩ => ?_
    apply Option.ext
    intro bytes
    rw [← L.delegation_mem, h, L'.delegation_mem]
  cases L
  cases L'
  simp_all

theorem snapshot_inj [InjectiveEncodings] {L L' : Ledger} (h : L.snapshot = L'.snapshot) :
    L = L' :=
  eq_of_mem_entries
    ((ExtTreeMap.foldl_insert_eq_iff hex_encode_inj L.entries_distinct L'.entries_distinct).mp h)

end Ledger

/-- Stores of two ledgers have the same state root if and only if the ledgers are the same. -/
theorem StateStore.Holds.state_root_eq_iff {B B' : Type} [StateBackend B] [StateBackend B']
    [LedgerBackend B] [LedgerBackend B'] [InjectiveEncodings] {s : StateStore B}
    {s' : StateStore B'} {L L' : Ledger} (h : s.Holds L) (h' : s'.Holds L')
    (hfree : CollisionFree {encode L.snapshot, encode L'.snapshot}) :
    s.state_root = s'.state_root ↔ L = L' := by
  unfold StateStore.state_root
  rw [LedgerBackend.state_root h, LedgerBackend.state_root h']
  constructor
  · intro hroot
    have htext := hfree.eq (Except.ok.inj hroot)
    exact Ledger.snapshot_inj (InjectiveEncodings.snapshot _ _ htext)
  · rintro rfl
    rfl

/-- Two in-memory stores, each after any operations from empty, hold what the operations make of
the three maps, and their state roots are equal if and only if these maps are. -/
theorem state_root_commits [InjectiveEncodings] (ops ops' : List StoreOp) :
    let s := (runOps StateStore.new_in_memory ops).2
    let s' := (runOps StateStore.new_in_memory ops').2
    let L := (Ledger.empty.applyAll ops).2
    let L' := (Ledger.empty.applyAll ops').2
    s.Holds L ∧ s'.Holds L' ∧
      (CollisionFree {encode s.backend.snapshot, encode s'.backend.snapshot} →
        (s.state_root = s'.state_root ↔
          L.accounts = L'.accounts ∧ L.validators = L'.validators ∧
            L.delegations = L'.delegations)) := by
  intro s s' L L'
  obtain ⟨-, hs⟩ := runOps_holds ops new_in_memory_holds
  obtain ⟨-, hs'⟩ := runOps_holds ops' new_in_memory_holds
  refine ⟨hs, hs', ?_⟩
  intro hfree
  rw [Represents.snapshot hs, Represents.snapshot hs'] at hfree
  rw [hs.state_root_eq_iff hs' hfree, Ledger.mk.injEq]

end Pemrix

namespace Pemrix.StateRoot

open Pemrix.Concrete (addr)

/-- An account. -/
def opened : List StoreOp := [.set_account (addr 1) ⟨5, 0⟩]

/-- The same account, with a delegation that is deleted again. -/
def undelegated : List StoreOp :=
  [.set_account (addr 1) ⟨5, 0⟩, .set_delegation (addr 1) (addr 2) ⟨3, false, 0⟩,
    .delete_delegation (addr 1) (addr 2)]

theorem delegations_undelegated :
    (Ledger.empty.applyAll undelegated).2.delegations =
      (Ledger.empty.applyAll opened).2.delegations := by
  decide +kernel

/-- A delegation that was deleted leaves no trace in the state root. -/
theorem state_root_undelegated :
    letI := serde_crates Blake3.hash fun _ _ _ => true
    (runOps StateStore.new_in_memory undelegated).2.state_root =
      (runOps StateStore.new_in_memory opened).2.state_root := by
  let _ := serde_crates Blake3.hash fun _ _ _ => true
  have := serde_crates_injective Blake3.hash fun _ _ _ => true
  have hledger : (Ledger.empty.applyAll undelegated).2 = (Ledger.empty.applyAll opened).2 :=
    congrArg (Ledger.mk _ _) delegations_undelegated
  obtain ⟨hs, hs', hroot⟩ := state_root_commits undelegated opened
  refine (hroot ?_).mpr ⟨rfl, rfl, delegations_undelegated⟩
  rw [Represents.snapshot hs, Represents.snapshot hs', hledger]
  exact .same _

end Pemrix.StateRoot
