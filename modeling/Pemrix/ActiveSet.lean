-- The active set is the top of the ranking by stake: in every store that the operations
-- of `StateStore` build, `update_validator_set` takes the eligible records with fewer than
-- `MAX_ACTIVE_VALIDATORS` others before them, whatever order they were written in.
import Pemrix.Interchange
import Pemrix.Ranking
import Pemrix.StakePower

open Std

namespace Pemrix

/-! ## The ranking -/

namespace ValidatorRecord

/-- The record may have a place in the active set. -/
def Eligible (r : ValidatorRecord) : Prop :=
  r.status = .Active ∧ MIN_ACTIVE_STAKE ≤ r.total_stake

instance (r : ValidatorRecord) : Decidable r.Eligible := inferInstanceAs (Decidable (_ ∧ _))

/-- The stake as a power, cut off at the end of the `u64`. -/
def power (r : ValidatorRecord) : Nat := min r.total_stake.toNat (2 ^ 64 - 1)

theorem toNat_power (r : ValidatorRecord) : (UInt64.ofNat r.power).toNat = r.power := by
  unfold power
  rw [UInt64.toNat_ofNat', Nat.mod_eq_of_lt (by omega)]

end ValidatorRecord

/-- The ranking: more power first, then the smaller address, byte by byte. -/
def Precedes (a : Address) (r : ValidatorRecord) (b : Address) (r' : ValidatorRecord) : Prop :=
  r'.power < r.power ∨ r.power = r'.power ∧ compare a.as_bytes b.as_bytes = .lt

section Ranked

variable {B : Type} [StateBackend B] [Crates]

/-- The addresses with an eligible record. -/
def StateStore.eligible (s : StateStore B) : Set Address :=
  {a | ∃ r, s.validator_record a = .ok (some r) ∧ r.Eligible}

/-- The addresses with an eligible record that precedes another one. -/
def StateStore.ahead (s : StateStore B) (a : Address) (r : ValidatorRecord) : Set Address :=
  {b | ∃ r', s.validator_record b = .ok (some r') ∧ r'.Eligible ∧ Precedes b r' a r}

/-- A set that an engine may come to have from its records: the one that it has, when no record
is eligible, and else the top of the ranking. -/
structure TopOfRanking (e : BftConsensus B) (set : ValidatorSet) : Prop where
  kept : e.state.eligible = ∅ → set = e.validator_set
  member : e.state.eligible.Nonempty → ∀ a power, set.validators[a]? = some power ↔
    ∃ r, e.state.validator_record a = .ok (some r) ∧ r.Eligible ∧
      (e.state.ahead a r).ncard < MAX_ACTIVE_VALIDATORS ∧ power.toNat = r.power
  size : e.state.eligible.Nonempty →
    set.validators.size = min e.state.eligible.ncard MAX_ACTIVE_VALIDATORS

end Ranked

/-! ## The candidates -/

namespace BftConsensus

/-- The order of the candidates as a comparison. -/
def candidate_cmp : Address × UInt64 → Address × UInt64 → Ordering :=
  compareLex (fun a b => compare b.2 a.2) fun a b => compare a.1 b.1

theorem candidate_le_eq : candidate_le = fun a b => (candidate_cmp a b).isLE := rfl

instance : TransCmp candidate_cmp :=
  have : TransCmp fun a b : Address × UInt64 => compare b.2 a.2 :=
    @TransCmp.opposite _ (compareOn Prod.snd) _
  have : TransCmp fun a b : Address × UInt64 => compare a.1 b.1 :=
    inferInstanceAs (TransCmp (compareOn Prod.fst))
  inferInstanceAs (TransCmp (compareLex _ _))

theorem candidate_cmp_lt {a b : Address × UInt64} :
    candidate_cmp a b = .lt ↔ b.2 < a.2 ∨ a.2 = b.2 ∧ compare a.1 b.1 = .lt := by
  have hlt : compare b.2 a.2 = .lt ↔ b.2 < a.2 := Std.compare_eq_lt
  unfold candidate_cmp compareLex
  dsimp only
  rw [Ordering.then_eq_lt, hlt, Std.compare_eq_iff_eq, eq_comm (a := a.2)]

instance : LawfulEqCmp candidate_cmp where
  eq_of_compare {a b} h := by
    unfold candidate_cmp compareLex at h
    dsimp only at h
    rw [Ordering.then_eq_eq, Std.compare_eq_iff_eq, Std.compare_eq_iff_eq] at h
    exact Prod.ext h.2 h.1.symm

/-- A candidate is an eligible record. -/
theorem mem_active_candidates {records : List (Address × ValidatorRecord)} {a : Address}
    {power : UInt64} :
    (a, power) ∈ active_candidates records ↔
      ∃ r, (a, r) ∈ records ∧ r.Eligible ∧ power.toNat = r.power := by
  have hpower : ∀ r : ValidatorRecord,
      (UInt64.ofNat (min r.total_stake.toNat (2 ^ 64 - 1))).toNat = r.power :=
    ValidatorRecord.toNat_power
  unfold active_candidates
  simp only [List.mem_map, List.mem_filter, Prod.mk.injEq, Prod.exists, decide_eq_true_eq]
  constructor
  · rintro ⟨b, r, ⟨hmem, heligible⟩, rfl, rfl⟩
    exact ⟨r, hmem, heligible, hpower r⟩
  · rintro ⟨r, hmem, heligible, htoNat⟩
    exact ⟨a, r, ⟨hmem, heligible⟩, rfl, UInt64.toNat_inj.mp ((hpower r).trans htoNat.symm)⟩

theorem addresses_active_candidates (records : List (Address × ValidatorRecord)) :
    ((active_candidates records).map Prod.fst).Sublist (records.map Prod.fst) := by
  unfold active_candidates
  rw [List.map_map]
  exact List.filter_sublist.map _

/-- The candidates that the engine takes. -/
def taken (records : List (Address × ValidatorRecord)) : List (Address × UInt64) :=
  ((active_candidates records).mergeSort candidate_le).take MAX_ACTIVE_VALIDATORS

theorem addresses_taken {records : List (Address × ValidatorRecord)}
    (h : (records.map Prod.fst).Nodup) : (taken records).Pairwise fun e f => e.1 ≠ f.1 := by
  have hcandidates := h.sublist (addresses_active_candidates records)
  have hsorted := (((active_candidates records).mergeSort_perm candidate_le).map Prod.fst).nodup_iff
    |>.mpr hcandidates
  exact (List.pairwise_map.mp hsorted).sublist (List.take_sublist _ _)

/-- The set has the candidates that were taken. -/
theorem getElem?_stake_set {records : List (Address × ValidatorRecord)}
    (h : (records.map Prod.fst).Nodup) (a : Address) (power : UInt64) :
    (stake_set records).validators[a]? = some power ↔ (a, power) ∈ taken records := by
  have hfold : ∀ (l : List (Address × UInt64)) (set : ValidatorSet),
      (l.foldl (fun set e => set.add e.1 e.2) set).validators =
        l.foldl (fun m e => m.insert e.1 e.2) set.validators := by
    intro l
    induction l with
    | nil => exact fun _ => rfl
    | cons e l ih => exact fun set => ih (set.add e.1 e.2)
  have hset : stake_set records =
      (taken records).foldl (fun set e => set.add e.1 e.2) ValidatorSet.new := rfl
  rw [hset, hfold, ExtTreeMap.getElem?_foldl_insert Prod.fst Prod.snd (addresses_taken h)]
  simp [ValidatorSet.new]

theorem size_stake_set {records : List (Address × ValidatorRecord)}
    (h : (records.map Prod.fst).Nodup) :
    (stake_set records).validators.size =
      min (active_candidates records).length MAX_ACTIVE_VALIDATORS := by
  have hperm : (stake_set records).validators.toList.Perm (taken records) := by
    refine (List.perm_ext_iff_of_nodup (ExtTreeMap.toList_nodup _)
      ((addresses_taken h).imp fun hne he => hne (congrArg Prod.fst he))).mpr ?_
    rintro ⟨a, power⟩
    rw [ExtTreeMap.mem_toList_iff_getElem?_eq_some, getElem?_stake_set h]
  rw [← ExtTreeMap.length_toList, hperm.length_eq]
  unfold taken
  rw [List.length_take, List.length_mergeSort, Nat.min_comm]

end BftConsensus

/-! ## The store and its records -/

section Store

open BftConsensus

variable {B : Type} [StateBackend B] [Crates]

/-- The enumeration gives the records that can be read, each address once. -/
structure StateStore.Lists (s : StateStore B) (records : List (Address × ValidatorRecord)) :
    Prop where
  read : s.validator_records = .ok records
  mem : ∀ a r, (a, r) ∈ records ↔ s.validator_record a = .ok (some r)
  distinct : (records.map Prod.fst).Nodup

theorem StateStore.Holds.lists [LedgerBackend B] [LawfulRecords] {s : StateStore B} {L : Ledger}
    (h : s.Holds L) : ∃ records, s.Lists records := by
  obtain ⟨records, hread, hmem, horder⟩ := h.shows.validator_records
  refine ⟨records, hread, ?_, ?_⟩
  · intro a r
    rw [hmem, h.shows.validator_record, Except.ok.injEq]
  · refine List.pairwise_map.mpr (horder.imp ?_)
    intro e f hlt he
    rw [he, ReflOrd.compare_self] at hlt
    cases hlt

variable {s : StateStore B} {records : List (Address × ValidatorRecord)}

omit [Crates] in
/-- The addresses of a list of candidates, counted. -/
theorem ncard_addresses {l : List (Address × UInt64)} (h : (l.map Prod.fst).Nodup) :
    {a | ∃ power, (a, power) ∈ l}.ncard = l.length := by
  have hset : {a | ∃ power, (a, power) ∈ l} = ((l.map Prod.fst).toFinset : Set Address) := by
    ext a
    simp
  rw [hset, Set.ncard_coe_finset, List.toFinset_card_of_nodup h, List.length_map]

theorem StateStore.Lists.eligible_eq (h : s.Lists records) :
    s.eligible = {a | ∃ power, (a, power) ∈ active_candidates records} := by
  ext a
  simp only [eligible, Set.mem_ofPred_eq, mem_active_candidates, h.mem]
  constructor
  · rintro ⟨r, hread, heligible⟩
    exact ⟨UInt64.ofNat r.power, r, hread, heligible, r.toNat_power⟩
  · rintro ⟨power, r, hread, heligible, -⟩
    exact ⟨r, hread, heligible⟩

omit [Crates] in
/-- One candidate comes before another exactly if its record precedes the other. -/
theorem candidate_cmp_lt_iff {a b : Address} {r r' : ValidatorRecord} {p q : UInt64}
    (hp : p.toNat = r.power) (hq : q.toNat = r'.power) :
    candidate_cmp (a, p) (b, q) = .lt ↔ Precedes a r b r' := by
  have hbytes : compare a b = compare a.as_bytes b.as_bytes :=
    Vector.compare_eq_compare_toList (a := a.bytes) (b := b.bytes)
  rw [candidate_cmp_lt, Precedes, ← hp, ← hq, ← hbytes, UInt64.lt_iff_toNat_lt,
    UInt64.toNat_inj]

theorem StateStore.Lists.ncard_ahead (h : s.Lists records) {a : Address} {r : ValidatorRecord}
    {power : UInt64} (hpower : power.toNat = r.power) :
    (s.ahead a r).ncard =
      ((active_candidates records).filter fun y => candidate_cmp y (a, power) = .lt).length := by
  have hdistinct := h.distinct.sublist (addresses_active_candidates records)
  rw [← ncard_addresses (hdistinct.sublist (List.filter_sublist.map _))]
  congr 1
  ext b
  simp only [ahead, Set.mem_ofPred_eq, List.mem_filter, mem_active_candidates, decide_eq_true_eq,
    h.mem]
  constructor
  · rintro ⟨r', hread, heligible, hprecedes⟩
    have htoNat := r'.toNat_power
    exact ⟨_, ⟨r', hread, heligible, htoNat⟩, (candidate_cmp_lt_iff htoNat hpower).mpr hprecedes⟩
  · rintro ⟨q, ⟨r', hread, heligible, hq⟩, hlt⟩
    exact ⟨r', hread, heligible, (candidate_cmp_lt_iff hq hpower).mp hlt⟩

/-- The set that the engine makes of the records has the top of the ranking. -/
theorem StateStore.Lists.mem_stake_set_iff (h : s.Lists records) (a : Address) (power : UInt64) :
    (stake_set records).validators[a]? = some power ↔
      ∃ r, s.validator_record a = .ok (some r) ∧ r.Eligible ∧
        (s.ahead a r).ncard < MAX_ACTIVE_VALIDATORS ∧ power.toNat = r.power := by
  have hnodup : (active_candidates records).Nodup :=
    (h.distinct.sublist (addresses_active_candidates records)).of_map _
  rw [getElem?_stake_set h.distinct, taken, candidate_le_eq,
    Ranking.mem_take_mergeSort_iff hnodup, mem_active_candidates]
  constructor
  · rintro ⟨⟨r, hmem, heligible, hpower⟩, hlt⟩
    rw [← h.ncard_ahead hpower] at hlt
    exact ⟨r, (h.mem a r).mp hmem, heligible, hlt, hpower⟩
  · rintro ⟨r, hread, heligible, hlt, hpower⟩
    rw [h.ncard_ahead hpower] at hlt
    exact ⟨⟨r, (h.mem a r).mpr hread, heligible, hpower⟩, hlt⟩

/-- The set that the engine makes of the records is empty exactly if no record is eligible. -/
theorem StateStore.Lists.is_empty_iff (h : s.Lists records) :
    (stake_set records).is_empty = true ↔ s.eligible = ∅ := by
  have hcount : s.eligible.ncard = (active_candidates records).length := by
    rw [h.eligible_eq]
    exact ncard_addresses (h.distinct.sublist (addresses_active_candidates records))
  have hsize := size_stake_set h.distinct
  have hmax : 0 < MAX_ACTIVE_VALIDATORS := by decide
  have hfinite : s.eligible.Finite := by
    rw [h.eligible_eq]
    exact ((active_candidates records).map Prod.fst).finite_toSet.subset fun a ⟨p, hp⟩ =>
      List.mem_map.mpr ⟨(a, p), hp, rfl⟩
  unfold ValidatorSet.is_empty
  rw [ExtTreeMap.isEmpty_eq_size_beq_zero, beq_iff_eq, hsize, ← hcount, ← Set.ncard_eq_zero hfinite]
  omega

theorem StateStore.Lists.update_validator_set {e : BftConsensus B} (h : e.state.Lists records) :
    e.update_validator_set.validator_set =
      if (stake_set records).is_empty then e.validator_set else stake_set records := by
  unfold BftConsensus.update_validator_set stake_set
  rw [h.read]
  dsimp only
  split
  · rfl
  · rfl

theorem StateStore.Lists.topOfRanking {e : BftConsensus B} (h : e.state.Lists records) :
    TopOfRanking e e.update_validator_set.validator_set := by
  have hempty := h.is_empty_iff
  rw [h.update_validator_set]
  by_cases hnone : e.state.eligible = ∅
  · rw [if_pos (hempty.mpr hnone)]
    refine ⟨fun _ => rfl, ?_, ?_⟩
    · exact fun hsome => absurd hnone hsome.ne_empty
    · exact fun hsome => absurd hnone hsome.ne_empty
  · rw [if_neg fun hset => hnone (hempty.mp hset)]
    refine ⟨fun hall => absurd hall hnone, fun _ => h.mem_stake_set_iff, fun _ => ?_⟩
    rw [size_stake_set h.distinct, h.eligible_eq,
      ncard_addresses (h.distinct.sublist (addresses_active_candidates records))]

end Store

variable [Crates]

/-- The ranking reads the records only. -/
theorem TopOfRanking.unique {B B' : Type} [StateBackend B] [StateBackend B'] {e : BftConsensus B}
    {e' : BftConsensus B'} {set set' : ValidatorSet} (h : TopOfRanking e set)
    (h' : TopOfRanking e' set') (hbefore : e.validator_set = e'.validator_set)
    (hrecords : ∀ a, e.state.validator_record a = e'.state.validator_record a) : set = set' := by
  have heligible : e.state.eligible = e'.state.eligible := by
    unfold StateStore.eligible
    simp only [hrecords]
  have hahead : e.state.ahead = e'.state.ahead := by
    unfold StateStore.ahead
    simp only [hrecords]
  rcases e.state.eligible.eq_empty_or_nonempty with hnone | hsome
  · rw [h.kept hnone, h'.kept (heligible ▸ hnone), hbefore]
  · have hvalidators : set.validators = set'.validators := by
      apply ExtTreeMap.ext_getElem?
      intro a
      apply Option.ext
      intro power
      rw [h.member hsome, h'.member (heligible ▸ hsome), hahead]
      simp only [hrecords]
    cases set
    cases set'
    exact congrArg ValidatorSet.mk hvalidators

/-- In every store that operations build in an empty backend, the engine takes the top of the
ranking, and two stores with the same records give the same set, whatever was written before
and in whatever order. -/
theorem active_set_is_the_top_of_the_ranking [LawfulRecords] {B B' : Type} [StateBackend B]
    [LedgerBackend B] [StateBackend B'] [LedgerBackend B'] {empty : StateStore B}
    {empty' : StateStore B'} (hempty : empty.Holds .empty) (hempty' : empty'.Holds .empty)
    (ops ops' : List StoreOp) (e : BftConsensus B) (e' : BftConsensus B')
    (he : e.state = (runOps empty ops).2) (he' : e'.state = (runOps empty' ops').2) :
    TopOfRanking e e.update_validator_set.validator_set ∧
      (e.validator_set = e'.validator_set →
        (∀ a, e.state.validator_record a = e'.state.validator_record a) →
        e.update_validator_set.validator_set = e'.update_validator_set.validator_set) := by
  have hlists : ∃ records, e.state.Lists records := by
    rw [he]
    exact (runOps_holds ops hempty).2.lists
  have hlists' : ∃ records, e'.state.Lists records := by
    rw [he']
    exact (runOps_holds ops' hempty').2.lists
  obtain ⟨records, hlists⟩ := hlists
  obtain ⟨records', hlists'⟩ := hlists'
  exact ⟨hlists.topOfRanking, hlists.topOfRanking.unique hlists'.topOfRanking⟩

end Pemrix

/-! ## Three records -/

namespace Pemrix.Concrete

/-- Two records above the threshold and one below it. -/
def three_records : List StoreOp :=
  [.set_validator_record (addr 1) (.new (addr 1) [7] 100000000000000 500),
    .set_validator_record (addr 2) (.new (addr 2) [7] 200000000000000 500),
    .set_validator_record (addr 3) (.new (addr 3) [7] 99999999999999 500)]

/-- The records written in one order in memory and in the other one on disk. -/
theorem three_records_rank_alike :
    let e := BftConsensus.new_with_store (addr 1) .new
      (runOps StateStore.new_in_memory three_records).2 default
    let e' := BftConsensus.new_with_store (addr 1) .new
      (runOps (⟨RocksDbBackend.new⟩ : StateStore RocksDbBackend) three_records.reverse).2 default
    TopOfRanking e e.update_validator_set.validator_set ∧
      e.update_validator_set.validator_set = e'.update_validator_set.validator_set := by
  intro e e'
  have hrank := active_set_is_the_top_of_the_ranking new_in_memory_holds rocksdb_new_holds
    three_records three_records.reverse e e' rfl rfl
  refine ⟨hrank.1, hrank.2 rfl ?_⟩
  intro a
  have hmaps : (Ledger.empty.applyAll three_records).2.validators =
      (Ledger.empty.applyAll three_records.reverse).2.validators := by decide +kernel
  have hmemory := (runOps_holds three_records new_in_memory_holds).2.shows.validator_record a
  have hrocksdb := (runOps_holds three_records.reverse rocksdb_new_holds).2.shows.validator_record a
  rw [hmaps] at hmemory
  exact hmemory.trans hrocksdb.symm

end Pemrix.Concrete
