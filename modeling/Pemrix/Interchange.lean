-- Both backends hold ledgers, and the store does to the ledger of any backend what
-- its operations are for. So a run of operations leaves the two backends with the
-- same answers and the same state root.
import Pemrix.StoreOps
import Pemrix.TextForms
import Pemrix.Restart

open Std

namespace Pemrix

variable [Crates]

/-- A backend whose content is the entries of a ledger. -/
class LedgerBackend (B : Type) [StateBackend B] where
  Holds : B → Ledger → Prop
  get_account : ∀ {b L}, Holds b L → ∀ a, StateBackend.get_account b a = .ok L.accounts[a]?
  get_validator : ∀ {b L}, Holds b L → ∀ v,
    StateBackend.get_raw b (validator_key v) = .ok (L.validators[v]?.map encode)
  get_delegation : ∀ {b L}, Holds b L → ∀ d v,
    StateBackend.get_raw b (delegation_key d v) = .ok (L.delegations[(d, v)]?.map encode)
  scan : ∀ {b L}, Holds b L →
    StateBackend.iter_raw_prefix b VALIDATOR_PREFIX = .ok (L.validators.toList.map recordEntry)
  state_root : ∀ {b L}, Holds b L →
    StateBackend.state_root b = .ok (Hash.hash_bytes (encode L.snapshot))
  put_account : ∀ {b L}, Holds b L → ∀ a x,
    ∃ b', StateBackend.put_account b a x = (.ok (), b') ∧ Holds b' (L.setAccount a x)
  put_validator : ∀ {b L}, Holds b L → ∀ v r,
    ∃ b', StateBackend.put_raw b (validator_key v) (encode r) = (.ok (), b') ∧
      Holds b' (L.setValidator v r)
  put_delegation : ∀ {b L}, Holds b L → ∀ d v (x : Delegation),
    ∃ b', StateBackend.put_raw b (delegation_key d v) (encode x) = (.ok (), b') ∧
      Holds b' (L.setDelegation d v x)
  delete_delegation : ∀ {b L}, Holds b L → ∀ d v,
    ∃ b', StateBackend.delete_raw b (delegation_key d v) = (.ok (), b') ∧
      Holds b' (L.deleteDelegation d v)

/-! ## The in-memory backend -/

/-- A list with the entries of the ledger, each key once, collects to its snapshot. -/
theorem Ledger.snapshot_of_mem_iff {L : Ledger} {l : List RawEntry}
    (hdist : l.Pairwise fun e f => e.1 ≠ f.1) (h : ∀ e, e ∈ l ↔ e ∈ L.entries) :
    l.foldl (fun m e => m.insert (InMemoryBackend.hex_encode e.1) e.2) ∅ = L.snapshot :=
  (ExtTreeMap.foldl_insert_eq_iff hex_encode_inj hdist L.entries_distinct).mpr h

/-- The entries as `state_root` of the in-memory backend goes through them. -/
theorem Represents.mem_entries {s : StateStore InMemoryBackend} {L : Ledger} (h : Represents s L)
    (e : RawEntry) :
    e ∈ s.backend.accounts.toList.map accountEntry ++ s.backend.raw.toList ↔ e ∈ L.entries := by
  obtain ⟨key, bytes⟩ := e
  rw [List.mem_append, h.accounts, ExtTreeMap.mem_toList_iff_getElem?_eq_some]
  constructor
  · rintro (hmem | hraw)
    · exact List.mem_append_left _ hmem
    · rcases h.keys key (by simp [hraw]) with ⟨v, rfl⟩ | ⟨d, v, rfl⟩
      · rw [L.validator_mem, ← h.validators, hraw]
      · rw [L.delegation_mem, ← h.delegations, hraw]
  · intro hmem
    rcases Ledger.key_cases hmem with ⟨a, rfl⟩ | ⟨v, rfl⟩ | ⟨d, v, rfl⟩
    · obtain ⟨x, hx, rfl⟩ := Option.map_eq_some_iff.mp ((L.account_mem a bytes).mp hmem)
      refine Or.inl (List.mem_map.mpr ⟨(a, x), ?_, rfl⟩)
      exact ExtTreeMap.mem_toList_iff_getElem?_eq_some.mpr hx
    · rw [h.validators, ← L.validator_mem]
      exact Or.inr hmem
    · rw [h.delegations, ← L.delegation_mem]
      exact Or.inr hmem

theorem Represents.snapshot {s : StateStore InMemoryBackend} {L : Ledger} (h : Represents s L) :
    s.backend.snapshot = L.snapshot := by
  have hcollect : s.backend.snapshot =
      (s.backend.accounts.toList.map accountEntry ++ s.backend.raw.toList).foldl
        (fun m e => m.insert (InMemoryBackend.hex_encode e.1) e.2) ∅ := by
    rw [List.foldl_append, List.foldl_map]
    rfl
  rw [hcollect]
  refine Ledger.snapshot_of_mem_iff ?_ h.mem_entries
  rw [List.pairwise_append, List.pairwise_map]
  refine ⟨s.backend.accounts.toList_keys_ne.imp fun hne he =>
    hne (RocksDbBackend.account_key_inj he), s.backend.raw.toList_keys_ne, ?_⟩
  rintro _ he ⟨key, bytes⟩ hraw
  obtain ⟨x, -, rfl⟩ := List.mem_map.mp he
  have hkey := h.keys key (by simp [ExtTreeMap.mem_toList_iff_getElem?_eq_some.mp hraw])
  exact RocksDbBackend.account_key_ne _ hkey

instance : LedgerBackend InMemoryBackend where
  Holds b L := Represents ⟨b⟩ L
  get_account h := h.get_account
  get_validator h v := congrArg Except.ok (h.validators v)
  get_delegation h d v := congrArg Except.ok (h.delegations d v)
  scan h := congrArg Except.ok (entries_with_validators h)
  state_root h := congrArg (fun m => Except.ok (Hash.hash_bytes (encode m))) h.snapshot
  put_account {b L} h a x := by
    obtain ⟨s', hset, hr⟩ := h.set_account a x
    exact ⟨s'.backend, by cases hset; rfl, hr⟩
  put_validator h v r := by
    obtain ⟨s', hset, hr⟩ := h.set_validator_record v r
    exact ⟨s'.backend, by cases hset; rfl, hr⟩
  put_delegation h d v x := by
    obtain ⟨s', hset, hr⟩ := h.set_delegation d v x
    exact ⟨s'.backend, by cases hset; rfl, hr⟩
  delete_delegation h d v := by
    obtain ⟨s', hset, hr⟩ := h.delete_delegation d v
    exact ⟨s'.backend, by cases hset; rfl, hr⟩

/-! ## The RocksDB backend -/

/-- The database has exactly the entries. -/
def RocksDbBackend.Holds (b : RocksDbBackend) (L : Ledger) : Prop :=
  ∀ key bytes, b.db[key]? = some bytes ↔ (key, bytes) ∈ L.entries

namespace RocksDbBackend.Holds

variable {b : RocksDbBackend} {L : Ledger}

theorem account (h : b.Holds L) (a : Address) :
    b.db[account_key a]? = L.accounts[a]?.map encode := by
  apply Option.ext
  intro bytes
  rw [h, L.account_mem]

theorem validator (h : b.Holds L) (v : Address) :
    b.db[validator_key v]? = L.validators[v]?.map encode := by
  apply Option.ext
  intro bytes
  rw [h, L.validator_mem]

theorem delegation (h : b.Holds L) (d v : Address) :
    b.db[delegation_key d v]? = L.delegations[(d, v)]?.map encode := by
  apply Option.ext
  intro bytes
  rw [h, L.delegation_mem]

/-- One entry is written. -/
theorem insert (h : b.Holds L) {L' : Ledger} {key value : Bytes}
    (hmem : ∀ k bytes, (k, bytes) ∈ L'.entries ↔
      if key = k then value = bytes else (k, bytes) ∈ L.entries) :
    (⟨b.db.insert key value⟩ : RocksDbBackend).Holds L' := by
  intro k bytes
  rw [hmem]
  simp only [ExtTreeMap.getElem?_insert, LawfulEqCmp.compare_eq_iff_eq]
  split
  · exact Option.some_inj
  · exact h k bytes

omit [Crates] in
theorem account_key_lt (a : Address) : compare (account_key a) VALIDATOR_PREFIX = .lt := by
  unfold account_key ACCOUNT_PREFIX VALIDATOR_PREFIX
  rw [List.cons_append, List.compare_cons_cons]
  rfl

omit [Crates] in
theorem delegation_key_lt (d v : Address) :
    compare (delegation_key d v) VALIDATOR_PREFIX = .lt := by
  unfold delegation_key DELEGATION_PREFIX VALIDATOR_PREFIX
  rw [List.cons_append, List.cons_append, List.compare_cons_cons]
  rfl

/-- The keys from `val:` on are the ones of the validator records: the other prefixes come
before it. -/
theorem entries_from_validators (h : b.Holds L) :
    b.entries_from VALIDATOR_PREFIX = L.validators.toList.map recordEntry := by
  unfold entries_from
  rw [PrefixScan.dropWhile_eq_filter b.db.ordered_keys_toList]
  · refine PrefixScan.eq_of_pairwise_of_mem_iff (R := fun x y => compare x.1 y.1 = .lt)
      compare_lt_asymm (b.db.ordered_keys_toList.filter _) (validators_ordered L) ?_
    · rintro ⟨key, bytes⟩
      rw [List.mem_filter, ExtTreeMap.mem_toList_iff_getElem?_eq_some, h]
      constructor
      · rintro ⟨hmem, hfrom⟩
        rcases (L.mem_entries _).mp hmem with ⟨a, x, -, he⟩ | ⟨v, r, hr, he⟩ | ⟨d, v, x, -, he⟩
        · have hlt := account_key_lt a
          rw [(Prod.mk.inj he).1] at hlt
          simp [hlt] at hfrom
        · exact List.mem_map.mpr ⟨(v, r), ExtTreeMap.mem_toList_iff_getElem?_eq_some.mpr hr, he⟩
        · have hlt := delegation_key_lt d v
          rw [(Prod.mk.inj he).1] at hlt
          simp [hlt] at hfrom
      · intro hmem
        obtain ⟨⟨v, r⟩, hr, he⟩ := List.mem_map.mp hmem
        rw [ExtTreeMap.mem_toList_iff_getElem?_eq_some] at hr
        refine ⟨(L.mem_entries _).mpr (Or.inr (Or.inl ⟨v, r, hr, he⟩)), ?_⟩
        have hge := PrefixScan.not_lt_of_isPrefix (List.prefix_append VALIDATOR_PREFIX v.as_bytes)
        rw [← he, Bool.not_eq_eq_eq_not, Bool.not_true, decide_eq_false_iff_not]
        exact hge
  · intro x y hxy hx
    simp only [decide_eq_false_iff_not] at hx ⊢
    exact fun hy => hx (TransCmp.lt_trans hxy hy)

end RocksDbBackend.Holds

open RocksDbBackend in
instance [LawfulAccounts] : LedgerBackend RocksDbBackend where
  Holds := Holds
  get_account {b L} h a := by
    simp only [StateBackend.get_account, h.account a]
    rcases L.accounts[a]? with _ | x
    · rfl
    · simp only [Option.map_some, LawfulAccounts.account]
  get_validator h v := congrArg Except.ok (h.validator v)
  get_delegation h d v := congrArg Except.ok (h.delegation d v)
  scan h := congrArg Except.ok h.entries_from_validators
  state_root {b L} h := by
    have hsnapshot : b.snapshot = L.snapshot := by
      refine Ledger.snapshot_of_mem_iff b.db.toList_keys_ne ?_
      rintro ⟨key, bytes⟩
      rw [ExtTreeMap.mem_toList_iff_getElem?_eq_some, h]
    exact congrArg (fun m => Except.ok (Hash.hash_bytes (encode m))) hsnapshot
  put_account {b L} h a x := ⟨_, rfl, h.insert (L.mem_entries_setAccount a x)⟩
  put_validator {b L} h v r := ⟨_, rfl, h.insert (L.mem_entries_setValidator v r)⟩
  put_delegation {b L} h d v x := ⟨_, rfl, h.insert (L.mem_entries_setDelegation d v x)⟩
  delete_delegation {b L} h d v := by
    refine ⟨_, rfl, ?_⟩
    intro key bytes
    rw [L.mem_entries_deleteDelegation, ExtTreeMap.getElem?_erase]
    simp only [LawfulEqCmp.compare_eq_iff_eq]
    split
    · rename_i hkey
      simp [hkey]
    · rename_i hkey
      rw [h, and_iff_right hkey]

/-! ## The store does what its operations are for -/

section Store

variable {B : Type} [StateBackend B] [LedgerBackend B] {s : StateStore B} {L : Ledger}

def StateStore.Holds (s : StateStore B) (L : Ledger) : Prop := LedgerBackend.Holds s.backend L

namespace StateStore.Holds

theorem get_account (h : s.Holds L) (a : Address) : s.get_account a = .ok L.accounts[a]? :=
  LedgerBackend.get_account h a

theorem set_account (h : s.Holds L) (a : Address) (x : Account) :
    ∃ s', s.set_account a x = (.ok (), s') ∧ s'.Holds (L.setAccount a x) := by
  obtain ⟨b, hput, hb⟩ := LedgerBackend.put_account h a x
  unfold StateStore.set_account
  rw [hput]
  exact ⟨⟨b⟩, rfl, hb⟩

theorem set_validator_record (h : s.Holds L) (v : Address) (r : ValidatorRecord) :
    ∃ s', s.set_validator_record v r = (.ok (), s') ∧ s'.Holds (L.setValidator v r) := by
  obtain ⟨b, hput, hb⟩ := LedgerBackend.put_validator h v r
  unfold StateStore.set_validator_record StateStore.set_record
  rw [hput]
  exact ⟨⟨b⟩, rfl, hb⟩

theorem set_delegation (h : s.Holds L) (d v : Address) (x : Delegation) :
    ∃ s', s.set_delegation d v x = (.ok (), s') ∧ s'.Holds (L.setDelegation d v x) := by
  obtain ⟨b, hput, hb⟩ := LedgerBackend.put_delegation h d v x
  unfold StateStore.set_delegation StateStore.set_record
  rw [hput]
  exact ⟨⟨b⟩, rfl, hb⟩

theorem delete_delegation (h : s.Holds L) (d v : Address) :
    ∃ s', s.delete_delegation d v = (.ok (), s') ∧ s'.Holds (L.deleteDelegation d v) := by
  obtain ⟨b, hdelete, hb⟩ := LedgerBackend.delete_delegation h d v
  unfold StateStore.delete_delegation
  rw [hdelete]
  exact ⟨⟨b⟩, rfl, hb⟩

theorem transfer_amount_only (h : s.Holds L) (a : Address) (amount : Balance)
    (ops : List ArithOp) :
    ∃ s' ops', (StateStore.transfer_amount_only a amount).run ⟨s, ops⟩ =
        ((L.receive a amount).1, ⟨s', ops'⟩) ∧ s'.Holds (L.receive a amount).2 := by
  unfold StateStore.transfer_amount_only Ledger.receive Ledger.account
  rw [Exec.run_read_bind (h.get_account a)]
  dsimp only
  rw [Exec.checked_add, Exec.run_arith_bind]
  rcases U128.checked_add (L.accounts[a]?.getD default).balance amount with _ | balance
  · exact ⟨s, _, rfl, h⟩
  · obtain ⟨s', hset, hs'⟩ := h.set_account a { L.accounts[a]?.getD default with balance }
    refine ⟨s', ops ++ [.checked_add (L.accounts[a]?.getD default).balance amount], ?_, hs'⟩
    show ((s.set_account a _).1, (⟨(s.set_account a _).2, _⟩ : Machine B)) = _
    rw [hset]

theorem transfer (h : s.Holds L) (sender recipient : Address) (amount fee : Balance) :
    ∃ s' ops, (StateStore.transfer sender recipient amount fee).run ⟨s, []⟩ =
        ((L.pay sender recipient amount fee).1, ⟨s', ops⟩) ∧
      s'.Holds (L.pay sender recipient amount fee).2 := by
  unfold StateStore.transfer Ledger.pay
  rw [Exec.run_read_bind (h.get_account sender)]
  rcases L.accounts[sender]? with _ | account
  · exact ⟨s, [], rfl, h⟩
  · dsimp only
    rw [Exec.checked_add, Exec.run_arith_bind]
    rcases U128.checked_add amount fee with _ | total
    · exact ⟨s, _, rfl, h⟩
    · dsimp only
      by_cases hcovers : account.balance < total
      · rw [if_pos hcovers, if_pos hcovers]
        exact ⟨s, _, rfl, h⟩
      · rw [if_neg hcovers, if_neg hcovers]
        obtain ⟨s1, hset, hs1⟩ := h.set_account sender
          ⟨account.balance - total, account.nonce + 1⟩
        rw [Exec.sub, Exec.run_arith_bind, Exec.run_write_bind hset]
        exact hs1.transfer_amount_only recipient amount _

end StateStore.Holds

/-- One operation: the result and the ledger that it should give. -/
theorem StoreOp.run_holds (op : StoreOp) (h : s.Holds L) :
    (op.run s).1 = (L.apply op).1 ∧ (op.run s).2.Holds (L.apply op).2 := by
  cases op with
  | set_account a x =>
    obtain ⟨s', hrun, hs'⟩ := h.set_account a x
    simp only [StoreOp.run, hrun]
    exact ⟨rfl, hs'⟩
  | transfer sender recipient amount fee =>
    obtain ⟨s', ops, hrun, hs'⟩ := h.transfer sender recipient amount fee
    simp only [StoreOp.run, hrun]
    exact ⟨rfl, hs'⟩
  | transfer_amount_only a amount =>
    obtain ⟨s', ops, hrun, hs'⟩ := h.transfer_amount_only a amount []
    simp only [StoreOp.run, hrun]
    exact ⟨rfl, hs'⟩
  | set_validator_record v r =>
    obtain ⟨s', hrun, hs'⟩ := h.set_validator_record v r
    simp only [StoreOp.run, hrun]
    exact ⟨rfl, hs'⟩
  | set_delegation d v x =>
    obtain ⟨s', hrun, hs'⟩ := h.set_delegation d v x
    simp only [StoreOp.run, hrun]
    exact ⟨rfl, hs'⟩
  | delete_delegation d v =>
    obtain ⟨s', hrun, hs'⟩ := h.delete_delegation d v
    simp only [StoreOp.run, hrun]
    exact ⟨rfl, hs'⟩

theorem runOps_holds (ops : List StoreOp) (h : s.Holds L) :
    (runOps s ops).1 = (L.applyAll ops).1 ∧ (runOps s ops).2.Holds (L.applyAll ops).2 := by
  induction ops generalizing s L with
  | nil => exact ⟨rfl, h⟩
  | cons op ops ih =>
    obtain ⟨hresult, hop⟩ := op.run_holds h
    obtain ⟨hresults, hops⟩ := ih hop
    refine ⟨?_, hops⟩
    show (op.run s).1 :: (runOps (op.run s).2 ops).1 = _
    rw [hresult, hresults]
    rfl

end Store

/-! ## Two backends -/

/-- No read tells the two stores apart. -/
structure SameReads {B B' : Type} [StateBackend B] [StateBackend B'] (s : StateStore B)
    (s' : StateStore B') : Prop where
  balance : ∀ a, s.balance a = s'.balance a
  nonce : ∀ a, s.nonce a = s'.nonce a
  get_account : ∀ a, s.get_account a = s'.get_account a
  validator_record : ∀ v, s.validator_record v = s'.validator_record v
  delegation : ∀ d v, s.delegation d v = s'.delegation d v
  validator_records : s.validator_records = s'.validator_records
  state_root : s.state_root = s'.state_root

/-- Stores of one ledger answer alike. The records are read by decoding the same bytes, so this
does not depend on what the decoder makes of them. -/
theorem StateStore.Holds.sameReads {B B' : Type} [StateBackend B] [StateBackend B']
    [LedgerBackend B] [LedgerBackend B'] {s : StateStore B} {s' : StateStore B'} {L : Ledger}
    (h : s.Holds L) (h' : s'.Holds L) : SameReads s s' where
  balance a := by
    unfold StateStore.balance
    rw [h.get_account, h'.get_account]
  nonce a := by
    unfold StateStore.nonce
    rw [h.get_account, h'.get_account]
  get_account a := by
    rw [h.get_account, h'.get_account]
  validator_record v := by
    unfold StateStore.validator_record StateStore.get_record
    rw [LedgerBackend.get_validator h, LedgerBackend.get_validator h']
  delegation d v := by
    unfold StateStore.delegation StateStore.get_record
    rw [LedgerBackend.get_delegation h, LedgerBackend.get_delegation h']
  validator_records := by
    unfold StateStore.validator_records
    rw [LedgerBackend.scan h, LedgerBackend.scan h']
  state_root := by
    unfold StateStore.state_root
    rw [LedgerBackend.state_root h, LedgerBackend.state_root h']

theorem new_in_memory_holds : StateStore.new_in_memory.Holds Ledger.empty :=
  represents_of_accounts ∅

theorem rocksdb_new_holds [LawfulAccounts] :
    (⟨RocksDbBackend.new⟩ : StateStore RocksDbBackend).Holds Ledger.empty := by
  intro key bytes
  simp [RocksDbBackend.new, Ledger.mem_entries, Ledger.empty]

/-- After any operations from empty, the two backends have returned the same results, and they
give the same answers and the same state root. -/
theorem backends_are_interchangeable [LawfulAccounts] (ops : List StoreOp) :
    let memory := runOps StateStore.new_in_memory ops
    let rocksdb := runOps (⟨RocksDbBackend.new⟩ : StateStore RocksDbBackend) ops
    memory.1 = rocksdb.1 ∧ SameReads memory.2 rocksdb.2 := by
  intro memory rocksdb
  obtain ⟨hresults, hmemory⟩ := runOps_holds ops new_in_memory_holds
  obtain ⟨hresults', hrocksdb⟩ := runOps_holds ops rocksdb_new_holds
  exact ⟨hresults.trans hresults'.symm, hmemory.sameReads hrocksdb⟩

/-! ## Three maps -/

/-- The keys that an operation may write. -/
def StoreOp.keys : StoreOp → List Bytes
  | .set_account address _ => [RocksDbBackend.account_key address]
  | .transfer sender recipient _ _ =>
    [RocksDbBackend.account_key sender, RocksDbBackend.account_key recipient]
  | .transfer_amount_only recipient _ => [RocksDbBackend.account_key recipient]
  | .set_validator_record address _ => [validator_key address]
  | .set_delegation delegator validator _ => [delegation_key delegator validator]
  | .delete_delegation delegator validator => [delegation_key delegator validator]

/-- Every read gives what the ledger has, and the enumeration gives the validators in order. -/
structure StateStore.Shows {B : Type} [StateBackend B] (s : StateStore B) (L : Ledger) : Prop where
  get_account : ∀ a, s.get_account a = .ok L.accounts[a]?
  balance : ∀ a, s.balance a = .ok (L.account a).balance
  nonce : ∀ a, s.nonce a = .ok (L.account a).nonce
  validator_record : ∀ v, s.validator_record v = .ok L.validators[v]?
  delegation : ∀ d v, s.delegation d v = .ok L.delegations[(d, v)]?
  validator_records : ∃ records, s.validator_records = .ok records ∧
    (∀ v r, (v, r) ∈ records ↔ L.validators[v]? = some r) ∧
    records.Pairwise fun e f => compare e.1 f.1 = .lt

/-- The operation leaves what is kept under other keys. -/
structure StoreOp.Leaves {B : Type} [StateBackend B] (op : StoreOp) (s : StateStore B) : Prop where
  accounts : ∀ a, RocksDbBackend.account_key a ∉ op.keys →
    (op.run s).2.get_account a = s.get_account a
  validators : ∀ v, validator_key v ∉ op.keys →
    (op.run s).2.validator_record v = s.validator_record v
  delegations : ∀ d v, delegation_key d v ∉ op.keys →
    (op.run s).2.delegation d v = s.delegation d v

section Shows

variable {B : Type} [StateBackend B] [LedgerBackend B] {s : StateStore B} {L : Ledger}

theorem StateStore.Holds.shows [LawfulRecords] (h : s.Holds L) : s.Shows L where
  get_account := h.get_account
  balance a := by
    unfold StateStore.balance Ledger.account
    rw [h.get_account]
    cases L.accounts[a]? <;> rfl
  nonce a := by
    unfold StateStore.nonce Ledger.account
    rw [h.get_account]
    cases L.accounts[a]? <;> rfl
  validator_record v := by
    unfold StateStore.validator_record StateStore.get_record
    rw [LedgerBackend.get_validator h]
    rcases L.validators[v]? with _ | r
    · rfl
    · simp only [Option.map_some, LawfulRecords.validator_record]
  delegation d v := by
    unfold StateStore.delegation StateStore.get_record
    rw [LedgerBackend.get_delegation h]
    rcases L.delegations[(d, v)]? with _ | x
    · rfl
    · simp only [Option.map_some, LawfulRecords.delegation]
  validator_records := by
    refine ⟨L.validators.toList, ?_, ?_, L.validators.ordered_keys_toList⟩
    · unfold StateStore.validator_records
      rw [LedgerBackend.scan h]
      exact validator_records_loop_map _
    · exact fun v r => ExtTreeMap.mem_toList_iff_getElem?_eq_some

omit [Crates] in
theorem Ledger.accounts_receive {a b : Address} (hne : b ≠ a) (amount : Balance) :
    (L.receive a amount).2.accounts[b]? = L.accounts[b]? := by
  unfold Ledger.receive
  split
  · rfl
  · simp [Ledger.setBalance, Ledger.setAccount, ExtTreeMap.getElem?_insert, hne.symm]

omit [Crates] in
theorem Ledger.receive_records (L : Ledger) (a : Address) (amount : Balance) :
    (L.receive a amount).2.validators = L.validators ∧
      (L.receive a amount).2.delegations = L.delegations := by
  unfold Ledger.receive
  split
  · exact ⟨rfl, rfl⟩
  · exact ⟨rfl, rfl⟩

omit [Crates] in
/-- A transfer changes nothing, or writes the sender and then the recipient. -/
theorem Ledger.pay_cases (L : Ledger) (sender recipient : Address) (amount fee : Balance) :
    (L.pay sender recipient amount fee).2 = L ∨
      ∃ x, (L.pay sender recipient amount fee).2 =
        ((L.setAccount sender x).receive recipient amount).2 := by
  unfold Ledger.pay
  split
  · exact Or.inl rfl
  · split
    · exact Or.inl rfl
    · split
      · exact Or.inl rfl
      · exact Or.inr ⟨_, rfl⟩

omit [Crates] in
/-- An operation changes the ledger at its keys only. -/
theorem Ledger.apply_frame (L : Ledger) (op : StoreOp) :
    (∀ a, RocksDbBackend.account_key a ∉ op.keys → (L.apply op).2.accounts[a]? = L.accounts[a]?) ∧
    (∀ v, validator_key v ∉ op.keys → (L.apply op).2.validators[v]? = L.validators[v]?) ∧
    ∀ d v, delegation_key d v ∉ op.keys →
      (L.apply op).2.delegations[(d, v)]? = L.delegations[(d, v)]? := by
  cases op with
  | set_account b x =>
    refine ⟨?_, fun _ _ => rfl, fun _ _ _ => rfl⟩
    intro a ha
    have hne : b ≠ a := by
      rintro rfl
      exact ha List.mem_cons_self
    simp [Ledger.apply, Ledger.setAccount, ExtTreeMap.getElem?_insert, hne]
  | transfer sender recipient amount fee =>
    show (∀ a, _ → (L.pay sender recipient amount fee).2.accounts[a]? = _) ∧
      (∀ v, _ → (L.pay sender recipient amount fee).2.validators[v]? = _) ∧
      ∀ d v, _ → (L.pay sender recipient amount fee).2.delegations[(d, v)]? = _
    rcases L.pay_cases sender recipient amount fee with hsame | ⟨x, hpaid⟩
    · rw [hsame]
      exact ⟨fun _ _ => rfl, fun _ _ => rfl, fun _ _ _ => rfl⟩
    · have hrecords := (L.setAccount sender x).receive_records recipient amount
      rw [hpaid, hrecords.1, hrecords.2]
      refine ⟨?_, fun _ _ => rfl, fun _ _ _ => rfl⟩
      intro a ha
      have hsender : sender ≠ a := by
        rintro rfl
        exact ha List.mem_cons_self
      have hrecipient : a ≠ recipient := by
        rintro rfl
        exact ha (List.mem_cons_of_mem _ List.mem_cons_self)
      rw [Ledger.accounts_receive hrecipient]
      simp [Ledger.setAccount, ExtTreeMap.getElem?_insert, hsender]
  | transfer_amount_only recipient amount =>
    have hrecords := L.receive_records recipient amount
    refine ⟨?_, fun v _ => by rw [Ledger.apply, hrecords.1],
      fun d v _ => by rw [Ledger.apply, hrecords.2]⟩
    intro a ha
    refine Ledger.accounts_receive ?_ amount
    rintro rfl
    exact ha List.mem_cons_self
  | set_validator_record w r =>
    refine ⟨fun _ _ => rfl, ?_, fun _ _ _ => rfl⟩
    intro v hv
    have hne : w ≠ v := by
      rintro rfl
      exact hv List.mem_cons_self
    simp [Ledger.apply, Ledger.setValidator, ExtTreeMap.getElem?_insert, hne]
  | set_delegation d' v' x =>
    refine ⟨fun _ _ => rfl, fun _ _ => rfl, ?_⟩
    intro d v h
    have hne : (d', v') ≠ (d, v) := by
      rintro ⟨⟩
      exact h List.mem_cons_self
    simp [Ledger.apply, Ledger.setDelegation, ExtTreeMap.getElem?_insert, hne]
  | delete_delegation d' v' =>
    refine ⟨fun _ _ => rfl, fun _ _ => rfl, ?_⟩
    intro d v h
    have hne : (d', v') ≠ (d, v) := by
      rintro ⟨⟩
      exact h List.mem_cons_self
    simp [Ledger.apply, Ledger.deleteDelegation, ExtTreeMap.getElem?_erase, hne]

theorem StoreOp.leaves [LawfulRecords] (op : StoreOp) (h : s.Holds L) : op.Leaves s := by
  have hbefore := h.shows
  have hafter := (op.run_holds h).2.shows
  obtain ⟨haccounts, hvalidators, hdelegations⟩ := L.apply_frame op
  refine ⟨?_, ?_, ?_⟩
  · intro a ha
    rw [hafter.get_account, hbefore.get_account, haccounts a ha]
  · intro v hv
    rw [hafter.validator_record, hbefore.validator_record, hvalidators v hv]
  · intro d v hdv
    rw [hafter.delegation, hbefore.delegation, hdelegations d v hdv]

end Shows

/-- After any operations from empty, the in-memory store shows the three maps after the same
operations, and the next operation leaves everything under other keys than its own. -/
theorem store_is_three_maps [LawfulRecords] (ops : List StoreOp) :
    (runOps StateStore.new_in_memory ops).2.Shows (Ledger.empty.applyAll ops).2 ∧
      ∀ op : StoreOp, op.Leaves (runOps StateStore.new_in_memory ops).2 := by
  obtain ⟨-, hholds⟩ := runOps_holds ops new_in_memory_holds
  exact ⟨hholds.shows, fun op => op.leaves hholds⟩

end Pemrix

namespace Pemrix.Concrete

/-- An account that stakes and pays. -/
def stake_and_pay : List StoreOp :=
  [.set_account payer ⟨100, 0⟩,
    .set_validator_record (addr 3) (.new (addr 3) [7] 5 0),
    .set_delegation payer (addr 3) ⟨10, false, 0⟩,
    .transfer payer (addr 9) 5 1]

theorem backends_stake_and_pay :
    let memory := runOps StateStore.new_in_memory stake_and_pay
    let rocksdb := runOps (⟨RocksDbBackend.new⟩ : StateStore RocksDbBackend) stake_and_pay
    memory.2.balance payer = .ok 94 ∧ memory.1 = rocksdb.1 ∧ SameReads memory.2 rocksdb.2 :=
  ⟨by decide +kernel, backends_are_interchangeable stake_and_pay⟩

theorem maps_stake_and_pay :
    let s := (runOps StateStore.new_in_memory stake_and_pay).2
    let L := (Ledger.empty.applyAll stake_and_pay).2
    L.accounts[payer]? = some ⟨94, 1⟩ ∧ s.Shows L ∧ ∀ op : StoreOp, op.Leaves s :=
  ⟨by decide +kernel, store_is_three_maps stake_and_pay⟩

end Pemrix.Concrete
