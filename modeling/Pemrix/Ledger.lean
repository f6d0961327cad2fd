-- The ledger: what the state store is for. It is three finite maps, and an
-- in-memory store represents a ledger when its accounts and raw entries hold
-- exactly those maps. Each read and write of the store is a read and write of
-- the ledger.
import Pemrix.Vm
import Pemrix.TreeMapSums
import Pemrix.PrefixScan

open Std

namespace Pemrix

structure Ledger where
  accounts : ExtTreeMap Address Account
  validators : ExtTreeMap Address ValidatorRecord
  delegations : ExtTreeMap (Address × Address) Delegation

namespace Ledger

/-- The account of an address, or the default one with no entry. -/
def account (L : Ledger) (a : Address) : Account := L.accounts[a]?.getD default

def setAccount (L : Ledger) (a : Address) (x : Account) : Ledger :=
  { L with accounts := L.accounts.insert a x }

def setBalance (L : Ledger) (a : Address) (balance : Balance) : Ledger :=
  L.setAccount a { L.account a with balance }

def setValidator (L : Ledger) (a : Address) (r : ValidatorRecord) : Ledger :=
  { L with validators := L.validators.insert a r }

def setDelegation (L : Ledger) (d v : Address) (x : Delegation) : Ledger :=
  { L with delegations := L.delegations.insert (d, v) x }

def deleteDelegation (L : Ledger) (d v : Address) : Ledger :=
  { L with delegations := L.delegations.erase (d, v) }

@[simp] theorem account_setAccount (L : Ledger) (a b : Address) (x : Account) :
    (L.setAccount a x).account b = if a = b then x else L.account b := by
  unfold account setAccount
  rw [ExtTreeMap.getElem?_insert]
  simp only [LawfulEqCmp.compare_eq_iff_eq]
  split
  · rfl
  · rfl

@[simp] theorem account_setBalance (L : Ledger) (a b : Address) (x : Balance) :
    (L.setBalance a x).account b =
      if a = b then { L.account a with balance := x } else L.account b :=
  L.account_setAccount a b _

end Ledger

/-! ## The keys of the raw entries -/

theorem Address.as_bytes_length (a : Address) : a.as_bytes.length = 32 := by
  simp [Address.as_bytes]

theorem Address.as_bytes_inj {a b : Address} (h : a.as_bytes = b.as_bytes) : a = b := by
  cases a; cases b
  simp only [Address.as_bytes, Vector.toList_inj] at h
  rw [h]

theorem validator_key_inj {a b : Address} (h : validator_key a = validator_key b) : a = b :=
  Address.as_bytes_inj (List.append_cancel_left h)

theorem delegation_key_inj {d v d' v' : Address}
    (h : delegation_key d v = delegation_key d' v') : d = d' ∧ v = v' := by
  unfold delegation_key at h
  rw [List.append_assoc, List.append_assoc] at h
  have h1 := List.append_cancel_left h
  obtain ⟨hd, hv⟩ := List.append_inj h1 (by simp [Address.as_bytes_length])
  exact ⟨Address.as_bytes_inj hd, Address.as_bytes_inj hv⟩

theorem delegation_key_ne {d v d' v' : Address} (h : (d, v) ≠ (d', v')) :
    delegation_key d v ≠ delegation_key d' v' := by
  intro hk
  obtain ⟨rfl, rfl⟩ := delegation_key_inj hk
  exact h rfl

theorem validator_key_ne_delegation_key (a d v : Address) :
    validator_key a ≠ delegation_key d v := by
  intro h
  have := congrArg List.length h
  simp [validator_key, delegation_key, VALIDATOR_PREFIX, DELEGATION_PREFIX,
    Address.as_bytes_length] at this

/-! ## A store that represents a ledger -/

variable [Crates]

structure Represents (s : StateStore InMemoryBackend) (L : Ledger) : Prop where
  accounts : s.backend.accounts = L.accounts
  validators : ∀ a, s.backend.raw[validator_key a]? = L.validators[a]?.map encode
  delegations : ∀ d v, s.backend.raw[delegation_key d v]? = L.delegations[(d, v)]?.map encode
  /-- Every raw key is a key of a validator record or of a delegation. -/
  keys : ∀ k, s.backend.raw[k]? ≠ none → (∃ a, k = validator_key a) ∨ ∃ d v, k = delegation_key d v

/-- A store with accounts only represents the ledger of these accounts. -/
theorem represents_of_accounts (accounts : ExtTreeMap Address Account) :
    Represents ⟨⟨accounts, ∅⟩⟩ ⟨accounts, ∅, ∅⟩ := by
  refine ⟨rfl, ?_, ?_, ?_⟩
  · intro a
    simp
  · intro d v
    simp
  · intro k hk
    simp at hk

namespace Represents

variable {s : StateStore InMemoryBackend} {L : Ledger}

theorem get_account (h : Represents s L) (a : Address) : s.get_account a = .ok L.accounts[a]? := by
  rw [← h.accounts]
  rfl

theorem balance (h : Represents s L) (a : Address) : s.balance a = .ok (L.account a).balance := by
  unfold StateStore.balance Ledger.account
  rw [h.get_account]
  cases L.accounts[a]? <;> rfl

theorem nonce (h : Represents s L) (a : Address) : s.nonce a = .ok (L.account a).nonce := by
  unfold StateStore.nonce Ledger.account
  rw [h.get_account]
  cases L.accounts[a]? <;> rfl

theorem validator_record [LawfulRecords] (h : Represents s L) (a : Address) :
    s.validator_record a = .ok L.validators[a]? := by
  unfold StateStore.validator_record StateStore.get_record
  simp only [StateBackend.get_raw, h.validators]
  cases L.validators[a]? with
  | none => rfl
  | some r => simp only [Option.map_some, LawfulRecords.validator_record]

theorem delegation [LawfulRecords] (h : Represents s L) (d v : Address) :
    s.delegation d v = .ok L.delegations[(d, v)]? := by
  unfold StateStore.delegation StateStore.get_record
  simp only [StateBackend.get_raw, h.delegations]
  cases L.delegations[(d, v)]? with
  | none => rfl
  | some r => simp only [Option.map_some, LawfulRecords.delegation]

theorem set_account (h : Represents s L) (a : Address) (x : Account) :
    ∃ s', s.set_account a x = (.ok (), s') ∧ Represents s' (L.setAccount a x) := by
  refine ⟨_, rfl, ?_, h.validators, h.delegations, h.keys⟩
  simp only [Ledger.setAccount, ← h.accounts]

theorem set_validator_record (h : Represents s L) (a : Address) (r : ValidatorRecord) :
    ∃ s', s.set_validator_record a r = (.ok (), s') ∧ Represents s' (L.setValidator a r) := by
  refine ⟨_, rfl, h.accounts, ?_, ?_, ?_⟩
  · intro b
    simp only [Ledger.setValidator, ExtTreeMap.getElem?_insert, LawfulEqCmp.compare_eq_iff_eq]
    by_cases hab : a = b
    · simp [hab]
    · have : validator_key a ≠ validator_key b := fun he => hab (validator_key_inj he)
      simp [hab, this, h.validators]
  · intro d v
    have := validator_key_ne_delegation_key a d v
    simp [Ledger.setValidator, ExtTreeMap.getElem?_insert, this, h.delegations]
  · intro k hk
    simp only [ExtTreeMap.getElem?_insert, LawfulEqCmp.compare_eq_iff_eq] at hk
    split at hk
    · rename_i he
      exact Or.inl ⟨a, he.symm⟩
    · exact h.keys k hk

theorem set_delegation (h : Represents s L) (d v : Address) (x : Delegation) :
    ∃ s', s.set_delegation d v x = (.ok (), s') ∧ Represents s' (L.setDelegation d v x) := by
  refine ⟨_, rfl, h.accounts, ?_, ?_, ?_⟩
  · intro b
    have := (validator_key_ne_delegation_key b d v).symm
    simp [Ledger.setDelegation, ExtTreeMap.getElem?_insert, this, h.validators]
  · intro d' v'
    simp only [Ledger.setDelegation, ExtTreeMap.getElem?_insert, LawfulEqCmp.compare_eq_iff_eq]
    by_cases he : (d, v) = (d', v')
    · cases he
      simp
    · have := delegation_key_ne he
      simp [he, this, h.delegations]
  · intro k hk
    simp only [ExtTreeMap.getElem?_insert, LawfulEqCmp.compare_eq_iff_eq] at hk
    split at hk
    · rename_i he
      exact Or.inr ⟨d, v, he.symm⟩
    · exact h.keys k hk

theorem delete_delegation (h : Represents s L) (d v : Address) :
    ∃ s', s.delete_delegation d v = (.ok (), s') ∧ Represents s' (L.deleteDelegation d v) := by
  refine ⟨_, rfl, h.accounts, ?_, ?_, ?_⟩
  · intro b
    have := (validator_key_ne_delegation_key b d v).symm
    simp [Ledger.deleteDelegation, ExtTreeMap.getElem?_erase, this, h.validators]
  · intro d' v'
    simp only [Ledger.deleteDelegation, ExtTreeMap.getElem?_erase, LawfulEqCmp.compare_eq_iff_eq]
    by_cases he : (d, v) = (d', v')
    · cases he
      simp
    · have := delegation_key_ne he
      simp [he, this, h.delegations]
  · intro k hk
    simp only [ExtTreeMap.getElem?_erase, LawfulEqCmp.compare_eq_iff_eq] at hk
    split at hk
    · simp at hk
    · exact h.keys k hk

end Represents

/-! ## All validator records -/

omit [Crates] in
theorem compare_validator_key (a b : Address) :
    compare (validator_key a) (validator_key b) = compare a b := by
  unfold validator_key
  rw [PrefixScan.compare_append_left]
  exact (Vector.compare_eq_compare_toList (a := a.bytes) (b := b.bytes)).symm

omit [Crates] in
/-- The scan of the raw entries finds every entry with the prefix. -/
theorem entries_with_eq_filter (b : InMemoryBackend) (pre : Bytes) :
    b.entries_with pre = b.raw.toList.filter (fun e => pre.isPrefixOf e.1) := by
  refine PrefixScan.takeWhile_dropWhile_eq_filter b.raw.ordered_keys_toList ?_ ?_ ?_
  · intro x y hxy hx
    simp only [decide_eq_false_iff_not] at hx ⊢
    exact fun hy => hx (TransCmp.lt_trans hxy hy)
  · intro x hx
    rw [decide_eq_false_iff_not]
    exact PrefixScan.not_lt_of_isPrefix (List.isPrefixOf_iff_prefix.mp hx)
  · intro x y hxy hx hq
    simp only [decide_eq_false_iff_not] at hx
    rw [Bool.eq_false_iff] at hq ⊢
    intro hy
    exact hq (List.isPrefixOf_iff_prefix.mpr
      (PrefixScan.isPrefix_of_between hx hxy (List.isPrefixOf_iff_prefix.mp hy)))

/-- A validator record as a raw entry. -/
def recordEntry (e : Address × ValidatorRecord) : RawEntry := (validator_key e.1, encode e.2)

omit [Crates] in
theorem try_into_as_bytes (a : Address) : try_into a.as_bytes = some a.bytes := by
  obtain ⟨⟨bytes, hsize⟩⟩ := a
  simp [try_into, Address.as_bytes, Vector.toList, hsize]

/-- On entries that are validator records, the loop reads these records. -/
theorem validator_records_loop_map [LawfulRecords] (rs : List (Address × ValidatorRecord)) :
    StateStore.validator_records_loop (rs.map recordEntry) = .ok rs := by
  induction rs with
  | nil => rfl
  | cons e rs ih =>
    simp only [List.map_cons, recordEntry] at ih ⊢
    have hlen : (validator_key e.1).length = VALIDATOR_PREFIX.length + 32 := by
      simp [validator_key, Address.as_bytes_length]
    have hdrop : (validator_key e.1).drop VALIDATOR_PREFIX.length = e.1.as_bytes :=
      List.drop_left
    unfold StateStore.validator_records_loop
    rw [if_neg (by simp [hlen]), hdrop, try_into_as_bytes]
    simp only [LawfulRecords.validator_record, ih]

theorem validators_ordered (L : Ledger) :
    (L.validators.toList.map recordEntry).Pairwise fun x y => compare x.1 y.1 = .lt := by
  rw [List.pairwise_map]
  refine L.validators.ordered_keys_toList.imp ?_
  intro x y hxy
  rwa [recordEntry, recordEntry, compare_validator_key]

omit [Crates] in
theorem compare_lt_asymm (x y : RawEntry) (hxy : compare x.1 y.1 = .lt) :
    ¬ compare y.1 x.1 = .lt := by
  intro hyx
  have hswap : compare x.1 y.1 = (compare y.1 x.1).swap := OrientedCmp.eq_swap
  rw [hswap, hyx] at hxy
  cases hxy

/-- The raw entries with the prefix are the validator records, in the order of their
addresses. -/
theorem entries_with_validators {s : StateStore InMemoryBackend} {L : Ledger}
    (h : Represents s L) :
    s.backend.entries_with VALIDATOR_PREFIX = L.validators.toList.map recordEntry := by
  rw [entries_with_eq_filter]
  refine PrefixScan.eq_of_pairwise_of_mem_iff (R := fun x y => compare x.1 y.1 = .lt)
    compare_lt_asymm (s.backend.raw.ordered_keys_toList.filter _) (validators_ordered L) ?_
  rintro ⟨k, v⟩
  simp only [List.mem_filter, ExtTreeMap.mem_toList_iff_getElem?_eq_some, List.mem_map,
    recordEntry, Prod.exists, Prod.mk.injEq]
  constructor
  · rintro ⟨hk, hp⟩
    rcases h.keys k (by simp [hk]) with ⟨a, rfl⟩ | ⟨d, w, rfl⟩
    · rw [h.validators, Option.map_eq_some_iff] at hk
      obtain ⟨r, hr, rfl⟩ := hk
      exact ⟨a, r, hr, rfl, rfl⟩
    · simp [delegation_key, DELEGATION_PREFIX, VALIDATOR_PREFIX] at hp
  · rintro ⟨a, r, hr, rfl, rfl⟩
    refine ⟨by rw [h.validators, hr]; rfl, ?_⟩
    simp [validator_key]

theorem Represents.validator_records [LawfulRecords] {s : StateStore InMemoryBackend}
    {L : Ledger} (h : Represents s L) : s.validator_records = .ok L.validators.toList := by
  show StateStore.validator_records_loop (s.backend.entries_with VALIDATOR_PREFIX) = _
  rw [entries_with_validators h, validator_records_loop_map]

end Pemrix
