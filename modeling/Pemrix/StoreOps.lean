-- The state store over any backend. A backend holds a ledger when it has exactly
-- the entries of the three maps under their keys; both backends do, so each
-- operation of the store does to the ledger what it should, and no caller can tell
-- the backends apart.
import Pemrix.Backends
import Pemrix.SerdeJson

open Std

namespace Pemrix

/-! ## The operations -/

section Operations

open Exec

variable {B : Type} [StateBackend B]

/-- A transfer between two accounts, with the fee and the nonce. -/
def StateStore.transfer (sender recipient : Address) (amount fee : Balance) :
    Exec B StorageError Unit := do
  let some account ← read (·.get_account sender) | throw .NotFound
  match ← checked_add amount fee with
  | none => throw (.Backend "balance overflow")
  | some total =>
    if account.balance < total then throw (.Backend "insufficient balance")
    let balance ← sub account.balance total
    write (·.set_account sender { balance, nonce := account.nonce + 1 })
    StateStore.transfer_amount_only recipient amount

inductive StoreOp where
  | set_account (address : Address) (account : Account)
  | transfer (sender recipient : Address) (amount fee : Balance)
  | transfer_amount_only (recipient : Address) (amount : Balance)
  | set_validator_record (address : Address) (record : ValidatorRecord)
  | set_delegation (delegator validator : Address) (delegation : Delegation)
  | delete_delegation (delegator validator : Address)
  deriving DecidableEq

/-- What one operation returns, and the store after it. -/
def StoreOp.run [Crates] (s : StateStore B) : StoreOp → Except StorageError Unit × StateStore B
  | .set_account address account => s.set_account address account
  | .transfer sender recipient amount fee =>
    let (r, m) := (StateStore.transfer sender recipient amount fee).run ⟨s, []⟩
    (r, m.store)
  | .transfer_amount_only recipient amount =>
    let (r, m) := (StateStore.transfer_amount_only recipient amount).run ⟨s, []⟩
    (r, m.store)
  | .set_validator_record address record => s.set_validator_record address record
  | .set_delegation delegator validator delegation =>
    s.set_delegation delegator validator delegation
  | .delete_delegation delegator validator => s.delete_delegation delegator validator

/-- The results of some operations, and the store after them. -/
def runOps [Crates] (s : StateStore B) :
    List StoreOp → List (Except StorageError Unit) × StateStore B
  | [] => ([], s)
  | op :: ops =>
    let (r, s) := op.run s
    let (rs, s) := runOps s ops
    (r :: rs, s)

end Operations

/-! ## The same on a ledger -/

namespace Ledger

def empty : Ledger := ⟨∅, ∅, ∅⟩

/-- An amount on top of a balance. -/
def receive (L : Ledger) (a : Address) (amount : Balance) : Except StorageError Unit × Ledger :=
  match U128.checked_add (L.account a).balance amount with
  | none => (.error (.Backend "balance overflow"), L)
  | some balance => (.ok (), L.setBalance a balance)

/-- An amount and a fee from one account, and the amount to another. -/
def pay (L : Ledger) (sender recipient : Address) (amount fee : Balance) :
    Except StorageError Unit × Ledger :=
  match L.accounts[sender]? with
  | none => (.error .NotFound, L)
  | some account =>
    match U128.checked_add amount fee with
    | none => (.error (.Backend "balance overflow"), L)
    | some total =>
      if account.balance < total then (.error (.Backend "insufficient balance"), L)
      else
        (L.setAccount sender ⟨account.balance - total, account.nonce + 1⟩).receive recipient amount

/-- What an operation is for. -/
def apply (L : Ledger) : StoreOp → Except StorageError Unit × Ledger
  | .set_account address account => (.ok (), L.setAccount address account)
  | .transfer sender recipient amount fee => L.pay sender recipient amount fee
  | .transfer_amount_only recipient amount => L.receive recipient amount
  | .set_validator_record address record => (.ok (), L.setValidator address record)
  | .set_delegation delegator validator delegation =>
    (.ok (), L.setDelegation delegator validator delegation)
  | .delete_delegation delegator validator => (.ok (), L.deleteDelegation delegator validator)

def applyAll (L : Ledger) : List StoreOp → List (Except StorageError Unit) × Ledger
  | [] => ([], L)
  | op :: ops =>
    let (r, L) := L.apply op
    let (rs, L) := L.applyAll ops
    (r :: rs, L)

end Ledger

/-! ## The entries of a ledger -/

variable [Crates]

def accountEntry (e : Address × Account) : RawEntry := (RocksDbBackend.account_key e.1, encode e.2)

def delegationEntry (e : (Address × Address) × Delegation) : RawEntry :=
  (delegation_key e.1.1 e.1.2, encode e.2)

/-- Every account and record with the key that it is kept under. -/
def Ledger.entries (L : Ledger) : List RawEntry :=
  L.accounts.toList.map accountEntry ++
    (L.validators.toList.map recordEntry ++ L.delegations.toList.map delegationEntry)

/-- The entries under their hex keys, as `state_root` collects them. -/
def Ledger.snapshot (L : Ledger) : ExtTreeMap String Bytes :=
  L.entries.foldl (fun m e => m.insert (InMemoryBackend.hex_encode e.1) e.2) ∅

namespace Ledger

theorem mem_entries (L : Ledger) (e : RawEntry) :
    e ∈ L.entries ↔
      (∃ a x, L.accounts[a]? = some x ∧ accountEntry (a, x) = e) ∨
      (∃ v r, L.validators[v]? = some r ∧ recordEntry (v, r) = e) ∨
      ∃ d v x, L.delegations[(d, v)]? = some x ∧ delegationEntry ((d, v), x) = e := by
  unfold entries
  simp only [List.mem_append, List.mem_map, Prod.exists, ExtTreeMap.mem_toList_iff_getElem?_eq_some]

omit [Crates] in
theorem account_key_ne_validator_key (a v : Address) :
    RocksDbBackend.account_key a ≠ validator_key v :=
  RocksDbBackend.account_key_ne a (recordKey_validator v)

omit [Crates] in
theorem account_key_ne_delegation_key (a d v : Address) :
    RocksDbBackend.account_key a ≠ delegation_key d v :=
  RocksDbBackend.account_key_ne a (recordKey_delegation d v)

theorem account_mem (L : Ledger) (a : Address) (bytes : Bytes) :
    (RocksDbBackend.account_key a, bytes) ∈ L.entries ↔ L.accounts[a]?.map encode = some bytes := by
  rw [mem_entries, Option.map_eq_some_iff]
  constructor
  · rintro (⟨b, x, hx, he⟩ | ⟨v, r, -, he⟩ | ⟨d, v, x, -, he⟩)
    · obtain ⟨hk, hv⟩ := Prod.mk.inj he
      obtain rfl : b = a := RocksDbBackend.account_key_inj hk
      exact ⟨x, hx, hv⟩
    · exact absurd (Prod.mk.inj he).1.symm (account_key_ne_validator_key a v)
    · exact absurd (Prod.mk.inj he).1.symm (account_key_ne_delegation_key a d v)
  · rintro ⟨x, hx, rfl⟩
    exact Or.inl ⟨a, x, hx, rfl⟩

theorem validator_mem (L : Ledger) (v : Address) (bytes : Bytes) :
    (validator_key v, bytes) ∈ L.entries ↔ L.validators[v]?.map encode = some bytes := by
  rw [mem_entries, Option.map_eq_some_iff]
  constructor
  · rintro (⟨a, x, -, he⟩ | ⟨w, r, hr, he⟩ | ⟨d, w, x, -, he⟩)
    · exact absurd (Prod.mk.inj he).1 (account_key_ne_validator_key a v)
    · obtain ⟨hk, hv⟩ := Prod.mk.inj he
      obtain rfl : w = v := validator_key_inj hk
      exact ⟨r, hr, hv⟩
    · exact absurd (Prod.mk.inj he).1.symm (validator_key_ne_delegation_key v d w)
  · rintro ⟨r, hr, rfl⟩
    exact Or.inr (Or.inl ⟨v, r, hr, rfl⟩)

theorem delegation_mem (L : Ledger) (d v : Address) (bytes : Bytes) :
    (delegation_key d v, bytes) ∈ L.entries ↔
      L.delegations[(d, v)]?.map encode = some bytes := by
  rw [mem_entries, Option.map_eq_some_iff]
  constructor
  · rintro (⟨a, x, -, he⟩ | ⟨w, r, -, he⟩ | ⟨d', v', x, hx, he⟩)
    · exact absurd (Prod.mk.inj he).1 (account_key_ne_delegation_key a d v)
    · exact absurd (Prod.mk.inj he).1 (validator_key_ne_delegation_key w d v)
    · obtain ⟨hk, hv⟩ := Prod.mk.inj he
      obtain ⟨rfl, rfl⟩ := delegation_key_inj hk
      exact ⟨x, hx, hv⟩
  · rintro ⟨x, hx, rfl⟩
    exact Or.inr (Or.inr ⟨d, v, x, hx, rfl⟩)

/-- Every key is of one of the three families. -/
theorem key_cases {L : Ledger} {key bytes : Bytes} (h : (key, bytes) ∈ L.entries) :
    (∃ a, key = RocksDbBackend.account_key a) ∨ RecordKey key := by
  rcases (L.mem_entries _).mp h with ⟨a, x, -, he⟩ | ⟨v, r, -, he⟩ | ⟨d, v, x, -, he⟩
  · exact Or.inl ⟨a, (Prod.mk.inj he).1.symm⟩
  · exact Or.inr (Or.inl ⟨v, (Prod.mk.inj he).1.symm⟩)
  · exact Or.inr (Or.inr ⟨d, v, (Prod.mk.inj he).1.symm⟩)

/-- The entry at a key depends on what the maps have for that key. -/
theorem mem_entries_congr {L L' : Ledger} {key : Bytes}
    (ha : ∀ a, RocksDbBackend.account_key a = key → L'.accounts[a]? = L.accounts[a]?)
    (hv : ∀ v, validator_key v = key → L'.validators[v]? = L.validators[v]?)
    (hd : ∀ d v, delegation_key d v = key → L'.delegations[(d, v)]? = L.delegations[(d, v)]?)
    (bytes : Bytes) : (key, bytes) ∈ L'.entries ↔ (key, bytes) ∈ L.entries := by
  have himp : ∀ {M M' : Ledger},
      (∀ a, RocksDbBackend.account_key a = key → M'.accounts[a]? = M.accounts[a]?) →
      (∀ v, validator_key v = key → M'.validators[v]? = M.validators[v]?) →
      (∀ d v, delegation_key d v = key → M'.delegations[(d, v)]? = M.delegations[(d, v)]?) →
      (key, bytes) ∈ M.entries → (key, bytes) ∈ M'.entries := by
    intro M M' ha hv hd h
    rw [mem_entries] at h ⊢
    rcases h with ⟨a, x, hx, he⟩ | ⟨v, r, hr, he⟩ | ⟨d, v, x, hx, he⟩
    · exact Or.inl ⟨a, x, by rw [ha a (Prod.mk.inj he).1, hx], he⟩
    · exact Or.inr (Or.inl ⟨v, r, by rw [hv v (Prod.mk.inj he).1, hr], he⟩)
    · exact Or.inr (Or.inr ⟨d, v, x, by rw [hd d v (Prod.mk.inj he).1, hx], he⟩)
  exact ⟨himp (fun a h => (ha a h).symm) (fun v h => (hv v h).symm) fun d v h => (hd d v h).symm,
    himp ha hv hd⟩

theorem mem_entries_setAccount (L : Ledger) (a : Address) (x : Account) (key bytes : Bytes) :
    (key, bytes) ∈ (L.setAccount a x).entries ↔
      if RocksDbBackend.account_key a = key then encode x = bytes
      else (key, bytes) ∈ L.entries := by
  split
  · rename_i hkey
    subst hkey
    simp [account_mem, setAccount]
  · rename_i hkey
    apply mem_entries_congr
    · intro b hb
      have hne : a ≠ b := fun hab => hkey (by rw [hab, hb])
      simp [setAccount, ExtTreeMap.getElem?_insert, hne]
    · exact fun _ _ => rfl
    · exact fun _ _ _ => rfl

theorem mem_entries_setValidator (L : Ledger) (v : Address) (r : ValidatorRecord)
    (key bytes : Bytes) :
    (key, bytes) ∈ (L.setValidator v r).entries ↔
      if validator_key v = key then encode r = bytes else (key, bytes) ∈ L.entries := by
  split
  · rename_i hkey
    subst hkey
    simp [validator_mem, setValidator]
  · rename_i hkey
    apply mem_entries_congr
    · exact fun _ _ => rfl
    · intro w hw
      have hne : v ≠ w := fun hvw => hkey (by rw [hvw, hw])
      simp [setValidator, ExtTreeMap.getElem?_insert, hne]
    · exact fun _ _ _ => rfl

theorem mem_entries_setDelegation (L : Ledger) (d v : Address) (x : Delegation)
    (key bytes : Bytes) :
    (key, bytes) ∈ (L.setDelegation d v x).entries ↔
      if delegation_key d v = key then encode x = bytes else (key, bytes) ∈ L.entries := by
  split
  · rename_i hkey
    subst hkey
    simp [delegation_mem, setDelegation]
  · rename_i hkey
    apply mem_entries_congr
    · exact fun _ _ => rfl
    · exact fun _ _ => rfl
    · intro d' v' h'
      have hne : (d, v) ≠ (d', v') := by
        rintro ⟨⟩
        exact hkey h'
      simp [setDelegation, ExtTreeMap.getElem?_insert, hne]

theorem mem_entries_deleteDelegation (L : Ledger) (d v : Address) (key bytes : Bytes) :
    (key, bytes) ∈ (L.deleteDelegation d v).entries ↔
      delegation_key d v ≠ key ∧ (key, bytes) ∈ L.entries := by
  by_cases hkey : delegation_key d v = key
  · subst hkey
    simp [delegation_mem, deleteDelegation]
  · rw [ne_eq, and_iff_right hkey]
    apply mem_entries_congr
    · exact fun _ _ => rfl
    · exact fun _ _ => rfl
    · intro d' v' h'
      have hne : (d, v) ≠ (d', v') := by
        rintro ⟨⟩
        exact hkey h'
      simp [deleteDelegation, ExtTreeMap.getElem?_erase, hne]

/-- The keys are all different. -/
theorem entries_distinct (L : Ledger) : L.entries.Pairwise fun e f => e.1 ≠ f.1 := by
  unfold entries
  simp only [List.pairwise_append, List.pairwise_map, List.mem_map, List.mem_append]
  refine ⟨L.accounts.toList_keys_ne.imp ?_, ⟨L.validators.toList_keys_ne.imp ?_,
    L.delegations.toList_keys_ne.imp ?_, ?_⟩, ?_⟩
  · exact fun hne he => hne (RocksDbBackend.account_key_inj he)
  · exact fun hne he => hne (validator_key_inj he)
  · exact fun hne => delegation_key_ne hne
  · rintro _ ⟨e, -, rfl⟩ _ ⟨f, -, rfl⟩
    exact validator_key_ne_delegation_key e.1 f.1.1 f.1.2
  · rintro _ ⟨e, -, rfl⟩ _ (⟨f, -, rfl⟩ | ⟨f, -, rfl⟩)
    · exact account_key_ne_validator_key e.1 f.1
    · exact account_key_ne_delegation_key e.1 f.1.1 f.1.2

end Ledger

end Pemrix
