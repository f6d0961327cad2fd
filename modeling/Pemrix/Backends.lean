-- The persistent backend of `pemrix-storage`, one map of bytes on disk, and what
-- the executors rely on at any backend: a written account is read back, and no
-- write under the key of a record touches an account, or the other way round.
import Pemrix.Ledger

open Std

namespace Pemrix

/-! ## The RocksDB backend -/

/-- RocksDB is a durable map from keys to values. -/
structure RocksDbBackend where
  db : ExtTreeMap Bytes Bytes

namespace RocksDbBackend

/-- The store of a data directory with nothing in it. -/
def new : RocksDbBackend := ⟨∅⟩

/-- The prefix `b"acc:"`. -/
def ACCOUNT_PREFIX : Bytes := [97, 99, 99, 58]

def account_key (address : Address) : Bytes := ACCOUNT_PREFIX ++ address.as_bytes

/-- What `prefix_iterator` visits in a database with no prefix extractor: all keys from the
prefix on, whatever they start with. -/
def entries_from (b : RocksDbBackend) (pre : Bytes) : List RawEntry :=
  b.db.toList.dropWhile (fun e => compare e.1 pre = .lt)

variable [Crates]

def snapshot (b : RocksDbBackend) : ExtTreeMap String Bytes :=
  b.db.toList.foldl (fun m e => m.insert (InMemoryBackend.hex_encode e.1) e.2) ∅

instance : StateBackend RocksDbBackend where
  get_account b address :=
    match b.db[account_key address]? with
    | none => .ok none
    | some bytes =>
      match decode bytes with
      | some account => .ok (some account)
      | none => .error .Serialization
  put_account b address account :=
    (.ok (), { b with db := b.db.insert (account_key address) (encode account) })
  delete_account b address := (.ok (), { b with db := b.db.erase (account_key address) })
  get_raw b key := .ok b.db[key]?
  put_raw b key value := (.ok (), { b with db := b.db.insert key value })
  delete_raw b key := (.ok (), { b with db := b.db.erase key })
  iter_raw_prefix b pre := .ok (b.entries_from pre)
  state_root b := .ok (Hash.hash_bytes (encode b.snapshot))

end RocksDbBackend

/-! ## What the store relies on -/

/-- The keys that a store has for its records. -/
def RecordKey (key : Bytes) : Prop :=
  (∃ a, key = validator_key a) ∨ ∃ d v, key = delegation_key d v

theorem recordKey_validator (a : Address) : RecordKey (validator_key a) := Or.inl ⟨a, rfl⟩

theorem recordKey_delegation (d v : Address) : RecordKey (delegation_key d v) := Or.inr ⟨d, v, rfl⟩

/-- Accounts and records do not meet in the backend. -/
class LawfulBackend (B : Type) [StateBackend B] : Prop where
  put_account_ok : ∀ (b : B) a x, (StateBackend.put_account b a x).1 = .ok ()
  get_put_account : ∀ (b : B) a x a',
    StateBackend.get_account (StateBackend.put_account b a x).2 a' =
      if a = a' then .ok (some x) else StateBackend.get_account b a'
  get_raw_put_account : ∀ (b : B) a x key, RecordKey key →
    StateBackend.get_raw (StateBackend.put_account b a x).2 key = StateBackend.get_raw b key
  get_account_put_raw : ∀ (b : B) key value a, RecordKey key →
    StateBackend.get_account (StateBackend.put_raw b key value).2 a = StateBackend.get_account b a
  get_account_delete_raw : ∀ (b : B) key a, RecordKey key →
    StateBackend.get_account (StateBackend.delete_raw b key).2 a = StateBackend.get_account b a

/-- Reading back an account that serde_json wrote. The persistent backend relies on it. -/
class LawfulAccounts [Crates] : Prop where
  account : ∀ a : Account, decode (encode a) = some a

variable [Crates]

instance : LawfulBackend InMemoryBackend where
  put_account_ok _ _ _ := rfl
  get_put_account b a x a' := by
    show Except.ok (b.accounts.insert a x)[a']? = _
    rw [ExtTreeMap.getElem?_insert]
    simp only [LawfulEqCmp.compare_eq_iff_eq]
    split
    · rfl
    · rfl
  get_raw_put_account _ _ _ _ _ := rfl
  get_account_put_raw _ _ _ _ _ := rfl
  get_account_delete_raw _ _ _ _ := rfl

namespace RocksDbBackend

omit [Crates] in
theorem account_key_inj {a b : Address} (h : account_key a = account_key b) : a = b :=
  Address.as_bytes_inj (List.append_cancel_left h)

omit [Crates] in
/-- The first byte tells an account from a record. -/
theorem account_key_ne (a : Address) {key : Bytes} (h : RecordKey key) : account_key a ≠ key := by
  intro he
  rcases h with ⟨v, rfl⟩ | ⟨d, v, rfl⟩
  · simp [account_key, validator_key, ACCOUNT_PREFIX, VALIDATOR_PREFIX] at he
  · simp [account_key, delegation_key, ACCOUNT_PREFIX, DELEGATION_PREFIX] at he

/-- An account is read from its own key only. -/
theorem get_account_congr {b b' : RocksDbBackend} {a : Address}
    (h : b'.db[account_key a]? = b.db[account_key a]?) :
    StateBackend.get_account b' a = StateBackend.get_account b a := by
  simp only [StateBackend.get_account, h]

end RocksDbBackend

open RocksDbBackend in
instance [LawfulAccounts] : LawfulBackend RocksDbBackend where
  put_account_ok _ _ _ := rfl
  get_put_account b a x a' := by
    split
    · rename_i h
      subst h
      simp only [StateBackend.get_account, StateBackend.put_account,
        ExtTreeMap.getElem?_insert_self,
        LawfulAccounts.account]
    · rename_i h
      refine get_account_congr ?_
      have hne : account_key a ≠ account_key a' := fun he => h (account_key_inj he)
      simp [StateBackend.put_account, ExtTreeMap.getElem?_insert, hne]
  get_raw_put_account b a x key hkey := by
    have hne := account_key_ne a hkey
    simp [StateBackend.get_raw, StateBackend.put_account, ExtTreeMap.getElem?_insert, hne]
  get_account_put_raw b key value a hkey := by
    refine get_account_congr ?_
    have hne := (account_key_ne a hkey).symm
    simp [StateBackend.put_raw, ExtTreeMap.getElem?_insert, hne]
  get_account_delete_raw b key a hkey := by
    refine get_account_congr ?_
    have hne := (account_key_ne a hkey).symm
    simp [StateBackend.delete_raw, ExtTreeMap.getElem?_erase, hne]

/-! ## The store of a lawful backend -/

namespace StateStore

variable {B : Type} [StateBackend B] [LawfulBackend B] (s : StateStore B)

omit [Crates] in
theorem set_account_ok (a : Address) (x : Account) : (s.set_account a x).1 = .ok () :=
  LawfulBackend.put_account_ok s.backend a x

omit [Crates] in
theorem get_account_set_account (a a' : Address) (x : Account) :
    (s.set_account a x).2.get_account a' = if a = a' then .ok (some x) else s.get_account a' :=
  LawfulBackend.get_put_account s.backend a x a'

theorem validator_record_set_account (a v : Address) (x : Account) :
    (s.set_account a x).2.validator_record v = s.validator_record v := by
  unfold validator_record get_record set_account
  rw [LawfulBackend.get_raw_put_account _ _ _ _ (recordKey_validator v)]

theorem delegation_set_account (a d v : Address) (x : Account) :
    (s.set_account a x).2.delegation d v = s.delegation d v := by
  unfold delegation get_record set_account
  rw [LawfulBackend.get_raw_put_account _ _ _ _ (recordKey_delegation d v)]

theorem get_account_set_validator_record (a v : Address) (r : ValidatorRecord) :
    (s.set_validator_record v r).2.get_account a = s.get_account a :=
  LawfulBackend.get_account_put_raw s.backend _ _ a (recordKey_validator v)

theorem get_account_set_delegation (a d v : Address) (x : Delegation) :
    (s.set_delegation d v x).2.get_account a = s.get_account a :=
  LawfulBackend.get_account_put_raw s.backend _ _ a (recordKey_delegation d v)

omit [Crates] in
theorem get_account_delete_delegation (a d v : Address) :
    (s.delete_delegation d v).2.get_account a = s.get_account a :=
  LawfulBackend.get_account_delete_raw s.backend _ a (recordKey_delegation d v)

end StateStore

end Pemrix
