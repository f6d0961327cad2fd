-- Start-up of a validator (`run_bft_validator`): it opens the store of its data
-- directory and writes every genesis allocation, also when the store is not new.
-- What the chain has done to a genesis account is then lost.
import Pemrix.Replay

open Std

namespace Pemrix

variable {B : Type} [StateBackend B]

/-! ## The model -/

/-- The loop over the genesis allocations: it stops at the first write that fails. -/
def seed_genesis (s : StateStore B) :
    List (Address × Account) → Except StorageError Unit × StateStore B
  | [] => (.ok (), s)
  | (address, account) :: rest =>
    match s.set_account address account with
    | (.error e, s') => (.error e, s')
    | (.ok (), s') => seed_genesis s' rest

/-- Start-up on the store that `open_state_store` finds in the data directory. -/
def start_up (s : StateStore B) (allocations : ExtTreeMap Address Account) :
    Except StorageError Unit × StateStore B :=
  seed_genesis s allocations.toList

/-- Every account, validator record and delegation is as it was. -/
structure SameLedger [Crates] (s s' : StateStore B) : Prop where
  accounts : ∀ a, s'.get_account a = s.get_account a
  validators : ∀ v, s'.validator_record v = s.validator_record v
  delegations : ∀ d v, s'.delegation d v = s.delegation d v

/-! ## What start-up writes -/

section Seed

variable [LawfulBackend B]

theorem seed_genesis_cons (s : StateStore B) (a : Address) (x : Account)
    (rest : List (Address × Account)) :
    seed_genesis s ((a, x) :: rest) = seed_genesis (s.set_account a x).2 rest := by
  have hok := s.set_account_ok a x
  rcases hset : s.set_account a x with ⟨r, s'⟩
  rw [hset] at hok
  cases hok
  simp only [seed_genesis, hset]

theorem seed_genesis_ok (s : StateStore B) (allocations : List (Address × Account)) :
    (seed_genesis s allocations).1 = .ok () := by
  induction allocations generalizing s with
  | nil => rfl
  | cons e rest ih =>
    rw [seed_genesis_cons]
    exact ih _

/-- An account with no allocation is not written. -/
theorem get_account_seed_of_not_mem (s : StateStore B) (allocations : List (Address × Account))
    {a : Address} (h : ∀ x, (a, x) ∉ allocations) :
    (seed_genesis s allocations).2.get_account a = s.get_account a := by
  induction allocations generalizing s with
  | nil => rfl
  | cons e rest ih =>
    obtain ⟨b, y⟩ := e
    have hne : b ≠ a := by
      rintro rfl
      exact h y (List.mem_cons_self ..)
    rw [seed_genesis_cons, ih _ fun x hx => h x (List.mem_cons_of_mem _ hx),
      StateStore.get_account_set_account, if_neg hne]

/-- An account with an allocation holds it. -/
theorem get_account_seed_of_mem (s : StateStore B) {allocations : List (Address × Account)}
    (hdist : allocations.Pairwise fun e f => e.1 ≠ f.1) {a : Address} {x : Account}
    (h : (a, x) ∈ allocations) :
    (seed_genesis s allocations).2.get_account a = .ok (some x) := by
  induction allocations generalizing s with
  | nil => cases h
  | cons e rest ih =>
    obtain ⟨hfirst, hrest⟩ := List.pairwise_cons.mp hdist
    rcases List.mem_cons.mp h with rfl | hmem
    · have hnot : ∀ y, (a, y) ∉ rest := fun y hy => hfirst _ hy rfl
      rw [seed_genesis_cons, get_account_seed_of_not_mem _ _ hnot,
        StateStore.get_account_set_account, if_pos rfl]
    · rw [seed_genesis_cons]
      exact ih _ hrest hmem

variable (s : StateStore B) (allocations : ExtTreeMap Address Account)

theorem get_account_start_up (a : Address) :
    (start_up s allocations).2.get_account a =
      match allocations[a]? with
      | some x => .ok (some x)
      | none => s.get_account a := by
  unfold start_up
  rcases h : allocations[a]? with _ | x
  · refine get_account_seed_of_not_mem s _ ?_
    intro x hx
    rw [ExtTreeMap.mem_toList_iff_getElem?_eq_some, h] at hx
    cases hx
  · refine get_account_seed_of_mem s ?_ (ExtTreeMap.mem_toList_iff_getElem?_eq_some.mpr h)
    refine allocations.ordered_keys_toList.imp ?_
    intro e f hlt heq
    have hself : compare f.1 f.1 = .eq := ReflCmp.compare_self
    rw [heq, hself] at hlt
    cases hlt

variable [Crates]

/-- No record is written. -/
theorem seed_genesis_records (s : StateStore B) (allocations : List (Address × Account)) :
    (∀ v, (seed_genesis s allocations).2.validator_record v = s.validator_record v) ∧
      ∀ d v, (seed_genesis s allocations).2.delegation d v = s.delegation d v := by
  induction allocations generalizing s with
  | nil => exact ⟨fun _ => rfl, fun _ _ => rfl⟩
  | cons e rest ih =>
    obtain ⟨hvalidators, hdelegations⟩ := ih (s.set_account e.1 e.2).2
    rw [seed_genesis_cons]
    refine ⟨?_, ?_⟩
    · intro v
      rw [hvalidators, StateStore.validator_record_set_account]
    · intro d v
      rw [hdelegations, StateStore.delegation_set_account]

/-- Start-up leaves a store as it is if and only if it holds every allocation already. -/
theorem start_up_same_iff :
    SameLedger s (start_up s allocations).2 ↔
      ∀ a x, allocations[a]? = some x → s.get_account a = .ok (some x) := by
  constructor
  · intro hsame a x hx
    rw [← hsame.accounts a, get_account_start_up, hx]
  · intro hholds
    obtain ⟨hvalidators, hdelegations⟩ := seed_genesis_records s allocations.toList
    refine ⟨?_, hvalidators, hdelegations⟩
    intro a
    rw [get_account_start_up]
    rcases h : allocations[a]? with _ | x
    · rfl
    · exact (hholds a x h).symm

end Seed

/-! ## A restart -/

variable [Crates] [LawfulAccounts]

/-- A node that ran any transactions after its first start, and starts again on its store,
finds its ledger as it left it if and only if every genesis account still held exactly its
allocation when the node stopped. -/
theorem restart_preserves_iff (allocations : ExtTreeMap Address Account) (txs : List Transaction) :
    let first := start_up ⟨RocksDbBackend.new⟩ allocations
    let stopped := runTransactions first.2 txs
    let again := start_up stopped allocations
    first.1 = .ok () ∧ again.1 = .ok () ∧
      (SameLedger stopped again.2 ↔
        ∀ a x, allocations[a]? = some x → stopped.get_account a = .ok (some x)) := by
  intro first stopped again
  exact ⟨seed_genesis_ok _ _, seed_genesis_ok _ _, start_up_same_iff stopped allocations⟩

/-- So a genesis account that has paid for a transaction is reset. -/
theorem restart_resets_charged (allocations : ExtTreeMap Address Account) (txs : List Transaction)
    {first : StateStore RocksDbBackend}
    (hfirst : first = (start_up ⟨RocksDbBackend.new⟩ allocations).2)
    (hmax : NoncesBelowMax first txs) {i : Nat} {tx : Transaction} (htx : txs[i]? = some tx)
    (hcharges : (storeAt first txs i).Charges tx) {x : Account}
    (hgenesis : allocations[tx.sender]? = some x) :
    ¬ SameLedger (runTransactions first txs)
      (start_up (runTransactions first txs) allocations).2 := by
  intro hsame
  -- The nonce of the sender: from its allocation, past the one of the transaction.
  have hstart : (storeAt first txs 0).nonce tx.sender = .ok x.nonce := by
    have hget := get_account_start_up ⟨RocksDbBackend.new⟩ allocations tx.sender
    rw [hgenesis, ← hfirst] at hget
    exact StateStore.nonce_of_get_account hget
  obtain ⟨n, hn, hle⟩ := hmax.nonce_mono (Nat.zero_le i) hstart
  have hown := hcharges.2.1
  rw [hn] at hown
  have hlast : storeAt first txs txs.length = runTransactions first txs := by
    unfold storeAt
    rw [List.take_length]
  obtain ⟨hi, -⟩ := List.getElem?_eq_some_iff.mp htx
  obtain ⟨m, hm, hlt⟩ := hmax.nonce_after hi htx hcharges
  have hget := (start_up_same_iff _ allocations).mp hsame tx.sender x hgenesis
  rw [hlast, StateStore.nonce_of_get_account hget] at hm
  rw [← Except.ok.inj hm, ← Except.ok.inj hown] at hlt
  exact Nat.not_lt.mpr hle hlt

end Pemrix

namespace Pemrix.Concrete

scoped instance : LawfulAccounts where
  account := Codec.read_all_write SerdeJson.account

/-- A transaction with a signature that does not hold leaves the allocation. -/
theorem restart_after_a_refused_transfer :
    let first := start_up ⟨RocksDbBackend.new⟩ paying
    let stopped := runTransactions first.2 [{ transfer with signature := [] }]
    let again := start_up stopped paying
    stopped.get_account payer = .ok (some ⟨100, 0⟩) ∧
    first.1 = .ok () ∧ again.1 = .ok () ∧
      (SameLedger stopped again.2 ↔
        ∀ a x, paying[a]? = some x → stopped.get_account a = .ok (some x)) :=
  ⟨by decide +kernel, restart_preserves_iff paying [{ transfer with signature := [] }]⟩

/-- The payer has 94 and the nonce 1 after its transfer, and 100 and the nonce 0 after the
node starts again: the transfer could be paid once more. -/
theorem restart_undoes_a_transfer :
    let stopped := runTransactions (start_up ⟨RocksDbBackend.new⟩ paying).2 [transfer]
    let again := (start_up stopped paying).2
    stopped.get_account payer = .ok (some ⟨94, 1⟩) ∧
      again.get_account payer = .ok (some ⟨100, 0⟩) ∧
      again.get_account (addr 9) = .ok (some ⟨5, 0⟩) ∧ ¬ SameLedger stopped again := by
  intro stopped again
  have hbefore : stopped.get_account payer = .ok (some ⟨94, 1⟩) := by decide +kernel
  have hafter : again.get_account payer = .ok (some ⟨100, 0⟩) := by decide +kernel
  refine ⟨hbefore, hafter, by decide +kernel, ?_⟩
  intro hsame
  have haccount := hsame.accounts payer
  rw [hbefore, hafter] at haccount
  cases haccount

end Pemrix.Concrete
