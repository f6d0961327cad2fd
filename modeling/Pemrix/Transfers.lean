-- Three judges of a transfer: the block executor, the native executor and the REST
-- server. They check the signature, the nonce and the funds in different orders and
-- with different arithmetic, and all come to the same answer.
import Pemrix.Residue
import Pemrix.StoreOps
import Pemrix.FrontEnds
import Pemrix.Tokenomics

open Std

namespace Pemrix

/-! ## The native executor -/

namespace NativeExecutor

open Exec

variable {B : Type} [StateBackend B] [Crates]

omit [StateBackend B] in
/-- The same checks as those of the block executor. -/
def verify_signature (transaction : Transaction) : Except VmError Unit :=
  BlockExecutor.verify_signature transaction

def run (transaction : Transaction) : Exec B VmError ExecutionResult := do
  if let .error e := verify_signature transaction then throw e
  let sender_balance ← or_storage (read (·.balance transaction.sender))
  let sender_nonce ← or_storage (read (·.nonce transaction.sender))
  if sender_nonce ≠ transaction.nonce then return ⟨false, 0, "invalid nonce"⟩
  match ← checked_add transaction.amount transaction.fee with
  | none => throw .InsufficientBalance
  | some total =>
    if sender_balance < total then return ⟨false, 0, "insufficient balance"⟩
    or_storage (StateStore.transfer transaction.sender transaction.recipient transaction.amount
      transaction.fee)
    return ⟨true, 21000, "ok"⟩

def execute (state : StateStore B) (transaction : Transaction) :
    Except VmError ExecutionResult × StateStore B :=
  let (r, m) := (run transaction).run ⟨state, []⟩
  (r, m.store)

end NativeExecutor

/-- The executor returns a result that says success. -/
def Succeeded (result : Except VmError ExecutionResult) : Prop :=
  ∃ v, result = .ok v ∧ v.success = true

theorem not_succeeded_error (e : VmError) : ¬ Succeeded (.error e) := by
  rintro ⟨v, hv, -⟩
  cases hv

theorem not_succeeded_false (gas : UInt64) (message : String) :
    ¬ Succeeded (.ok ⟨false, gas, message⟩) := by
  rintro ⟨v, hv, hsuccess⟩
  cases hv
  cases hsuccess

variable {B : Type} [StateBackend B] [Crates] [LawfulStore B]

/-! ## When a transfer succeeds -/

section Succeeds

variable {s s' : StateStore B} {tx : Transaction} {x : Account}
  {r : Except VmError ExecutionResult}

omit [Crates] in
theorem TransferEnds.succeeded_iff (h : TransferEnds (s.withAccount tx.sender x) tx x r s') :
    Succeeded r ↔ tx.amount ≤ x.balance ∧ (tx.amount = 0 ∨ s.Takes tx) := by
  cases h with
  | nothing hamount =>
    rw [hamount]
    exact iff_of_true ⟨_, rfl, rfl⟩ ⟨BitVec.le_def.mpr (Nat.zero_le _), Or.inl rfl⟩
  | short hamount =>
    exact iff_of_false (not_succeeded_false 0 _) fun h => BitVec.not_lt.mpr h.1 hamount
  | failed hamount hcovers hends =>
    refine iff_of_false (not_succeeded_error _) ?_
    rintro ⟨-, hzero | htakes⟩
    · exact hamount hzero
    · cases (TransferEnds.takes_iff hcovers hends).mpr htakes
  | moved hamount hcovers hends =>
    exact iff_of_true ⟨_, rfl, rfl⟩
      ⟨hcovers, Or.inr ((TransferEnds.takes_iff hcovers hends).mp rfl)⟩

/-- The sender has signed, the nonce is the next one, and the balance covers amount and fee. -/
structure Payable (tx : Transaction) (x : Account) : Prop where
  signed : BlockExecutor.verify_signature tx = .ok ()
  nonce : x.nonce = tx.nonce
  covers : tx.amount.toNat + tx.fee.toNat ≤ x.balance.toNat

omit [LawfulStore B] in
theorem charges_iff (hx : s.get_account tx.sender = .ok (some x)) :
    s.Charges tx ↔ BlockExecutor.verify_signature tx = .ok () ∧ x.nonce = tx.nonce ∧
      tx.fee ≤ x.balance := by
  unfold StateStore.Charges
  rw [StateStore.nonce_of_get_account hx, StateStore.balance_of_get_account hx]
  simp

/-- The block executor on a transfer. -/
theorem execute_succeeded_iff (hx : s.get_account tx.sender = .ok (some x))
    (hpayload : tx.payload = []) :
    Succeeded (BlockExecutor.execute s tx).1 ↔
      Payable tx x ∧ (tx.amount = 0 ∨ s.Takes tx) := by
  have hends := execute_ends s tx
  have hiff := charges_iff hx
  generalize (BlockExecutor.execute s tx).1 = r, (BlockExecutor.execute s tx).2 = s' at hends ⊢
  have hpayable : Payable tx x → s.Charges tx := fun h =>
    hiff.mpr ⟨h.signed, h.nonce, BitVec.le_def.mpr (Nat.le_of_add_left_le h.covers)⟩
  cases hends with
  | unsigned hverify =>
    exact iff_of_false (not_succeeded_error _) fun h => nomatch hverify.symm.trans h.1.signed
  | unread hread => cases hx.symm.trans hread
  | uncharged hverify hread hnot =>
    exact iff_of_false (not_succeeded_false 0 _) fun h => hnot (hpayable h.1)
  | charged hcharges hread hends =>
    cases hx.symm.trans hread
    obtain ⟨hsigned, hnonce, hfee⟩ := hiff.mp hcharges
    cases hends with
    | transfer _ hends =>
      rw [hends.succeeded_iff]
      refine and_congr_left' ?_
      have hle := BitVec.le_def.mp hfee
      show tx.amount ≤ x.balance - tx.fee ↔ _
      rw [BitVec.le_def, U128.toNat_sub hfee]
      constructor
      · exact fun h => ⟨hsigned, hnonce, by omega⟩
      · intro h
        have := h.covers
        omega
    | foreign hother hfirst => cases hpayload.symm.trans hother
    | undecoded hother herror => cases hpayload.symm.trans hother
    | staked hother hdecode hends => cases hpayload.symm.trans hother

end Succeeds

/-! ## How the native executor can end -/

/-- The account of the sender after amount and fee. -/
def Account.paid (x : Account) (tx : Transaction) : Account :=
  ⟨x.balance - (tx.amount + tx.fee), x.nonce + 1⟩

/-- How a call of the native executor can end for a sender with the account `x`. -/
inductive NativeEnds (s : StateStore B) (tx : Transaction) (x : Account) :
    Except VmError ExecutionResult → StateStore B → Prop
  | refused {r : Except VmError ExecutionResult} (hfails : ¬ Succeeded r)
    (hpayable : ¬ Payable tx x) : NativeEnds s tx x r s
  | failed {e : StorageError} {s' : StateStore B} (hpayable : Payable tx x)
    (hends : ReceiveEnds (s.withAccount tx.sender (x.paid tx)) tx.recipient tx.amount (.error e)
      s') : NativeEnds s tx x (.error .Storage) s'
  | paid {s' : StateStore B} (hpayable : Payable tx x)
    (hends : ReceiveEnds (s.withAccount tx.sender (x.paid tx)) tx.recipient tx.amount (.ok ())
      s') : NativeEnds s tx x (.ok ⟨true, 21000, "ok"⟩) s'

section Native

variable {s : StateStore B} {tx : Transaction} {x : Account}

omit [Crates] in
theorem store_transfer_ends (hx : s.get_account tx.sender = .ok (some x))
    (hfits : tx.amount.toNat + tx.fee.toNat < 2 ^ 128)
    (hcovers : tx.amount + tx.fee ≤ x.balance) :
    EndsIn (StateStore.transfer tx.sender tx.recipient tx.amount tx.fee) s
      (ReceiveEnds (s.withAccount tx.sender (x.paid tx)) tx.recipient tx.amount) := by
  unfold StateStore.transfer
  refine endsIn_get (fun e he => nomatch hx.symm.trans he) fun y hy => ?_
  cases hx.symm.trans hy
  refine endsIn_arith ?_
  have hadd : U128.checked_add tx.amount tx.fee = some (tx.amount + tx.fee) := if_pos hfits
  rw [hadd]
  refine endsIn_check (fun hshort => absurd hshort (BitVec.not_lt.mpr hcovers)) fun _ => ?_
  refine endsIn_arith (endsIn_bind (P := fun r t => r = .ok () ∧
    t = s.withAccount tx.sender (x.paid tx)) (endsIn_put (s.set_account_eq _ _) ⟨rfl, rfl⟩) ?_ ?_)
  · rintro e t ⟨he, -⟩
    cases he
  · rintro v t ⟨-, rfl⟩
    exact transfer_amount_only_ends _ tx.recipient tx.amount

theorem native_ends (hx : s.get_account tx.sender = .ok (some x)) :
    EndsIn (NativeExecutor.run tx) s (NativeEnds s tx x) := by
  unfold NativeExecutor.run NativeExecutor.verify_signature
  rcases hverify : BlockExecutor.verify_signature tx with e | u
  · refine endsIn_throw (.refused (not_succeeded_error e) fun h => ?_)
    exact nomatch hverify.symm.trans h.signed
  refine endsIn_read_ok (StateStore.balance_of_get_account hx) ?_
  refine endsIn_read_ok (StateStore.nonce_of_get_account hx) ?_
  refine endsIn_ite (fun hnonce => endsIn_pure (.refused (not_succeeded_false 0 _) fun h =>
    hnonce h.nonce)) fun hnonce => endsIn_arith ?_
  have hlt := x.balance.isLt
  by_cases hfits : tx.amount.toNat + tx.fee.toNat < 2 ^ 128
  · have hadd : U128.checked_add tx.amount tx.fee = some (tx.amount + tx.fee) := if_pos hfits
    rw [hadd]
    refine endsIn_ite (fun hshort => endsIn_pure (.refused (not_succeeded_false 0 _) ?_))
      fun hcovers => ?_
    · intro h
      have hsum := BitVec.lt_def.mp hshort
      have hcovers := h.covers
      rw [U128.toNat_add hfits] at hsum
      exact absurd hsum (Nat.not_lt.mpr hcovers)
    · have hcovers := BitVec.not_lt.mp hcovers
      have hpayable : Payable tx x := by
        refine ⟨hverify, not_not.mp hnonce, ?_⟩
        rw [← U128.toNat_add hfits]
        exact BitVec.le_def.mp hcovers
      refine endsIn_bind (P := fun r t => ∃ r', r'.mapError (fun _ => .Storage) = r ∧
        ReceiveEnds (s.withAccount tx.sender (x.paid tx)) tx.recipient tx.amount r' t)
        (fun ops => ⟨_, rfl, store_transfer_ends hx hfits hcovers ops⟩) ?_ ?_
      · rintro e t ⟨r', hr, hends⟩
        rcases r' with e' | u
        · cases hr
          exact .failed hpayable hends
        · cases hr
      · rintro v t ⟨r', hr, hends⟩
        rcases r' with e' | u
        · cases hr
        · exact endsIn_pure (.paid hpayable hends)
  · have hadd : U128.checked_add tx.amount tx.fee = none := if_neg hfits
    rw [hadd]
    refine endsIn_throw (.refused (not_succeeded_error _) fun h => hfits ?_)
    exact Nat.lt_of_le_of_lt h.covers hlt

/-- Every way a call of the native executor can end. -/
theorem native_execute_ends (hx : s.get_account tx.sender = .ok (some x)) :
    NativeEnds s tx x (NativeExecutor.execute s tx).1 (NativeExecutor.execute s tx).2 :=
  native_ends hx []

end Native

/-! ## The executors agree -/

section Agree

variable {s s' : StateStore InMemoryBackend} {tx : Transaction} {x y : Account}

/-- The balance of every account can be read, and takes an amount of 0. -/
theorem takes_of_zero (s : StateStore InMemoryBackend) (hamount : tx.amount = 0) :
    s.Takes tx := by
  refine Or.inr ⟨_, StateStore.balance_of_get_account (s := s) (a := tx.recipient) rfl, ?_⟩
  rw [hamount]
  exact BitVec.isLt _

omit [LawfulStore B] in
/-- The balance is what it was, less amount and fee. -/
theorem Payable.toNat_paid (h : Payable tx x) :
    (x.paid tx).balance.toNat + (tx.amount.toNat + tx.fee.toNat) = x.balance.toNat := by
  have hlt := x.balance.isLt
  have hcovers := h.covers
  have hfits : tx.amount.toNat + tx.fee.toNat < 2 ^ 128 := by omega
  have hle : tx.amount + tx.fee ≤ x.balance := by
    rw [BitVec.le_def, U128.toNat_add hfits]
    exact hcovers
  unfold Account.paid
  rw [U128.toNat_sub hle, U128.toNat_add hfits]
  omega

theorem native_succeeded_iff (hx : s.get_account tx.sender = .ok (some x)) :
    Succeeded (NativeExecutor.execute s tx).1 ↔
      Payable tx x ∧ (tx.amount = 0 ∨ s.Takes tx) := by
  have hends := native_execute_ends hx
  generalize (NativeExecutor.execute s tx).1 = r, (NativeExecutor.execute s tx).2 = s' at hends ⊢
  have hfits : Payable tx x → (x.paid tx).balance.toNat + tx.amount.toNat < 2 ^ 128 := by
    intro h
    have hpaid := h.toNat_paid
    have hlt := x.balance.isLt
    omega
  cases hends with
  | refused hfails hpayable => exact iff_of_false hfails fun h => hpayable h.1
  | failed hpayable hends =>
    have hrefuses := mt (receive_ok_iff hends (hfits hpayable)).mpr (by simp)
    exact iff_of_false (not_succeeded_error _) fun h => hrefuses (h.2.elim (takes_of_zero s) id)
  | paid hpayable hends =>
    have htakes := (receive_ok_iff hends (hfits hpayable)).mp rfl
    exact iff_of_true ⟨_, rfl, rfl⟩ ⟨hpayable, Or.inr htakes⟩

/-- The last write of an account counts. -/
theorem withAccount_withAccount (s : StateStore InMemoryBackend) (a : Address) (x y : Account) :
    (s.withAccount a x).withAccount a y = s.withAccount a y := by
  have haccounts : (s.backend.accounts.insert a x).insert a y = s.backend.accounts.insert a y := by
    apply ExtTreeMap.ext_getElem?
    intro b
    simp only [ExtTreeMap.getElem?_insert]
    split
    · rfl
    · rfl
  unfold StateStore.withAccount StateStore.set_account
  simp only [StateBackend.put_account, haccounts]

omit [Crates] [LawfulStore B] in
/-- The fee and then the amount, or both at once. -/
theorem paid_eq (x : Account) (tx : Transaction) :
    (Account.charged (some x) tx.fee).with_balance
      ((Account.charged (some x) tx.fee).balance - tx.amount) = x.paid tx := by
  have hbalance : x.balance - tx.fee - tx.amount = x.balance - (tx.amount + tx.fee) := by bv_omega
  unfold Account.with_balance Account.charged Account.paid
  simp only [Option.getD_some, hbalance]

/-- A transfer has one outcome. -/
theorem ReceiveEnds.store_unique {address : Address} {amount : Balance}
    {t t' : StateStore InMemoryBackend} (h : ReceiveEnds s address amount (.ok ()) t)
    (h' : ReceiveEnds s address amount (.ok ()) t') : t = t' := by
  cases h with
  | received hread hadd =>
    cases h' with
    | received hread' hadd' =>
      cases hread.symm.trans hread'
      cases hadd.symm.trans hadd'
      rfl

/-- Nothing on top of a balance changes no balance and no nonce. -/
theorem ReceiveEnds.of_zero {address : Address} (h : ReceiveEnds s address 0 (.ok ()) s')
    (a : Address) : s'.balance a = s.balance a ∧ s'.nonce a = s.nonce a := by
  cases h with
  | @received z balance hread hadd =>
    refine ⟨?_, StateStore.nonce_set_balance hread balance a⟩
    have hbalance : balance = (z.getD default).balance := by
      have hfits : (z.getD default).balance.toNat + (0 : U128).toNat < 2 ^ 128 := BitVec.isLt _
      rw [U128.checked_add, if_pos hfits] at hadd
      rw [← Option.some.inj hadd]
      exact BitVec.add_zero _
    have hget := s.get_account_withAccount address a ((z.getD default).with_balance balance)
    by_cases ha : address = a
    · subst ha
      rw [if_pos rfl] at hget
      rw [StateStore.balance_of_get_account hget, StateStore.balance_of_get_account hread]
      exact congrArg _ hbalance
    · rw [if_neg ha] at hget
      unfold StateStore.balance
      rw [hget]

/-- Where both executors succeed, they leave the same balances and nonces, and the same store if
something is moved. -/
theorem stores_agree (hx : s.get_account tx.sender = .ok (some x)) (hpayload : tx.payload = [])
    (hnative : Succeeded (NativeExecutor.execute s tx).1)
    (hblock : Succeeded (BlockExecutor.execute s tx).1) :
    (∀ a, (NativeExecutor.execute s tx).2.balance a = (BlockExecutor.execute s tx).2.balance a ∧
      (NativeExecutor.execute s tx).2.nonce a = (BlockExecutor.execute s tx).2.nonce a) ∧
    (tx.amount ≠ 0 → (NativeExecutor.execute s tx).2 = (BlockExecutor.execute s tx).2) := by
  obtain ⟨v, hv, hvsuccess⟩ := hnative
  obtain ⟨w, hw, hsuccess⟩ := hblock
  have hnends := native_execute_ends hx
  have hbends := execute_ends s tx
  rw [hv] at hnends
  rw [hw] at hbends
  generalize (NativeExecutor.execute s tx).2 = n at hnends ⊢
  generalize (BlockExecutor.execute s tx).2 = b at hbends ⊢
  cases hnends with
  | refused hfails => exact absurd ⟨v, rfl, hvsuccess⟩ hfails
  | paid hpayable hnative =>
    cases hbends with
    | uncharged hverify hread hnot => cases hsuccess
    | charged hcharges hread hends =>
      cases hx.symm.trans hread
      cases hends with
      | transfer _ hends =>
        cases hends with
        | nothing hamount =>
          -- The native executor still writes the account of the recipient.
          have hpaid : x.paid tx = .charged (some x) tx.fee := by
            unfold Account.paid Account.charged
            rw [hamount, zero_add]
            rfl
          rw [hamount, hpaid] at hnative
          exact ⟨hnative.of_zero, fun hmoved => absurd hamount hmoved⟩
        | short hamount => cases hsuccess
        | moved hamount hcovers hblock =>
          rw [withAccount_withAccount, paid_eq] at hblock
          rw [hnative.store_unique hblock]
          exact ⟨fun _ => ⟨rfl, rfl⟩, fun _ => rfl⟩
      | foreign hother hfirst => cases hpayload.symm.trans hother
      | staked hother hdecode hends => cases hpayload.symm.trans hother

end Agree

/-- The native executor and the block executor succeed on the same transfers, and leave the same
balances and nonces, and the same root if something is moved. -/
theorem transfer_executors_agree (s : StateStore InMemoryBackend) (tx : Transaction) (x : Account)
    (hentry : s.get_account tx.sender = .ok (some x)) (hpayload : tx.payload = []) :
    (Succeeded (NativeExecutor.execute s tx).1 ↔ Succeeded (BlockExecutor.execute s tx).1) ∧
    (Succeeded (NativeExecutor.execute s tx).1 →
      (∀ a, (NativeExecutor.execute s tx).2.balance a = (BlockExecutor.execute s tx).2.balance a ∧
        (NativeExecutor.execute s tx).2.nonce a = (BlockExecutor.execute s tx).2.nonce a) ∧
      (tx.amount ≠ 0 → (NativeExecutor.execute s tx).2.state_root =
        (BlockExecutor.execute s tx).2.state_root)) := by
  have hiff : Succeeded (NativeExecutor.execute s tx).1 ↔
      Succeeded (BlockExecutor.execute s tx).1 := by
    rw [native_succeeded_iff hentry, execute_succeeded_iff hentry hpayload]
  refine ⟨hiff, fun hnative => ?_⟩
  obtain ⟨hview, hsame⟩ := stores_agree hentry hpayload hnative (hiff.mp hnative)
  exact ⟨hview, fun hamount => congrArg _ (hsame hamount)⟩

/-! ## The REST server -/

omit [StateBackend B] [LawfulStore B] in
theorem verify_signature_ok_iff (tx : Transaction) :
    BlockExecutor.verify_signature tx = .ok () ↔
      tx.public_key.length = 32 ∧ tx.signature.length = 64 ∧
        Address.from_public_key_hash (Hash.hash_bytes tx.public_key) = tx.sender ∧
        Crates.ed25519_verify tx.public_key tx.signing_hash.as_bytes tx.signature := by
  have hsender : Address.from_public_key_hash (Hash.hash_bytes tx.public_key) = tx.sender ↔
      (Hash.hash_bytes tx.public_key).as_bytes = tx.sender.as_bytes :=
    ⟨fun h => congrArg Address.as_bytes h, fun h => Address.as_bytes_inj h⟩
  rw [hsender]
  unfold BlockExecutor.verify_signature
  split
  · simp_all
  split
  · simp_all
  split
  · simp_all
  split
  · simp_all
  · simp_all

omit [StateBackend B] [LawfulStore B] in
/-- The REST server takes a transaction that is payable, as long as the sum of amount and fee does
not saturate at the balance. -/
theorem validate_ok_iff {rpc : RpcState} {tx : Transaction} {x : Account}
    (hentry : rpc.get_account tx.sender = some x) (hbalance : x.balance.toNat < 2 ^ 128 - 1) :
    (∃ hash, RpcServer.validate_transaction rpc tx = .ok hash) ↔ Payable tx x := by
  have htotal : U128.saturating_add tx.amount tx.fee ≤ x.balance ↔
      tx.amount.toNat + tx.fee.toNat ≤ x.balance.toNat := by
    rw [BitVec.le_def, U128.toNat_saturating_add]
    omega
  have hpayable : Payable tx x ↔ BlockExecutor.verify_signature tx = .ok () ∧ x.nonce = tx.nonce ∧
      U128.saturating_add tx.amount tx.fee ≤ x.balance := by
    rw [htotal]
    exact ⟨fun h => ⟨h.signed, h.nonce, h.covers⟩, fun h => ⟨h.1, h.2.1, h.2.2⟩⟩
  rw [hpayable, verify_signature_ok_iff]
  unfold RpcServer.validate_transaction
  dsimp only
  rw [hentry]
  by_cases hsizes : tx.public_key.length ≠ 32 ∨ tx.signature.length ≠ 64
  · rw [if_pos hsizes]
    refine iff_of_false (by simp) ?_
    rintro ⟨⟨hkey, hsignature, -⟩, -⟩
    exact hsizes.elim (fun h => h hkey) fun h => h hsignature
  rw [if_neg hsizes]
  obtain ⟨hkey, hsignature⟩ := not_or.mp hsizes
  by_cases hsender : Address.from_public_key_hash (Hash.hash_bytes tx.public_key) ≠ tx.sender
  · rw [if_pos hsender]
    exact iff_of_false (by simp) fun h => hsender h.1.2.2.1
  rw [if_neg hsender]
  by_cases hverify : ¬ Crates.ed25519_verify tx.public_key tx.signing_hash.as_bytes tx.signature
  · rw [if_pos hverify]
    exact iff_of_false (by simp) fun h => hverify h.1.2.2.2
  rw [if_neg hverify]
  dsimp only
  by_cases hshort : x.balance < U128.saturating_add tx.amount tx.fee
  · rw [if_pos hshort]
    exact iff_of_false (by simp) fun h => BitVec.not_lt.mpr h.2.2 hshort
  rw [if_neg hshort]
  by_cases hnonce : x.nonce ≠ tx.nonce
  · rw [if_pos hnonce]
    exact iff_of_false (by simp) fun h => hnonce h.2.1
  rw [if_neg hnonce]
  refine iff_of_true ⟨_, rfl⟩ ⟨⟨not_not.mp hkey, not_not.mp hsignature, not_not.mp hsender,
    not_not.mp hverify⟩, not_not.mp hnonce, BitVec.not_lt.mp hshort⟩

/-- With one set of accounts that holds at most `MAX_SUPPLY`, the REST server takes a transfer if
and only if the block executor succeeds with it. -/
theorem rpc_admission_predicts_execution (rpc : RpcState) (s : StateStore B) (tx : Transaction)
    (x : Account) (hsame : ∀ a, s.get_account a = .ok (rpc.get_account a))
    (hsupply : rpc.accounts.sumBy (fun _ x => x.balance.toNat) ≤ MAX_SUPPLY.toNat)
    (hentry : rpc.get_account tx.sender = some x) (hpayload : tx.payload = []) :
    (∃ hash, RpcServer.validate_transaction rpc tx = .ok hash) ↔
      Succeeded (BlockExecutor.execute s tx).1 := by
  have hmax : MAX_SUPPLY.toNat = 1100000000000000000 := by decide +kernel
  have hsender : s.get_account tx.sender = .ok (some x) := by rw [hsame, hentry]
  have hat : rpc.accounts.at0 (fun _ x => x.balance.toNat) tx.sender = x.balance.toNat :=
    ExtTreeMap.at0_of_some hentry
  have hle := ExtTreeMap.at0_le_sumBy (fun _ x => x.balance.toNat) rpc.accounts tx.sender
  rw [validate_ok_iff hentry (by omega), execute_succeeded_iff hsender hpayload, iff_self_and]
  intro hpayable
  have hcovers := hpayable.covers
  refine Or.inr ?_
  by_cases hself : tx.recipient = tx.sender
  · exact Or.inl hself
  · -- The two balances are different parts of the supply.
    refine Or.inr ⟨_, StateStore.balance_of_get_account (hsame tx.recipient), ?_⟩
    have htwo := ExtTreeMap.at0_add_at0_le_sumBy (fun _ x => x.balance.toNat) rpc.accounts
      (Ne.symm hself)
    have hother : rpc.accounts.at0 (fun _ x => x.balance.toNat) tx.recipient =
        ((rpc.get_account tx.recipient).getD default).balance.toNat := by
      unfold ExtTreeMap.at0 RpcState.get_account
      cases rpc.accounts[tx.recipient]? with
      | none => rfl
      | some y => rfl
    omega

end Pemrix

namespace Pemrix.Concrete

/-- The transfer of the payer, in both executors. -/
theorem transfer_executors_agree_on_the_transfer :
    let s : StateStore InMemoryBackend := ⟨⟨paying, ∅⟩⟩
    (Succeeded (NativeExecutor.execute s transfer).1 ↔
        Succeeded (BlockExecutor.execute s transfer).1) ∧
      (NativeExecutor.execute s transfer).2.state_root =
        (BlockExecutor.execute s transfer).2.state_root := by
  intro s
  have hagree := transfer_executors_agree s transfer ⟨100, 0⟩ (by decide +kernel) rfl
  have hsuccess : Succeeded (NativeExecutor.execute s transfer).1 :=
    ⟨⟨true, 21000, "ok"⟩, by decide +kernel, rfl⟩
  exact ⟨hagree.1, (hagree.2 hsuccess).2 (by decide)⟩

/-- The REST server takes the transfer, and it is executed. -/
theorem transfer_is_admitted_and_executed :
    let s : StateStore InMemoryBackend := ⟨⟨paying, ∅⟩⟩
    (∃ hash, RpcServer.validate_transaction funded transfer = .ok hash) ∧
      Succeeded (BlockExecutor.execute s transfer).1 := by
  intro s
  have hadmitted : ∃ hash, RpcServer.validate_transaction funded transfer = .ok hash :=
    ⟨transfer.hash, by decide +kernel⟩
  have hsupply : funded.accounts.sumBy (fun _ x => x.balance.toNat) ≤ MAX_SUPPLY.toNat := by
    decide +kernel
  have hentry : funded.get_account transfer.sender = some ⟨100, 0⟩ := by decide +kernel
  exact ⟨hadmitted, (rpc_admission_predicts_execution funded s transfer ⟨100, 0⟩ (fun _ => rfl)
    hsupply hentry rfl).mp hadmitted⟩

end Pemrix.Concrete
