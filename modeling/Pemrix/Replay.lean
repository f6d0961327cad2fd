-- Replay protection. A call that charges its fee advances the nonce of its sender
-- by one, no other call changes the store, and nothing after the charge touches a
-- nonce again. So each nonce of a sender is used at most once in a run.
import Pemrix.Backends
import Pemrix.Supply

open Std

namespace Pemrix

variable {B : Type} [StateBackend B]

namespace StateStore

/-- A write of an account with the nonce that was read changes no nonce. -/
theorem nonce_set_account [LawfulBackend B] (s : StateStore B) (a a' : Address) (x : Account) :
    (s.set_account a x).2.nonce a' = if a = a' then .ok x.nonce else s.nonce a' := by
  unfold nonce
  rw [get_account_set_account]
  split
  · rfl
  · rfl

theorem nonce_of_get_account {s : StateStore B} {a : Address} {x : Option Account}
    (h : s.get_account a = .ok x) : s.nonce a = .ok (x.getD default).nonce := by
  unfold nonce
  rw [h]
  cases x with
  | none => rfl
  | some x => rfl

theorem nonce_set_balance [LawfulBackend B] {s : StateStore B} {a : Address} {x : Option Account}
    (h : s.get_account a = .ok x) (balance : Balance) (a' : Address) :
    (s.set_account a { x.getD default with balance }).2.nonce a' = s.nonce a' := by
  rw [nonce_set_account]
  split
  · rename_i haa
    subst haa
    exact (nonce_of_get_account h).symm
  · rfl

variable [Crates]

/-- The call passes the checks before the fee is taken. -/
def Charges (s : StateStore B) (tx : Transaction) : Prop :=
  BlockExecutor.verify_signature tx = .ok () ∧ s.nonce tx.sender = .ok tx.nonce ∧
    ∃ balance, s.balance tx.sender = .ok balance ∧ tx.fee ≤ balance

/-- The balance of the sender can be read and covers the fee. -/
instance (s : StateStore B) (tx : Transaction) :
    Decidable (∃ balance, s.balance tx.sender = .ok balance ∧ tx.fee ≤ balance) :=
  match s.balance tx.sender with
  | .error _ => isFalse fun ⟨_, hok, _⟩ => nomatch hok
  | .ok balance => decidable_of_iff (tx.fee ≤ balance)
      ⟨fun hle => ⟨balance, rfl, hle⟩, fun ⟨_, hok, hle⟩ => Except.ok.inj hok ▸ hle⟩

instance (s : StateStore B) (tx : Transaction) : Decidable (s.Charges tx) :=
  inferInstanceAs (Decidable (_ ∧ _ ∧ _))

/-- The call charges a fee, moves value or changes stake. -/
def Acts (s : StateStore B) (tx : Transaction) : Prop :=
  s.Charges tx ∨ (BlockExecutor.execute s tx).2 ≠ s

end StateStore

/-! ## Code that keeps the nonces -/

section Keeps

variable {ε α β : Type}

/-- From the store, the code ends with the same nonces, also when it ends with an error. -/
def KeepsNonces (x : Exec B ε α) (s : StateStore B) : Prop :=
  ∀ ops a, (x.run ⟨s, ops⟩).2.store.nonce a = s.nonce a

variable {s : StateStore B}

theorem keeps_pure (v : α) : KeepsNonces (pure v : Exec B ε α) s := fun _ _ => rfl

theorem keeps_throw (e : ε) : KeepsNonces (throw e : Exec B ε α) s := fun _ _ => rfl

theorem keeps_guard {c : Prop} [Decidable c] {e : ε} {k : Unit → Exec B ε α}
    (hk : ¬ c → KeepsNonces (k ()) s) : KeepsNonces (if c then (throw e >>= k) else k ()) s := by
  by_cases h : c
  · rw [if_pos h]
    exact fun _ _ => rfl
  · rw [if_neg h]
    exact hk h

theorem keeps_bind {x : Exec B ε α} {k : α → Exec B ε β} (hx : KeepsNonces x s)
    (hk : ∀ ops v m, x.run ⟨s, ops⟩ = (.ok v, m) → KeepsNonces (k v) m.store) :
    KeepsNonces (x >>= k) s := by
  intro ops a
  have hfirst := hx ops a
  rw [Exec.run_bind]
  rcases h : x.run ⟨s, ops⟩ with ⟨e | v, m⟩
  · rw [h] at hfirst
    exact hfirst
  · rw [h] at hfirst
    exact (hk ops v m h m.ops a).trans hfirst

theorem keeps_or_storage {x : Exec B StorageError α} (hx : KeepsNonces x s) :
    KeepsNonces (Exec.or_storage x) s := fun ops a => hx ops a

omit [StateBackend B] in
theorem run_read (f : StateStore B → Except StorageError α) (m : Machine B) :
    (Exec.or_storage (Exec.read f)).run m = ((f m.store).mapError fun _ => .Storage, m) := rfl

omit [StateBackend B] in
theorem run_write (f : StateStore B → Except StorageError Unit × StateStore B) (m : Machine B) :
    (Exec.or_storage (Exec.write f)).run m =
      ((f m.store).1.mapError fun _ => .Storage, { m with store := (f m.store).2 }) := rfl

/-- A read goes on with its value. -/
theorem keeps_read {f : StateStore B → Except StorageError α} {k : α → Exec B VmError β}
    (hk : ∀ v, f s = .ok v → KeepsNonces (k v) s) :
    KeepsNonces (Exec.or_storage (Exec.read f) >>= k) s := by
  refine keeps_bind (fun _ _ => rfl) ?_
  intro ops v m h
  rw [run_read] at h
  obtain ⟨hv, rfl⟩ := Prod.mk.inj h
  rcases hf : f s with e | w
  · rw [hf] at hv
    cases hv
  · rw [hf] at hv
    cases hv
    exact hk v hf

/-- A write that keeps the nonces, and the rest. -/
theorem keeps_write {f : StateStore B → Except StorageError Unit × StateStore B}
    {k : Unit → Exec B VmError β} (hf : ∀ a, (f s).2.nonce a = s.nonce a)
    (hk : KeepsNonces (k ()) (f s).2) :
    KeepsNonces (Exec.or_storage (Exec.write f) >>= k) s := by
  refine keeps_bind (fun _ a => hf a) ?_
  intro ops v m h
  rw [run_write] at h
  obtain ⟨-, rfl⟩ := Prod.mk.inj h
  exact hk

/-- An operation on `u128` goes on with its value. -/
theorem keeps_arith {op : ArithOp} {v : α} {k : α → Exec B ε β} (hk : KeepsNonces (k v) s) :
    KeepsNonces ((do Exec.note op; return v) >>= k) s :=
  fun ops a => hk (ops ++ [op]) a

end Keeps

/-! ## Nothing after the charge touches a nonce -/

variable [LawfulBackend B] [Crates] (s : StateStore B)

theorem register_keeps (sender : Address) (consensus_pubkey : Bytes) (commission_bps : UInt16)
    (self_stake : Balance) :
    KeepsNonces (StakingExecutor.register sender consensus_pubkey commission_bps self_stake) s := by
  unfold StakingExecutor.register
  refine keeps_guard fun _ => keeps_guard fun _ => keeps_guard fun _ => ?_
  refine keeps_read fun _ _ => keeps_guard fun _ => ?_
  refine keeps_read fun _ _ => keeps_guard fun _ => ?_
  refine keeps_read fun account haccount => keeps_arith ?_
  refine keeps_write (StateStore.nonce_set_balance haccount _) ?_
  refine keeps_write (fun a => ?_) (keeps_pure _)
  unfold StateStore.nonce
  rw [StateStore.get_account_set_validator_record]

theorem delegate_keeps (sender validator : Address) (amount : Balance) :
    KeepsNonces (StakingExecutor.delegate sender validator amount) s := by
  unfold StakingExecutor.delegate
  refine keeps_guard fun _ => ?_
  refine keeps_read fun record _ => ?_
  cases record with
  | none => exact keeps_throw _
  | some record =>
    refine keeps_guard fun _ => ?_
    refine keeps_read fun _ _ => keeps_guard fun _ => ?_
    refine keeps_read fun account haccount => keeps_arith ?_
    refine keeps_write (StateStore.nonce_set_balance haccount _) ?_
    refine keeps_arith (keeps_write (fun a => ?_) ?_)
    · unfold StateStore.nonce
      rw [StateStore.get_account_set_validator_record]
    · refine keeps_read fun delegation _ => keeps_arith ?_
      refine keeps_write (fun a => ?_) (keeps_pure _)
      unfold StateStore.nonce
      rw [StateStore.get_account_set_delegation]

/-- The account is read after the records are written. -/
theorem undelegate_keeps (sender validator : Address) (amount : Balance) :
    KeepsNonces (StakingExecutor.undelegate sender validator amount) s := by
  unfold StakingExecutor.undelegate
  refine keeps_read fun delegation _ => ?_
  cases delegation with
  | none => exact keeps_throw _
  | some delegation =>
    refine keeps_guard fun _ => ?_
    refine keeps_read fun record _ => ?_
    cases record with
    | none => exact keeps_throw _
    | some record =>
      refine keeps_arith (keeps_write (fun a => ?_) (keeps_arith ?_))
      · unfold StateStore.nonce
        rw [StateStore.get_account_set_validator_record]
      · split
        · refine keeps_write (fun a => ?_) ?_
          · unfold StateStore.nonce
            rw [StateStore.get_account_delete_delegation]
          · refine keeps_read fun account haccount => keeps_arith ?_
            exact keeps_write (StateStore.nonce_set_balance haccount _) (keeps_pure _)
        · refine keeps_write (fun a => ?_) ?_
          · unfold StateStore.nonce
            rw [StateStore.get_account_set_delegation]
          · refine keeps_read fun account haccount => keeps_arith ?_
            exact keeps_write (StateStore.nonce_set_balance haccount _) (keeps_pure _)

theorem staking_keeps (tx : Transaction) : KeepsNonces (StakingExecutor.run tx) s := by
  unfold StakingExecutor.run
  cases StakingExecutor.decode tx.payload with
  | error e => exact keeps_throw e
  | ok op =>
    cases op with
    | RegisterValidator consensus_pubkey commission_bps self_stake =>
      exact register_keeps s _ _ _ _
    | Delegate validator amount => exact delegate_keeps s _ _ _
    | Undelegate validator amount => exact undelegate_keeps s _ _ _

omit [Crates] in
theorem transfer_amount_only_keeps (address : Address) (amount : Balance) :
    KeepsNonces (StateStore.transfer_amount_only address amount) s := by
  unfold StateStore.transfer_amount_only
  refine keeps_bind (fun _ _ => rfl) ?_
  intro ops x m h
  obtain ⟨hx, rfl⟩ := Prod.mk.inj h
  have hget : s.get_account address = .ok x := hx
  refine keeps_arith ?_
  split
  · exact keeps_throw _
  · exact fun _ a => StateStore.nonce_set_balance hget _ a

omit [Crates] in
theorem native_transfer_keeps (tx : Transaction) :
    KeepsNonces (BlockExecutor.native_transfer tx) s := by
  unfold BlockExecutor.native_transfer
  split
  · refine keeps_read fun account haccount => ?_
    dsimp only
    split
    · exact keeps_pure _
    · refine keeps_arith (keeps_write (StateStore.nonce_set_balance haccount _) ?_)
      refine keeps_bind (keeps_or_storage (transfer_amount_only_keeps _ _ _)) ?_
      exact fun _ _ _ _ => keeps_pure _
  · exact keeps_pure _

theorem dispatch_keeps (tx : Transaction) : KeepsNonces (BlockExecutor.dispatch tx) s := by
  unfold BlockExecutor.dispatch
  cases tx.payload with
  | nil => exact native_transfer_keeps s tx
  | cons first rest =>
    dsimp only
    split
    · exact staking_keeps s tx
    · exact keeps_pure _

/-! ## One call -/

variable {s}

/-- A payload that decodes starts with the byte of the staking operations. -/
theorem payload_of_decode {payload : Bytes} {op : StakingOperation}
    (h : StakingExecutor.decode payload = .ok op) : ∃ rest, payload = 1 :: rest := by
  unfold StakingExecutor.decode at h
  by_cases hbad : payload.length < 2 ∨ payload.head? ≠ some 1
  · rw [if_pos hbad] at h
    cases h
  · obtain ⟨-, hhead⟩ := not_or.mp hbad
    exact List.head?_eq_some_iff.mp (not_not.mp hhead)

omit [LawfulBackend B] in
/-- A call that does not charge changes nothing. -/
theorem execute_of_not_charges {tx : Transaction} (h : ¬ s.Charges tx) :
    (BlockExecutor.execute s tx).2 = s := by
  show ((BlockExecutor.run tx).run ⟨s, []⟩).2.store = s
  unfold BlockExecutor.run
  rcases hverify : BlockExecutor.verify_signature tx with e | u
  · rfl
  · dsimp only
    rw [Exec.run_bind, run_read]
    rcases hnonce : s.nonce tx.sender with e | nonce
    · rfl
    · dsimp only [Except.mapError]
      by_cases heq : nonce ≠ tx.nonce
      · rw [if_pos heq]
        rfl
      · rw [if_neg heq, Exec.run_bind, run_read]
        rcases hbalance : s.balance tx.sender with e | balance
        · rfl
        · dsimp only [Except.mapError]
          by_cases hfee : balance < tx.fee
          · rw [if_pos hfee]
            rfl
          · have hcharges : s.Charges tx := by
              refine ⟨hverify, ?_, balance, hbalance, BitVec.not_lt.mp hfee⟩
              rw [hnonce, Decidable.not_not.mp heq]
            exact absurd hcharges h

omit [Crates] in
/-- The charge writes the account of the sender without the fee and with the next nonce. -/
theorem run_charge {tx : Transaction} {x : Option Account}
    (hget : s.get_account tx.sender = .ok x) (ops : List ArithOp) :
    (BlockExecutor.charge tx).run ⟨s, ops⟩ =
      (.ok (), ⟨(s.set_account tx.sender
        ⟨(x.getD default).balance - tx.fee, (x.getD default).nonce + 1⟩).2,
        ops ++ [.sub (x.getD default).balance tx.fee]⟩) := by
  unfold BlockExecutor.charge
  rw [Exec.run_bind, run_read, hget]
  show (((s.set_account tx.sender _).1.mapError _, _) : Except VmError Unit × Machine B) = _
  rw [StateStore.set_account_ok]
  rfl

omit [LawfulBackend B] in
/-- A call that passes the checks takes the fee and goes on with the payload. -/
theorem run_of_charges {tx : Transaction} (h : s.Charges tx) (ops : List ArithOp) :
    (BlockExecutor.run tx).run ⟨s, ops⟩ =
      (BlockExecutor.charge tx >>= fun _ => BlockExecutor.dispatch tx).run ⟨s, ops⟩ := by
  obtain ⟨hverify, hnonce, balance, hbalance, hfee⟩ := h
  unfold BlockExecutor.run
  rw [hverify]
  dsimp only
  rw [Exec.run_bind, run_read, hnonce]
  dsimp only [Except.mapError]
  rw [if_neg (not_not.mpr rfl), Exec.run_bind, run_read, hbalance]
  dsimp only [Except.mapError]
  rw [if_neg (BitVec.not_lt.mpr hfee)]

/-- A call that charges advances the nonce of its sender, and no other nonce. -/
theorem nonce_execute_of_charges {tx : Transaction} (h : s.Charges tx) (a : Address) :
    (BlockExecutor.execute s tx).2.nonce a =
      if tx.sender = a then .ok (tx.nonce + 1) else s.nonce a := by
  show ((BlockExecutor.run tx).run ⟨s, []⟩).2.store.nonce a = _
  have hnonce := h.2.1
  rcases hget : s.get_account tx.sender with e | x
  · unfold StateStore.nonce at hnonce
    rw [hget] at hnonce
    cases hnonce
  have hsender : (x.getD default).nonce = tx.nonce := by
    rw [StateStore.nonce_of_get_account hget] at hnonce
    exact Except.ok.inj hnonce
  rw [run_of_charges h, Exec.run_bind, run_charge hget]
  refine (dispatch_keeps _ tx _ a).trans ?_
  rw [StateStore.nonce_set_account, hsender]

omit [LawfulBackend B] in
/-- A call with another nonce says so. -/
theorem execute_of_nonce_ne {tx : Transaction} {nonce : Nonce}
    (hverify : BlockExecutor.verify_signature tx = .ok ()) (hnonce : s.nonce tx.sender = .ok nonce)
    (hne : nonce ≠ tx.nonce) :
    BlockExecutor.execute s tx = (.ok ⟨false, 0, "invalid nonce"⟩, s) := by
  unfold BlockExecutor.execute BlockExecutor.run
  rw [hverify]
  dsimp only
  rw [Exec.run_bind, run_read, hnonce]
  dsimp only [Except.mapError]
  rw [if_pos hne]
  rfl

/-! ## Whole runs -/

/-- The store after some transactions. -/
def runTransactions (s : StateStore B) : List Transaction → StateStore B
  | [] => s
  | tx :: txs => runTransactions (BlockExecutor.execute s tx).2 txs

/-- The store before the call number `i` of a run. -/
def storeAt (s : StateStore B) (txs : List Transaction) (i : Nat) : StateStore B :=
  runTransactions s (txs.take i)

/-- No charged transaction has the last nonce of the type, after which it wraps. -/
def NoncesBelowMax (s : StateStore B) (txs : List Transaction) : Prop :=
  ∀ i tx, txs[i]? = some tx → (storeAt s txs i).Charges tx → tx.nonce.toNat < 2 ^ 64 - 1

/-- What a run guarantees against replays. -/
structure ReplayProtected (s : StateStore B) (txs : List Transaction) : Prop where
  /-- A nonce does not decrease. -/
  mono : ∀ i j a n, i ≤ j → (storeAt s txs i).nonce a = .ok n →
    ∃ m, (storeAt s txs j).nonce a = .ok m ∧ n.toNat ≤ m.toNat
  /-- It grows by one at each charge of its account, and by nothing else. -/
  charged : ∀ i tx, txs[i]? = some tx → ∀ a n, (storeAt s txs i).nonce a = .ok n →
    ∃ m, (storeAt s txs (i + 1)).nonce a = .ok m ∧
      m.toNat = n.toNat + if (storeAt s txs i).Charges tx ∧ tx.sender = a then 1 else 0
  /-- Of the calls with one sender and one nonce, at most one acts. -/
  once : ∀ i j tx tx', i < j → txs[i]? = some tx → txs[j]? = some tx' → tx.sender = tx'.sender →
    tx.nonce = tx'.nonce → ¬ ((storeAt s txs i).Acts tx ∧ (storeAt s txs j).Acts tx')
  /-- A transaction that was charged is refused later, and changes nothing. -/
  refused : ∀ i j tx, i < j → txs[i]? = some tx → txs[j]? = some tx → (storeAt s txs i).Charges tx →
    ∃ r, BlockExecutor.execute (storeAt s txs j) tx = (.ok r, storeAt s txs j) ∧ r.success = false

omit [LawfulBackend B] in
theorem runTransactions_append (s : StateStore B) (txs more : List Transaction) :
    runTransactions s (txs ++ more) = runTransactions (runTransactions s txs) more := by
  induction txs generalizing s with
  | nil => rfl
  | cons tx txs ih => exact ih _

omit [LawfulBackend B] in
theorem storeAt_succ {txs : List Transaction} {i : Nat} {tx : Transaction} (h : txs[i]? = some tx) :
    storeAt s txs (i + 1) = (BlockExecutor.execute (storeAt s txs i) tx).2 := by
  unfold storeAt
  rw [List.take_add_one, h, runTransactions_append]
  rfl

omit [LawfulBackend B] in
theorem storeAt_of_none {txs : List Transaction} {i : Nat} (h : txs[i]? = none) :
    storeAt s txs (i + 1) = storeAt s txs i := by
  unfold storeAt
  rw [List.take_add_one, h, Option.toList_none, List.append_nil]

variable {txs : List Transaction}

/-- One call of a run advances the nonce of an account by one or leaves it. -/
theorem NoncesBelowMax.nonce_succ (hmax : NoncesBelowMax s txs) {i : Nat} {tx : Transaction}
    (htx : txs[i]? = some tx) {a : Address} {n : Nonce} (hn : (storeAt s txs i).nonce a = .ok n) :
    ∃ m, (storeAt s txs (i + 1)).nonce a = .ok m ∧
      m.toNat = n.toNat + if (storeAt s txs i).Charges tx ∧ tx.sender = a then 1 else 0 := by
  rw [storeAt_succ htx]
  by_cases hcharges : (storeAt s txs i).Charges tx
  · rw [nonce_execute_of_charges hcharges]
    by_cases ha : tx.sender = a
    · -- The sender: the nonce of the transaction is its own, and has a successor.
      have hlt := hmax i tx htx hcharges
      have hsender := hcharges.2.1
      rw [ha, hn] at hsender
      refine ⟨tx.nonce + 1, by rw [if_pos ha], ?_⟩
      rw [if_pos ⟨hcharges, ha⟩, Except.ok.inj hsender, UInt64.toNat_add, UInt64.toNat_one,
        Nat.mod_eq_of_lt (by omega)]
    · exact ⟨n, by rw [if_neg ha, hn], by rw [if_neg fun h => ha h.2, Nat.add_zero]⟩
  · rw [execute_of_not_charges hcharges]
    exact ⟨n, hn, by rw [if_neg fun h => hcharges h.1, Nat.add_zero]⟩

theorem NoncesBelowMax.nonce_mono (hmax : NoncesBelowMax s txs) {i j : Nat} (hij : i ≤ j)
    {a : Address} {n : Nonce} (hn : (storeAt s txs i).nonce a = .ok n) :
    ∃ m, (storeAt s txs j).nonce a = .ok m ∧ n.toNat ≤ m.toNat := by
  induction j, hij using Nat.le_induction with
  | base => exact ⟨n, hn, Nat.le_refl _⟩
  | succ j _ ih =>
    obtain ⟨m, hm, hle⟩ := ih
    rcases htx : txs[j]? with _ | tx
    · exact ⟨m, by rw [storeAt_of_none htx, hm], hle⟩
    · obtain ⟨m', hm', hstep⟩ := hmax.nonce_succ htx hm
      exact ⟨m', hm', by omega⟩

/-- After a charge the nonce of the sender is past the one that was used. -/
theorem NoncesBelowMax.nonce_after (hmax : NoncesBelowMax s txs) {i j : Nat} (hij : i < j)
    {tx : Transaction} (htx : txs[i]? = some tx) (hcharges : (storeAt s txs i).Charges tx) :
    ∃ m, (storeAt s txs j).nonce tx.sender = .ok m ∧ tx.nonce.toNat < m.toNat := by
  obtain ⟨n, hn, hstep⟩ := hmax.nonce_succ htx hcharges.2.1
  rw [if_pos ⟨hcharges, rfl⟩] at hstep
  obtain ⟨m, hm, hle⟩ := hmax.nonce_mono (Nat.succ_le_of_lt hij) hn
  exact ⟨m, hm, by omega⟩

omit [LawfulBackend B] in
/-- A call acts only if it charges. -/
theorem StateStore.Acts.charges {tx : Transaction} (h : s.Acts tx) : s.Charges tx := by
  rcases h with h | h
  · exact h
  · by_contra hnot
    exact h (execute_of_not_charges hnot)

/-- In every run from any store, with nonces that do not wrap, no transaction acts twice. -/
theorem replay_protected (s : StateStore B) (txs : List Transaction) (hmax : NoncesBelowMax s txs) :
    ReplayProtected s txs := by
  refine ⟨?_, ?_, ?_, ?_⟩
  · intro i j a n hij hn
    exact hmax.nonce_mono hij hn
  · intro i tx htx a n hn
    exact hmax.nonce_succ htx hn
  · rintro i j tx tx' hij htx htx' hsender hnonce ⟨hi, hj⟩
    obtain ⟨m, hm, hlt⟩ := hmax.nonce_after hij htx hi.charges
    have hused := hj.charges.2.1
    rw [← hsender, ← hnonce, hm] at hused
    rw [Except.ok.inj hused] at hlt
    exact Nat.lt_irrefl _ hlt
  · intro i j tx hij htx _ hcharges
    obtain ⟨m, hm, hlt⟩ := hmax.nonce_after hij htx hcharges
    have hne : m ≠ tx.nonce := fun h => Nat.ne_of_gt hlt (congrArg UInt64.toNat h)
    exact ⟨_, execute_of_nonce_ne hcharges.1 hm hne, rfl⟩

end Pemrix

namespace Pemrix.Concrete

/-- The transfer a second time. -/
theorem transfer_acts_once :
    let s : StateStore InMemoryBackend := ⟨⟨paying, ∅⟩⟩
    NoncesBelowMax s [transfer, transfer] ∧ s.Charges transfer ∧
      ReplayProtected s [transfer, transfer] := by
  intro s
  have hmax : NoncesBelowMax s [transfer, transfer] := by
    intro i tx htx _
    have hmem := List.mem_of_getElem? htx
    simp only [List.mem_cons, List.not_mem_nil, or_false, or_self] at hmem
    rw [hmem]
    decide
  exact ⟨hmax, by decide +kernel, replay_protected s [transfer, transfer] hmax⟩

end Pemrix.Concrete
