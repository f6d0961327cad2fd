-- What the executors do to a ledger. `Ledger.stake` and `Ledger.execute` are
-- the abstract executors, and the block executor on an in-memory store gives
-- the same result, the same `u128` operations and the store of the new ledger.
import Pemrix.Ledger

open Std

namespace Pemrix

/-- A result, the ledger after it, and the `u128` operations on the way. -/
abbrev Outcome (α : Type) := Except VmError α × Ledger × List ArithOp

/-! ## The abstract executors -/

namespace Ledger

open StakingExecutor (MIN_SELF_STAKE MIN_DELEGATION)

def register (L : Ledger) (sender : Address) (consensus_pubkey : Bytes) (commission_bps : UInt16)
    (self_stake : Balance) : Outcome ExecutionResult :=
  if consensus_pubkey = [] ∨ commission_bps > 10000 ∨ self_stake < MIN_SELF_STAKE ∨
      L.validators[sender]?.isSome then (.error .InvalidContract, L, [])
  else if (L.account sender).balance < self_stake then (.error .InsufficientBalance, L, [])
  else
    (.ok ⟨true, 50000, "validator registered"⟩,
      (L.setBalance sender ((L.account sender).balance - self_stake)).setValidator sender
        (.new sender consensus_pubkey self_stake commission_bps),
      [.sub (L.account sender).balance self_stake])

/-- The delegation of `d` to `v`, or the default one with no entry. -/
def delegation (L : Ledger) (d v : Address) : Delegation := L.delegations[(d, v)]?.getD default

def delegate (L : Ledger) (sender validator : Address) (amount : Balance) :
    Outcome ExecutionResult :=
  if amount < MIN_DELEGATION then (.error .InvalidContract, L, [])
  else
    match L.validators[validator]? with
    | none => (.error .InvalidContract, L, [])
    | some record =>
      if record.status ≠ .Active then (.error .InvalidContract, L, [])
      else if (L.account sender).balance < amount then (.error .InsufficientBalance, L, [])
      else
        (.ok ⟨true, 30000, "delegated"⟩,
          ((L.setBalance sender ((L.account sender).balance - amount)).setValidator validator
            { record with delegated_stake := record.delegated_stake + amount }).setDelegation
            sender validator
            { L.delegation sender validator with
              amount := (L.delegation sender validator).amount + amount },
          [.sub (L.account sender).balance amount, .add record.delegated_stake amount,
            .add (L.delegation sender validator).amount amount])

/-- What is left of a delegation: nothing at 0. -/
def setOrDelete (L : Ledger) (d v : Address) (x : Delegation) : Ledger :=
  if x.amount = 0 then L.deleteDelegation d v else L.setDelegation d v x

def undelegate (L : Ledger) (sender validator : Address) (amount : Balance) :
    Outcome ExecutionResult :=
  match L.delegations[(sender, validator)]? with
  | none => (.error .InvalidContract, L, [])
  | some delegation =>
    if delegation.amount < amount then (.error .InsufficientBalance, L, [])
    else
      match L.validators[validator]? with
      | none => (.error .InvalidContract, L, [])
      | some record =>
        (.ok ⟨true, 30000, "undelegated"⟩,
          ((L.setValidator validator
            { record with
              delegated_stake := U128.saturating_sub record.delegated_stake amount }).setOrDelete
            sender validator { delegation with amount := delegation.amount - amount }).setBalance
            sender ((L.account sender).balance + amount),
          [.saturating_sub record.delegated_stake amount, .sub delegation.amount amount,
            .add (L.account sender).balance amount])

def stake (L : Ledger) (sender : Address) : StakingOperation → Outcome ExecutionResult
  | .RegisterValidator consensus_pubkey commission_bps self_stake =>
    L.register sender consensus_pubkey commission_bps self_stake
  | .Delegate validator amount => L.delegate sender validator amount
  | .Undelegate validator amount => L.undelegate sender validator amount

/-- The ledger after the fee is paid and the nonce is advanced. -/
def charge (L : Ledger) (tx : Transaction) : Ledger :=
  L.setAccount tx.sender
    ⟨(L.account tx.sender).balance - tx.fee, (L.account tx.sender).nonce + 1⟩

theorem account_charge (L : Ledger) (tx : Transaction) :
    (L.charge tx).account tx.sender =
      ⟨(L.account tx.sender).balance - tx.fee, (L.account tx.sender).nonce + 1⟩ := by
  unfold charge
  rw [account_setAccount, if_pos rfl]

def transfer (L : Ledger) (sender recipient : Address) (amount : Balance) :
    Outcome ExecutionResult :=
  if amount = 0 then (.ok ⟨true, 21000, "ok"⟩, L, [])
  else if (L.account sender).balance < amount then
    (.ok ⟨false, 0, "insufficient balance for transfer"⟩, L, [])
  else
    let L1 := L.setBalance sender ((L.account sender).balance - amount)
    let ops := [.sub (L.account sender).balance amount,
      .checked_add (L1.account recipient).balance amount]
    match U128.checked_add (L1.account recipient).balance amount with
    | none => (.error .Storage, L1, ops)
    | some balance => (.ok ⟨true, 21000, "ok"⟩, L1.setBalance recipient balance, ops)

variable [Crates]

/-- A staking transaction, as `StakingExecutor::execute` runs it. -/
def stakePayload (L : Ledger) (tx : Transaction) : Outcome ExecutionResult :=
  match StakingExecutor.decode tx.payload with
  | .error e => (.error e, L, [])
  | .ok op => L.stake tx.sender op

def dispatch (L : Ledger) (tx : Transaction) : Outcome ExecutionResult :=
  match tx.payload with
  | [] => L.transfer tx.sender tx.recipient tx.amount
  | first :: _ =>
    if first = 1 then L.stakePayload tx else (.ok ⟨false, 0, "invalid contract"⟩, L, [])

/-- The transaction passes the checks before the fee is taken. -/
def Charges (L : Ledger) (tx : Transaction) : Prop :=
  BlockExecutor.verify_signature tx = .ok () ∧ (L.account tx.sender).nonce = tx.nonce ∧
    tx.fee ≤ (L.account tx.sender).balance

def execute (L : Ledger) (tx : Transaction) : Outcome ExecutionResult :=
  match BlockExecutor.verify_signature tx with
  | .error e => (.error e, L, [])
  | .ok () =>
    if (L.account tx.sender).nonce ≠ tx.nonce then (.ok ⟨false, 0, "invalid nonce"⟩, L, [])
    else if (L.account tx.sender).balance < tx.fee then
      (.ok ⟨false, 0, "insufficient balance for fee"⟩, L, [])
    else
      let (r, L', ops) := (L.charge tx).dispatch tx
      (r, L', .sub (L.account tx.sender).balance tx.fee :: ops)

end Ledger

/-! ## Code that refines an outcome -/

/-- A bind runs the rest on the machine that the first part leaves, or stops at its error. -/
theorem Exec.run_bind {B ε α β : Type} (x : Exec B ε α) (f : α → Exec B ε β) (m : Machine B) :
    (x >>= f).run m = match x.run m with
      | (.ok a, m') => (f a).run m'
      | (.error e, m') => (.error e, m') := by
  show (ExceptT.run x >>= ExceptT.bindCont f) m = _
  simp only [bind, StateT.bind]
  rcases h : x.run m with ⟨_ | a, m'⟩
  · rfl
  · rfl

theorem Exec.run_read_bind {B α β : Type} {f : StateStore B → Except StorageError α} {a : α}
    {m : Machine B} (h : f m.store = .ok a) (k : α → Exec B StorageError β) :
    (Exec.read f >>= k).run m = (k a).run m := by
  have hrun : (Exec.read f).run m = (.ok a, m) := congrArg (·, m) h
  rw [Exec.run_bind, hrun]

theorem Exec.run_write_bind {B β : Type} {s' : StateStore B} {m : Machine B}
    {f : StateStore B → Except StorageError Unit × StateStore B} (h : f m.store = (.ok (), s'))
    (k : Unit → Exec B StorageError β) : (Exec.write f >>= k).run m = (k ()).run ⟨s', m.ops⟩ := by
  have hrun : (Exec.write f).run m = (.ok (), ⟨s', m.ops⟩) := by
    show ((f m.store).1, (⟨(f m.store).2, m.ops⟩ : Machine B)) = _
    rw [h]
  rw [Exec.run_bind, hrun]

/-- An operation on `u128` notes itself and goes on with its value. -/
theorem Exec.run_arith_bind {B ε α β : Type} (op : ArithOp) (v : α) (k : α → Exec B ε β)
    (m : Machine B) :
    ((do Exec.note op; return v) >>= k).run m = (k v).run { m with ops := m.ops ++ [op] } := rfl

section Refines

variable [Crates] {ε α β : Type}

/-- From a store of `L`, the code ends with the result, the store of the ledger and the
operations of `out`. -/
def Refines (x : Exec InMemoryBackend ε α) (L : Ledger)
    (out : Except ε α × Ledger × List ArithOp) : Prop :=
  ∀ m, Represents m.store L →
    ∃ s', x.run m = (out.1, ⟨s', m.ops ++ out.2.2⟩) ∧ Represents s' out.2.1

variable {L L1 : Ledger} {ops : List ArithOp}

theorem refines_pure (a : α) : Refines (pure a : Exec InMemoryBackend ε α) L (.ok a, L, []) := by
  intro m hm
  refine ⟨m.store, ?_, hm⟩
  simp only [List.append_nil]
  rfl

theorem refines_throw (e : ε) :
    Refines (throw e : Exec InMemoryBackend ε α) L (.error e, L, []) := by
  intro m hm
  refine ⟨m.store, ?_, hm⟩
  simp only [List.append_nil]
  rfl

theorem refines_bind {x : Exec InMemoryBackend ε α} {f : α → Exec InMemoryBackend ε β} {a : α}
    {out : Except ε β × Ledger × List ArithOp} (hx : Refines x L (.ok a, L1, ops))
    (hf : Refines (f a) L1 out) : Refines (x >>= f) L (out.1, out.2.1, ops ++ out.2.2) := by
  intro m hm
  obtain ⟨s1, h1, hr1⟩ := hx m hm
  obtain ⟨s2, h2, hr2⟩ := hf ⟨s1, m.ops ++ ops⟩ hr1
  refine ⟨s2, ?_, hr2⟩
  rw [Exec.run_bind, h1, ← List.append_assoc]
  exact h2

/-- A first part with no operation leaves the outcome of the rest. -/
theorem refines_bind_nil {x : Exec InMemoryBackend ε α} {f : α → Exec InMemoryBackend ε β} {a : α}
    {out : Except ε β × Ledger × List ArithOp} (hx : Refines x L (.ok a, L1, []))
    (hf : Refines (f a) L1 out) : Refines (x >>= f) L out := refines_bind hx hf

theorem refines_bind_error {x : Exec InMemoryBackend ε α} {f : α → Exec InMemoryBackend ε β}
    {e : ε} (hx : Refines x L (.error e, L1, ops)) : Refines (x >>= f) L (.error e, L1, ops) := by
  intro m hm
  obtain ⟨s1, h1, hr1⟩ := hx m hm
  exact ⟨s1, by rw [Exec.run_bind, h1], hr1⟩

/-- A check that throws: either it throws, or the rest runs. -/
theorem refines_guard {c : Prop} [Decidable c] {e : ε} {k : Unit → Exec InMemoryBackend ε α}
    {out : Except ε α × Ledger × List ArithOp} (he : c → out = (.error e, L, []))
    (hk : ¬ c → Refines (k ()) L out) :
    Refines (if c then (throw e >>= k) else k ()) L out := by
  by_cases h : c
  · rw [if_pos h, he h]
    exact refines_bind_error (refines_throw e)
  · rw [if_neg h]
    exact hk h

theorem refines_or_storage {x : Exec InMemoryBackend StorageError α}
    {out : Except StorageError α × Ledger × List ArithOp} (hx : Refines x L out) :
    Refines (Exec.or_storage x) L (out.1.mapError (fun _ => .Storage), out.2) := by
  intro m hm
  obtain ⟨s', h, hr⟩ := hx m hm
  refine ⟨s', ?_, hr⟩
  show (((x.run m).1.mapError _, (x.run m).2) : Except VmError α × Machine InMemoryBackend) = _
  rw [h]

/-- A read that cannot fail gives its value. -/
theorem refines_of_read {f : StateStore InMemoryBackend → Except StorageError α} {a : α}
    (hf : ∀ s, Represents s L → f s = .ok a) : Refines (Exec.read f) L (.ok a, L, []) := by
  intro m hm
  refine ⟨m.store, ?_, hm⟩
  show (f m.store, m) = _
  rw [hf m.store hm]
  simp only [List.append_nil]

/-- A write that cannot fail leaves the store of the new ledger. -/
theorem refines_of_write
    {f : StateStore InMemoryBackend → Except StorageError Unit × StateStore InMemoryBackend}
    (hf : ∀ s, Represents s L → ∃ s', f s = (.ok (), s') ∧ Represents s' L1) :
    Refines (Exec.write f) L (.ok (), L1, []) := by
  intro m hm
  obtain ⟨s', h1, h2⟩ := hf m.store hm
  refine ⟨s', ?_, h2⟩
  show ((f m.store).1, { m with store := (f m.store).2 }) = _
  rw [h1]
  simp only [List.append_nil]

theorem refines_read {f : StateStore InMemoryBackend → Except StorageError α} {a : α}
    {k : α → Exec InMemoryBackend VmError β} {out : Outcome β}
    (hf : ∀ s, Represents s L → f s = .ok a) (hk : Refines (k a) L out) :
    Refines (Exec.or_storage (Exec.read f) >>= k) L out :=
  refines_bind_nil (refines_or_storage (refines_of_read hf)) hk

theorem refines_write
    {f : StateStore InMemoryBackend → Except StorageError Unit × StateStore InMemoryBackend}
    {k : Unit → Exec InMemoryBackend VmError β} {out : Outcome β}
    (hf : ∀ s, Represents s L → ∃ s', f s = (.ok (), s') ∧ Represents s' L1)
    (hk : Refines (k ()) L1 out) : Refines (Exec.or_storage (Exec.write f) >>= k) L out :=
  refines_bind_nil (refines_or_storage (refines_of_write hf)) hk

variable {r : Except ε β}

/-- An operation on `u128` notes itself and goes on with its value. -/
theorem refines_arith {op : ArithOp} {v : α} {k : α → Exec InMemoryBackend ε β}
    (hk : Refines (k v) L (r, L1, ops)) :
    Refines ((do Exec.note op; return v) >>= k) L (r, L1, op :: ops) := by
  have hn : Refines (do Exec.note op; return v : Exec InMemoryBackend ε α) L (.ok v, L, [op]) :=
    fun m hm => ⟨m.store, rfl, hm⟩
  exact refines_bind hn hk

variable {a b : U128} {k : U128 → Exec InMemoryBackend ε β}

theorem refines_sub (hk : Refines (k (a - b)) L (r, L1, ops)) :
    Refines (Exec.sub a b >>= k) L (r, L1, .sub a b :: ops) := refines_arith hk

theorem refines_add (hk : Refines (k (a + b)) L (r, L1, ops)) :
    Refines (Exec.add a b >>= k) L (r, L1, .add a b :: ops) := refines_arith hk

theorem refines_saturating_sub (hk : Refines (k (U128.saturating_sub a b)) L (r, L1, ops)) :
    Refines (Exec.saturating_sub a b >>= k) L (r, L1, .saturating_sub a b :: ops) :=
  refines_arith hk

theorem refines_checked_add {k : Option U128 → Exec InMemoryBackend ε β}
    (hk : Refines (k (U128.checked_add a b)) L (r, L1, ops)) :
    Refines (Exec.checked_add a b >>= k) L (r, L1, .checked_add a b :: ops) := refines_arith hk

end Refines

/-! ## The executors refine the abstract ones -/

variable [Crates] [LawfulRecords] (L : Ledger)

theorem register_refines (sender : Address) (consensus_pubkey : Bytes) (commission_bps : UInt16)
    (self_stake : Balance) :
    Refines (StakingExecutor.register sender consensus_pubkey commission_bps self_stake) L
      (L.register sender consensus_pubkey commission_bps self_stake) := by
  unfold StakingExecutor.register
  refine refines_guard (fun h => by simp_all [Ledger.register]) fun h1 => ?_
  refine refines_guard (fun h => by simp_all [Ledger.register]) fun h2 => ?_
  refine refines_guard (fun h => by simp_all [Ledger.register]) fun h3 => ?_
  refine refines_read (fun _ hs => hs.validator_record sender) ?_
  refine refines_guard (fun h => by simp_all [Ledger.register]) fun h4 => ?_
  refine refines_read (fun _ hs => hs.balance sender) ?_
  have hgo : ¬ (consensus_pubkey = [] ∨ commission_bps > 10000 ∨
      self_stake < StakingExecutor.MIN_SELF_STAKE ∨ L.validators[sender]?.isSome) := by
    simp_all
  refine refines_guard (fun h => by rw [Ledger.register, if_neg hgo, if_pos h]) fun h5 => ?_
  refine refines_read (fun _ hs => hs.get_account sender) ?_
  rw [Ledger.register, if_neg hgo, if_neg h5]
  refine refines_sub ?_
  refine refines_write (fun _ hs => hs.set_account _ _) ?_
  refine refines_write (fun _ hs => hs.set_validator_record _ _) ?_
  exact refines_pure _

theorem delegate_refines (sender validator : Address) (amount : Balance) :
    Refines (StakingExecutor.delegate sender validator amount) L
      (L.delegate sender validator amount) := by
  unfold StakingExecutor.delegate
  refine refines_guard (fun h => by simp [Ledger.delegate, h]) fun h1 => ?_
  refine refines_read (fun _ hs => hs.validator_record validator) ?_
  rw [Ledger.delegate, if_neg h1]
  rcases L.validators[validator]? with _ | record
  · exact refines_throw _
  · refine refines_guard (fun h => by simp [h]) fun h2 => ?_
    refine refines_read (fun _ hs => hs.balance sender) ?_
    refine refines_guard (fun h => by simp_all) fun h3 => ?_
    refine refines_read (fun _ hs => hs.get_account sender) ?_
    simp only [if_neg h2, if_neg h3]
    refine refines_sub ?_
    refine refines_write (fun _ hs => hs.set_account _ _) ?_
    refine refines_add ?_
    refine refines_write (fun _ hs => hs.set_validator_record _ _) ?_
    refine refines_read (fun _ hs => hs.delegation sender validator) ?_
    refine refines_add ?_
    refine refines_write (fun _ hs => hs.set_delegation _ _ _) ?_
    exact refines_pure _

theorem undelegate_refines (sender validator : Address) (amount : Balance) :
    Refines (StakingExecutor.undelegate sender validator amount) L
      (L.undelegate sender validator amount) := by
  unfold StakingExecutor.undelegate
  refine refines_read (fun _ hs => hs.delegation sender validator) ?_
  unfold Ledger.undelegate
  rcases L.delegations[(sender, validator)]? with _ | delegation
  · exact refines_throw _
  · refine refines_guard (fun h => by simp_all) fun h1 => ?_
    refine refines_read (fun _ hs => hs.validator_record validator) ?_
    simp only [if_neg h1]
    rcases L.validators[validator]? with _ | record
    · exact refines_throw _
    · refine refines_saturating_sub ?_
      refine refines_write (fun _ hs => hs.set_validator_record _ _) ?_
      refine refines_sub ?_
      unfold Ledger.setOrDelete
      by_cases h2 : delegation.amount - amount = 0
      · simp only [if_pos h2]
        refine refines_write (fun _ hs => hs.delete_delegation _ _) ?_
        refine refines_read (fun _ hs => hs.get_account sender) ?_
        refine refines_add ?_
        refine refines_write (fun _ hs => hs.set_account _ _) ?_
        exact refines_pure _
      · simp only [if_neg h2]
        refine refines_write (fun _ hs => hs.set_delegation _ _ _) ?_
        refine refines_read (fun _ hs => hs.get_account sender) ?_
        refine refines_add ?_
        refine refines_write (fun _ hs => hs.set_account _ _) ?_
        exact refines_pure _

theorem staking_refines (tx : Transaction) :
    Refines (StakingExecutor.run tx) L (L.stakePayload tx) := by
  unfold StakingExecutor.run Ledger.stakePayload
  rcases StakingExecutor.decode tx.payload with e | op
  · exact refines_throw e
  · cases op with
    | RegisterValidator consensus_pubkey commission_bps self_stake =>
      exact register_refines L _ _ _ _
    | Delegate validator amount => exact delegate_refines L _ _ _
    | Undelegate validator amount => exact undelegate_refines L _ _ _

omit [LawfulRecords] in
theorem transfer_amount_only_refines (address : Address) (amount : Balance) :
    Refines (StateStore.transfer_amount_only address amount) L
      (match U128.checked_add (L.account address).balance amount with
        | none => (.error (.Backend "balance overflow"), L,
            [.checked_add (L.account address).balance amount])
        | some balance => (.ok (), L.setBalance address balance,
            [.checked_add (L.account address).balance amount])) := by
  unfold StateStore.transfer_amount_only
  have hget := refines_of_read (L := L) (fun _ hs => hs.get_account address)
  rcases hc : U128.checked_add (L.account address).balance amount with _ | balance
  · refine refines_bind_nil hget (refines_checked_add ?_)
    rw [show U128.checked_add (L.accounts[address]?.getD default).balance amount = none from hc]
    exact refines_throw _
  · refine refines_bind_nil hget (refines_checked_add ?_)
    rw [show U128.checked_add (L.accounts[address]?.getD default).balance amount = some balance
      from hc]
    exact refines_of_write fun _ hs => hs.set_account _ _

omit [LawfulRecords] in
theorem transfer_refines (tx : Transaction) :
    Refines (BlockExecutor.native_transfer tx) L (L.transfer tx.sender tx.recipient tx.amount) := by
  unfold BlockExecutor.native_transfer Ledger.transfer
  by_cases h0 : tx.amount = 0
  · have hn : ¬ tx.amount > 0 := by rw [h0]; decide
    rw [if_neg hn, if_pos h0]
    exact refines_pure _
  · have hp : tx.amount > 0 := by bv_omega
    rw [if_pos hp, if_neg h0]
    refine refines_read (fun _ hs => hs.get_account tx.sender) ?_
    show Refines (if (L.account tx.sender).balance < tx.amount then _ else _) L _
    by_cases h1 : (L.account tx.sender).balance < tx.amount
    · rw [if_pos h1, if_pos h1]
      exact refines_pure _
    · rw [if_neg h1, if_neg h1]
      have hamount := transfer_amount_only_refines
        (L.setBalance tx.sender ((L.account tx.sender).balance - tx.amount)) tx.recipient tx.amount
      simp only
      rcases hc : U128.checked_add ((L.setBalance tx.sender
        ((L.account tx.sender).balance - tx.amount)).account tx.recipient).balance tx.amount
        with _ | balance
      · rw [hc] at hamount
        refine refines_sub (refines_write (fun _ hs => hs.set_account _ _) ?_)
        exact refines_bind_error (refines_or_storage hamount)
      · rw [hc] at hamount
        refine refines_sub (refines_write (fun _ hs => hs.set_account _ _) ?_)
        exact refines_bind (f := fun _ => pure (⟨true, 21000, "ok"⟩ : ExecutionResult))
          (refines_or_storage hamount) (refines_pure _)

omit [LawfulRecords] in
theorem charge_refines (tx : Transaction) :
    Refines (BlockExecutor.charge tx) L
      (.ok (), L.charge tx, [.sub (L.account tx.sender).balance tx.fee]) := by
  unfold BlockExecutor.charge
  refine refines_read (fun _ hs => hs.get_account tx.sender) (refines_sub ?_)
  exact refines_or_storage (refines_of_write fun _ hs => hs.set_account _ _)

theorem dispatch_refines (tx : Transaction) :
    Refines (BlockExecutor.dispatch tx) L (L.dispatch tx) := by
  unfold BlockExecutor.dispatch Ledger.dispatch
  cases tx.payload with
  | nil => exact transfer_refines L tx
  | cons first rest =>
    dsimp only
    split
    · exact staking_refines L tx
    · exact refines_pure _

/-- The block executor on a store of `L` does what `Ledger.execute` says. -/
theorem execute_refines (tx : Transaction) : Refines (BlockExecutor.run tx) L (L.execute tx) := by
  unfold BlockExecutor.run Ledger.execute
  rcases BlockExecutor.verify_signature tx with e | u
  · exact refines_bind_error (refines_throw e)
  · refine refines_read (fun _ hs => hs.nonce tx.sender) ?_
    by_cases h1 : (L.account tx.sender).nonce ≠ tx.nonce
    · simp only [if_pos h1]
      exact refines_pure _
    · simp only [if_neg h1]
      refine refines_read (fun _ hs => hs.balance tx.sender) ?_
      by_cases h2 : (L.account tx.sender).balance < tx.fee
      · simp only [if_pos h2]
        exact refines_pure _
      · simp only [if_neg h2]
        exact refines_bind (charge_refines L tx) (dispatch_refines (L.charge tx) tx)

/-- One call of the block executor on a store of `L`. -/
theorem execute_of_represents {s : StateStore InMemoryBackend} {L : Ledger}
    (h : Represents s L) (tx : Transaction) :
    (BlockExecutor.execute s tx).1 = (L.execute tx).1 ∧
      Represents (BlockExecutor.execute s tx).2 (L.execute tx).2.1 ∧
      BlockExecutor.operations s tx = (L.execute tx).2.2 := by
  obtain ⟨s', hrun, hs'⟩ := execute_refines L tx ⟨s, []⟩ h
  simp only [BlockExecutor.execute, BlockExecutor.operations, hrun, List.nil_append]
  exact ⟨trivial, hs', trivial⟩

/-- One call of the staking executor on a store of `L`. -/
theorem stake_of_represents {s : StateStore InMemoryBackend} {L : Ledger}
    (h : Represents s L) (tx : Transaction) :
    (StakingExecutor.execute s tx).1 = (L.stakePayload tx).1 ∧
      Represents (StakingExecutor.execute s tx).2 (L.stakePayload tx).2.1 ∧
      StakingExecutor.operations s tx = (L.stakePayload tx).2.2 := by
  obtain ⟨s', hrun, hs'⟩ := staking_refines L tx ⟨s, []⟩ h
  simp only [StakingExecutor.execute, StakingExecutor.operations, hrun, List.nil_append]
  exact ⟨trivial, hs', trivial⟩

end Pemrix
