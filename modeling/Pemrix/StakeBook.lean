-- What the staking operations do to the records of a ledger. `Consistent` says
-- that the records agree with each other, and each operation preserves it.
import Pemrix.LedgerExec

open Std

namespace Pemrix

/-! ## What a staking operation can do -/

namespace Ledger

variable (L : Ledger) (sender validator : Address) (amount : Balance)

/-- A refused operation: an error, the same ledger and no `u128` operation. -/
def Refuses (out : Outcome ExecutionResult) : Prop := ∃ e, out = (.error e, L, [])

theorem register_cases (consensus_pubkey : Bytes) (commission_bps : UInt16) (self_stake : Balance) :
    L.Refuses (L.register sender consensus_pubkey commission_bps self_stake) ∨
    (L.validators[sender]? = none ∧ self_stake ≤ (L.account sender).balance ∧
      L.register sender consensus_pubkey commission_bps self_stake =
        (.ok ⟨true, 50000, "validator registered"⟩,
          (L.setBalance sender ((L.account sender).balance - self_stake)).setValidator sender
            (.new sender consensus_pubkey self_stake commission_bps),
          [.sub (L.account sender).balance self_stake])) := by
  unfold register
  split
  · exact Or.inl ⟨_, rfl⟩
  · rename_i hgo
    split
    · exact Or.inl ⟨_, rfl⟩
    · rename_i hb
      have hnone : L.validators[sender]? = none := by
        simp only [not_or, Option.not_isSome_iff_eq_none] at hgo
        exact hgo.2.2.2
      exact Or.inr ⟨hnone, BitVec.not_lt.mp hb, rfl⟩

theorem delegate_cases :
    L.Refuses (L.delegate sender validator amount) ∨
    ∃ record, L.validators[validator]? = some record ∧ record.status = .Active ∧ 0 < amount ∧
      amount ≤ (L.account sender).balance ∧
      L.delegate sender validator amount =
        (.ok ⟨true, 30000, "delegated"⟩,
          ((L.setBalance sender ((L.account sender).balance - amount)).setValidator validator
            { record with delegated_stake := record.delegated_stake + amount }).setDelegation
            sender validator
            { L.delegation sender validator with
              amount := (L.delegation sender validator).amount + amount },
          [.sub (L.account sender).balance amount, .add record.delegated_stake amount,
            .add (L.delegation sender validator).amount amount]) := by
  unfold delegate
  split
  · exact Or.inl ⟨_, rfl⟩
  · rename_i hmin
    split
    · exact Or.inl ⟨_, rfl⟩
    · rename_i record hrecord
      split
      · exact Or.inl ⟨_, rfl⟩
      · rename_i hactive
        split
        · exact Or.inl ⟨_, rfl⟩
        · rename_i hb
          have hpos : 0 < amount := by
            simp only [StakingExecutor.MIN_DELEGATION] at hmin
            bv_omega
          exact Or.inr ⟨record, hrecord, not_not.mp hactive, hpos, BitVec.not_lt.mp hb, rfl⟩

theorem undelegate_cases :
    L.Refuses (L.undelegate sender validator amount) ∨
    ∃ delegation record, L.delegations[(sender, validator)]? = some delegation ∧
      L.validators[validator]? = some record ∧ amount ≤ delegation.amount ∧
      L.undelegate sender validator amount =
        (.ok ⟨true, 30000, "undelegated"⟩,
          ((L.setValidator validator
            { record with
              delegated_stake := U128.saturating_sub record.delegated_stake amount }).setOrDelete
            sender validator { delegation with amount := delegation.amount - amount }).setBalance
            sender ((L.account sender).balance + amount),
          [.saturating_sub record.delegated_stake amount, .sub delegation.amount amount,
            .add (L.account sender).balance amount]) := by
  unfold undelegate
  split
  · exact Or.inl ⟨_, rfl⟩
  · rename_i delegation hdelegation
    split
    · exact Or.inl ⟨_, rfl⟩
    · rename_i hb
      split
      · exact Or.inl ⟨_, rfl⟩
      · rename_i record hrecord
        exact Or.inr ⟨delegation, record, hdelegation, hrecord, BitVec.not_lt.mp hb, rfl⟩

/-- An undelegation that its delegation covers goes through. -/
theorem undelegate_of_some {L : Ledger} {delegation : Delegation} {record : ValidatorRecord}
    (hd : L.delegations[(sender, validator)]? = some delegation)
    (hr : L.validators[validator]? = some record) (hb : amount ≤ delegation.amount) :
    (L.undelegate sender validator amount).1 = .ok ⟨true, 30000, "undelegated"⟩ ∧
      ((L.undelegate sender validator amount).2.1.account sender).balance =
        (L.account sender).balance + amount := by
  unfold undelegate
  rw [hd]
  simp only [if_neg (BitVec.not_lt.mpr hb), hr]
  refine ⟨trivial, ?_⟩
  rw [account_setBalance, if_pos rfl]

/-! ## The sum of the delegations -/

/-- The sum of the delegations to a validator. -/
def delegatedTo (L : Ledger) (v : Address) : Nat :=
  L.delegations.sumBy fun k x => if k.2 = v then x.amount.toNat else 0

variable {L}

theorem delegatedTo_congr {L' : Ledger} (h : L'.delegations = L.delegations) (v : Address) :
    L'.delegatedTo v = L.delegatedTo v := by
  rw [delegatedTo, h, delegatedTo]

theorem delegation_of_some {d v : Address} {x : Delegation} (h : L.delegations[(d, v)]? = some x) :
    L.delegation d v = x := by
  rw [delegation, h]
  rfl

/-- What a delegation adds to the sum of its validator. -/
theorem at0_delegations (d v w : Address) :
    L.delegations.at0 (fun k x => if k.2 = w then x.amount.toNat else 0) (d, v) =
      if v = w then (L.delegation d v).amount.toNat else 0 := by
  unfold ExtTreeMap.at0 delegation
  cases L.delegations[(d, v)]? with
  | none =>
    have : (default : Delegation).amount = 0 := rfl
    simp [this]
  | some x => simp

theorem delegatedTo_setDelegation (d v w : Address) (x : Delegation) :
    (L.setDelegation d v x).delegatedTo w + (if v = w then (L.delegation d v).amount.toNat else 0) =
      L.delegatedTo w + if v = w then x.amount.toNat else 0 := by
  have h := ExtTreeMap.sumBy_insert (fun k x => if k.2 = w then x.amount.toNat else 0)
    L.delegations (d, v) x
  rwa [at0_delegations] at h

theorem delegatedTo_deleteDelegation (d v w : Address) :
    (L.deleteDelegation d v).delegatedTo w +
      (if v = w then (L.delegation d v).amount.toNat else 0) = L.delegatedTo w := by
  have h := ExtTreeMap.sumBy_erase (fun k x => if k.2 = w then x.amount.toNat else 0)
    L.delegations (d, v)
  rwa [at0_delegations] at h

theorem delegatedTo_setOrDelete (d v w : Address) (x : Delegation) :
    (L.setOrDelete d v x).delegatedTo w + (if v = w then (L.delegation d v).amount.toNat else 0) =
      L.delegatedTo w + if v = w then x.amount.toNat else 0 := by
  unfold setOrDelete
  split
  · rename_i hx
    simp [delegatedTo_deleteDelegation, hx]
  · exact delegatedTo_setDelegation d v w x

@[simp] theorem setOrDelete_validators (d v : Address) (x : Delegation) :
    (L.setOrDelete d v x).validators = L.validators := by
  unfold setOrDelete
  split
  · rfl
  · rfl

theorem getElem?_setOrDelete (d v d' w : Address) (x : Delegation) :
    (L.setOrDelete d v x).delegations[(d', w)]? =
      if (d, v) = (d', w) then (if x.amount = 0 then none else some x)
      else L.delegations[(d', w)]? := by
  unfold setOrDelete
  split
  · simp only [deleteDelegation, ExtTreeMap.getElem?_erase, LawfulEqCmp.compare_eq_iff_eq]
  · simp only [setDelegation, ExtTreeMap.getElem?_insert, LawfulEqCmp.compare_eq_iff_eq]

theorem amount_le_delegatedTo (d v : Address) :
    (L.delegation d v).amount.toNat ≤ L.delegatedTo v := by
  have h := ExtTreeMap.at0_le_sumBy (fun k x => if k.2 = v then x.amount.toNat else 0)
    L.delegations (d, v)
  rwa [at0_delegations, if_pos rfl] at h

/-! ## The invariant -/

/-- The records of the ledger agree with each other. -/
structure Consistent (L : Ledger) : Prop where
  address : ∀ {v : Address} {r : ValidatorRecord}, L.validators[v]? = some r → r.address = v
  total : ∀ {v : Address} {r : ValidatorRecord}, L.validators[v]? = some r →
    r.delegated_stake.toNat = L.delegatedTo v
  positive : ∀ {d v : Address} {x : Delegation}, L.delegations[(d, v)]? = some x → 0 < x.amount
  validator : ∀ {d v : Address} {x : Delegation}, L.delegations[(d, v)]? = some x →
    L.validators[v]? ≠ none

theorem consistent_of_accounts (accounts : ExtTreeMap Address Account) :
    Consistent ⟨accounts, ∅, ∅⟩ := by
  refine ⟨?_, ?_, ?_, ?_⟩
  · intro v r h
    simp at h
  · intro v r h
    simp at h
  · intro d v x h
    simp at h
  · intro d v x h
    simp at h

/-- The invariant says nothing of the accounts. -/
theorem Consistent.of_same_records {L' : Ledger} (h : Consistent L)
    (hv : L'.validators = L.validators) (hd : L'.delegations = L.delegations) : Consistent L' := by
  refine ⟨?_, ?_, ?_, ?_⟩
  · intro v r hr
    rw [hv] at hr
    exact h.address hr
  · intro v r hr
    rw [hv] at hr
    rw [delegatedTo_congr hd]
    exact h.total hr
  · intro d v x hx
    rw [hd] at hx
    exact h.positive hx
  · intro d v x hx
    rw [hd] at hx
    rw [hv]
    exact h.validator hx

theorem Consistent.amount_le {d v : Address} {r : ValidatorRecord} (h : Consistent L)
    (hr : L.validators[v]? = some r) :
    (L.delegation d v).amount.toNat ≤ r.delegated_stake.toNat := by
  rw [h.total hr]
  exact amount_le_delegatedTo d v

/-- No delegation points to an address with no record. -/
theorem Consistent.delegatedTo_of_none {v : Address} (h : Consistent L)
    (hv : L.validators[v]? = none) : L.delegatedTo v = 0 := by
  unfold delegatedTo ExtTreeMap.sumBy
  refine List.sum_eq_zero ?_
  intro n hn
  obtain ⟨⟨⟨d, w⟩, x⟩, hx, rfl⟩ := List.mem_map.mp hn
  refine if_neg ?_
  rintro rfl
  exact h.validator (ExtTreeMap.mem_toList_iff_getElem?_eq_some.mp hx) hv

/-- A validator gets a new total, and one delegation to it changes by as much. -/
theorem Consistent.update {L' : Ledger} {d v : Address} {record : ValidatorRecord} {t : Balance}
    (h : Consistent L) (hr : L.validators[v]? = some record)
    (hvals : L'.validators = L.validators.insert v { record with delegated_stake := t })
    (hrest : ∀ d' w, (d, v) ≠ (d', w) → L'.delegations[(d', w)]? = L.delegations[(d', w)]?)
    (hpos : ∀ x : Delegation, L'.delegations[(d, v)]? = some x → 0 < x.amount)
    (htotal : L'.delegatedTo v = t.toNat)
    (hothers : ∀ w, v ≠ w → L'.delegatedTo w = L.delegatedTo w) : Consistent L' := by
  refine ⟨?_, ?_, ?_, ?_⟩
  · intro w r hw
    simp only [hvals, ExtTreeMap.getElem?_insert, LawfulEqCmp.compare_eq_iff_eq] at hw
    split at hw
    · rename_i hvw
      subst hvw
      cases hw
      show record.address = v
      exact h.address hr
    · exact h.address hw
  · intro w r hw
    simp only [hvals, ExtTreeMap.getElem?_insert, LawfulEqCmp.compare_eq_iff_eq] at hw
    split at hw
    · rename_i hvw
      subst hvw
      cases hw
      exact htotal.symm
    · rename_i hvw
      rw [hothers w hvw]
      exact h.total hw
  · intro d' w x hx
    by_cases hk : (d, v) = (d', w)
    · cases hk
      exact hpos x hx
    · rw [hrest d' w hk] at hx
      exact h.positive hx
  · intro d' w x hx
    simp only [hvals, ExtTreeMap.getElem?_insert, LawfulEqCmp.compare_eq_iff_eq]
    split
    · simp
    · rename_i hvw
      rw [hrest d' w (by rintro ⟨⟩; exact hvw rfl)] at hx
      exact h.validator hx

/-! ## What each operation preserves -/

theorem register_consistent (h : Consistent L) (consensus_pubkey : Bytes) (commission_bps : UInt16)
    (self_stake : Balance) :
    Consistent (L.register sender consensus_pubkey commission_bps self_stake).2.1 := by
  rcases L.register_cases sender consensus_pubkey commission_bps self_stake with
    ⟨e, he⟩ | ⟨hnone, -, he⟩
  · rw [he]
    exact h
  · rw [he]
    refine ⟨?_, ?_, ?_, ?_⟩
    · intro v r hr
      simp only [setValidator, setBalance, setAccount, ExtTreeMap.getElem?_insert,
        LawfulEqCmp.compare_eq_iff_eq] at hr
      split at hr
      · rename_i hv
        cases hr
        exact hv
      · exact h.address hr
    · intro v r hr
      simp only [setValidator, setBalance, setAccount, ExtTreeMap.getElem?_insert,
        LawfulEqCmp.compare_eq_iff_eq] at hr
      split at hr
      · rename_i hv
        subst hv
        cases hr
        exact (h.delegatedTo_of_none hnone).symm
      · exact h.total hr
    · intro d v x hx
      exact h.positive hx
    · intro d v x hx
      have hv := h.validator hx
      simp only [setValidator, setBalance, setAccount, ExtTreeMap.getElem?_insert,
        LawfulEqCmp.compare_eq_iff_eq]
      split
      · simp
      · exact hv

/-- The addition to the delegated stake of the validator does not overflow. -/
def DelegateFits (L : Ledger) (sender validator : Address) (amount : Balance) : Prop :=
  ∀ r : ValidatorRecord, L.validators[validator]? = some r → r.status = .Active →
    amount ≤ (L.account sender).balance → r.delegated_stake.toNat + amount.toNat < 2 ^ 128

theorem delegate_consistent (h : Consistent L) (hfits : L.DelegateFits sender validator amount) :
    Consistent (L.delegate sender validator amount).2.1 := by
  rcases L.delegate_cases sender validator amount with
    ⟨e, he⟩ | ⟨record, hrecord, hactive, hpos, hb, he⟩
  · rw [he]
    exact h
  · rw [he]
    have hfit := hfits record hrecord hactive hb
    have hle := h.amount_le (d := sender) hrecord
    have hsum : ((L.delegation sender validator).amount + amount).toNat =
        (L.delegation sender validator).amount.toNat + amount.toNat := U128.toNat_add (by omega)
    have hdel := fun w => delegatedTo_setDelegation (L := L) sender validator w
      { L.delegation sender validator with
        amount := (L.delegation sender validator).amount + amount }
    refine h.update (d := sender) hrecord rfl ?_ ?_ ?_ ?_
    · intro d' w hk
      simp [setDelegation, setValidator, setBalance, setAccount, ExtTreeMap.getElem?_insert, hk]
    · intro x hx
      simp only [setDelegation, ExtTreeMap.getElem?_insert_self, Option.some.injEq] at hx
      subst hx
      have := BitVec.lt_def.mp hpos
      rw [BitVec.lt_def, hsum]
      omega
    · have hv := hdel validator
      rw [if_pos rfl, if_pos rfl, hsum, ← h.total hrecord] at hv
      rw [U128.toNat_add hfit]
      show (L.setDelegation sender validator _).delegatedTo validator = _
      omega
    · intro w hw
      have hv := hdel w
      rw [if_neg hw, if_neg hw] at hv
      exact hv

theorem undelegate_consistent (h : Consistent L) :
    Consistent (L.undelegate sender validator amount).2.1 := by
  rcases L.undelegate_cases sender validator amount with
    ⟨e, he⟩ | ⟨delegation, record, hdelegation, hrecord, hb, he⟩
  · rw [he]
    exact h
  · rw [he]
    have hle := h.amount_le (d := sender) hrecord
    rw [delegation_of_some hdelegation] at hle
    have hstake : amount ≤ record.delegated_stake := BitVec.le_def.mpr
      (Nat.le_trans (BitVec.le_def.mp hb) hle)
    rw [U128.saturating_sub_of_le hstake]
    have hdel := fun w => delegatedTo_setOrDelete
      (L := L.setValidator validator
        { record with delegated_stake := record.delegated_stake - amount })
      sender validator w { delegation with amount := delegation.amount - amount }
    have hsame : (L.setValidator validator
        { record with
          delegated_stake := record.delegated_stake - amount }).delegation sender validator =
        delegation := delegation_of_some hdelegation
    rw [hsame] at hdel
    refine h.update (d := sender) (t := record.delegated_stake - amount) hrecord ?_ ?_ ?_ ?_ ?_
    · simp [setBalance, setAccount, setValidator]
    · intro d' w hk
      show (setOrDelete _ sender validator _).delegations[(d', w)]? = _
      rw [getElem?_setOrDelete, if_neg hk]
      rfl
    · intro x hx
      change (setOrDelete _ sender validator _).delegations[(sender, validator)]? = _ at hx
      rw [getElem?_setOrDelete, if_pos rfl] at hx
      split at hx
      · cases hx
      · rename_i hne
        cases hx
        show 0 < delegation.amount - amount
        bv_omega
    · have hv := hdel validator
      have htotal : (L.setValidator validator { record with
          delegated_stake := record.delegated_stake - amount }).delegatedTo validator =
          record.delegated_stake.toNat := (h.total hrecord).symm
      rw [if_pos rfl, if_pos rfl, htotal, U128.toNat_sub hb] at hv
      rw [U128.toNat_sub hstake]
      show (setOrDelete _ sender validator _).delegatedTo validator = _
      have := BitVec.le_def.mp hb
      omega
    · intro w hw
      have hv := hdel w
      rw [if_neg hw, if_neg hw] at hv
      exact hv

theorem stake_consistent (h : Consistent L) (op : StakingOperation)
    (hfits : ∀ v amount, op = .Delegate v amount → L.DelegateFits sender v amount) :
    Consistent (L.stake sender op).2.1 := by
  cases op with
  | RegisterValidator consensus_pubkey commission_bps self_stake =>
    exact register_consistent sender h _ _ _
  | Delegate v amount => exact delegate_consistent sender v amount h (hfits v amount rfl)
  | Undelegate v amount => exact undelegate_consistent sender v amount h

/-- The outcome leaves the records and comes to no `saturating_sub`. -/
structure LeavesRecords (L : Ledger) (out : Outcome ExecutionResult) : Prop where
  validators : out.2.1.validators = L.validators
  delegations : out.2.1.delegations = L.delegations
  operations : ∀ a b, .saturating_sub a b ∉ out.2.2

theorem transfer_leaves_records (recipient : Address) :
    L.LeavesRecords (L.transfer sender recipient amount) := by
  unfold transfer
  split
  · exact ⟨rfl, rfl, by simp⟩
  · split
    · exact ⟨rfl, rfl, by simp⟩
    · dsimp only
      split
      · exact ⟨rfl, rfl, by simp⟩
      · exact ⟨rfl, rfl, by simp⟩

/-! ## What a delegator has put in -/

/-- What a finished operation of `sender` moves into the delegation of `d` to `v`. -/
def moved (result : Except VmError ExecutionResult) (sender : Address) (op : StakingOperation)
    (d v : Address) : Int :=
  match result with
  | .error _ => 0
  | .ok r =>
    match op with
    | .RegisterValidator _ _ _ => 0
    | .Delegate w amount => if r.success ∧ (sender, w) = (d, v) then amount.toNat else 0
    | .Undelegate w amount => if r.success ∧ (sender, w) = (d, v) then -amount.toNat else 0

theorem stake_moves (h : Consistent L) (op : StakingOperation)
    (hfits : ∀ v amount, op = .Delegate v amount → L.DelegateFits sender v amount) (d v : Address) :
    (((L.stake sender op).2.1.delegation d v).amount.toNat : Int) =
      (L.delegation d v).amount.toNat + moved (L.stake sender op).1 sender op d v := by
  cases op with
  | RegisterValidator consensus_pubkey commission_bps self_stake =>
    rcases L.register_cases sender consensus_pubkey commission_bps self_stake with
      ⟨e, he⟩ | ⟨-, -, he⟩
    · simp [stake, he, moved]
    · simp [stake, he, moved, setValidator, setBalance, setAccount, delegation]
  | Delegate w amount =>
    rcases L.delegate_cases sender w amount with ⟨e, he⟩ | ⟨record, hrecord, hactive, -, hb, he⟩
    · simp [stake, he, moved]
    · have hfit := hfits w amount rfl record hrecord hactive hb
      have hle := h.amount_le (d := sender) hrecord
      have hsum : ((L.delegation sender w).amount + amount).toNat =
          (L.delegation sender w).amount.toNat + amount.toNat := U128.toNat_add (by omega)
      simp only [stake, he, moved, true_and]
      by_cases hk : (sender, w) = (d, v)
      · cases hk
        rw [if_pos rfl]
        have hnew : ∀ (M : Ledger) (x : Delegation),
            (M.setDelegation sender v x).delegation sender v = x := by
          intro M x
          simp [delegation, setDelegation]
        rw [hnew, hsum]
        push_cast
        rfl
      · rw [if_neg hk]
        simp [delegation, setDelegation, setValidator, setBalance, setAccount,
          ExtTreeMap.getElem?_insert, hk]
  | Undelegate w amount =>
    rcases L.undelegate_cases sender w amount with
      ⟨e, he⟩ | ⟨x, record, hx, hrecord, hb, he⟩
    · simp [stake, he, moved]
    · simp only [stake, he, moved, true_and]
      have hread : ∀ (M : Ledger) (b : Balance), (M.setBalance sender b).delegation d v =
          M.delegations[(d, v)]?.getD default := fun _ _ => rfl
      rw [hread, getElem?_setOrDelete]
      by_cases hk : (sender, w) = (d, v)
      · cases hk
        rw [if_pos rfl, if_pos rfl, delegation_of_some hx]
        have hsub := U128.toNat_sub hb
        have hle := BitVec.le_def.mp hb
        split
        · rename_i hz
          have : (x.amount - amount).toNat = 0 := congrArg BitVec.toNat hz
          have hd : (default : Delegation).amount.toNat = 0 := rfl
          rw [Option.getD_none, hd]
          omega
        · rw [Option.getD_some, hsub]
          omega
      · rw [if_neg hk, if_neg hk]
        simp [delegation, setValidator]

/-! ## What a call can do -/

variable [Crates]

/-- A call that does not pass the checks leaves the ledger and does not succeed, and any
other one takes the fee and dispatches. -/
theorem execute_cases (tx : Transaction) :
    (¬ L.Charges tx ∧ ∃ r : Except VmError ExecutionResult,
      (∀ x, r = .ok x → x.success = false) ∧ L.execute tx = (r, L, [])) ∨
    (L.Charges tx ∧
      L.execute tx = (((L.charge tx).dispatch tx).1, ((L.charge tx).dispatch tx).2.1,
        .sub (L.account tx.sender).balance tx.fee :: ((L.charge tx).dispatch tx).2.2)) := by
  unfold execute Charges
  split
  · rename_i e he
    exact Or.inl ⟨by simp [he], _, by simp, rfl⟩
  · rename_i he
    split
    · rename_i hn
      exact Or.inl ⟨by simp [hn], _, by simp, rfl⟩
    · rename_i hn
      split
      · rename_i hb
        exact Or.inl ⟨fun h => absurd hb (BitVec.not_lt.mpr h.2.2), _, by simp, rfl⟩
      · rename_i hb
        exact Or.inr ⟨⟨he, not_not.mp hn, BitVec.not_lt.mp hb⟩, rfl⟩

/-- A payload is a staking operation, or it leaves the records. -/
theorem dispatch_cases (tx : Transaction) :
    (∃ op, StakingExecutor.decode tx.payload = .ok op ∧ L.dispatch tx = L.stake tx.sender op) ∨
    ((∃ e, StakingExecutor.decode tx.payload = .error e) ∧ L.LeavesRecords (L.dispatch tx)) := by
  unfold dispatch
  split
  · rename_i hp
    exact Or.inr ⟨⟨.InvalidContract, by simp [hp, StakingExecutor.decode]⟩,
      transfer_leaves_records _ _ _⟩
  · rename_i first rest hp
    split
    · unfold stakePayload
      cases hd : StakingExecutor.decode tx.payload with
      | error e => exact Or.inr ⟨⟨e, rfl⟩, rfl, rfl, by simp⟩
      | ok op => exact Or.inl ⟨op, rfl, rfl⟩
    · rename_i hne
      exact Or.inr ⟨⟨.InvalidContract, by simp [hp, hne, StakingExecutor.decode]⟩, rfl, rfl,
        by simp⟩

omit [Crates] in
theorem moved_of_not_success {r : Except VmError ExecutionResult} (d v : Address)
    (h : ∀ x, r = .ok x → x.success = false) (op : StakingOperation) :
    moved r sender op d v = 0 := by
  cases r with
  | error e => rfl
  | ok x =>
    have hx := h x rfl
    cases op with
    | RegisterValidator _ _ _ => rfl
    | Delegate w amount => simp [moved, hx]
    | Undelegate w amount => simp [moved, hx]

end Ledger

end Pemrix
