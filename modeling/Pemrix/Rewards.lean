-- The split of a block reward among validators (`pemrix-consensus/src/rewards.rs`). Each listed
-- validator gets one share, the proposer the bonus on top, and the rest of the division stays
-- unallocated, whatever the records and their commissions are.
import Pemrix.Arith
import Pemrix.TreeMapSums

open Std Noted

namespace Pemrix

/-! ## The code -/

/-- `*payouts.entry(v).or_insert(0) = payouts.get(v).unwrap_or(&0).saturating_add(share)`, which
reads the old payout before it makes the entry. -/
def credit (payouts : ExtTreeMap Address Balance) (v : Address) (share : Balance) :
    Arith (ExtTreeMap Address Balance) := do
  let payout ← Arith.saturating_add (payouts[v]?.getD 0) share
  return payouts.insert v payout

/-- The share of a validator, with the bonus for the proposer. -/
def reward_amount (proposer : Address) (proposer_bonus per_validator : Balance) (v : Address) :
    Arith Balance :=
  if v = proposer then Arith.saturating_add per_validator proposer_bonus else pure per_validator

/-- The body of the loop of `distribute_block_reward`. -/
def pay_validator (records : ExtTreeMap Address ValidatorRecord) (proposer : Address)
    (proposer_bonus per_validator : Balance) (payouts : ExtTreeMap Address Balance) (v : Address) :
    Arith (ExtTreeMap Address Balance) := do
  let amount ← reward_amount proposer proposer_bonus per_validator v
  match records[v]? with
  | some record =>
    let product ← Arith.mul amount (BitVec.ofNat 128 record.commission_bps.toNat)
    let commission ← Arith.div product 10000
    let operator_share := commission
    let delegator_share ← Arith.sub amount commission
    let payouts ← credit payouts v operator_share
    credit payouts v delegator_share
  | none => credit payouts v amount

/-- Distribute a block reward across validators. -/
def distribute_block_reward (validators : List Address)
    (records : ExtTreeMap Address ValidatorRecord) (total_reward : Balance) (proposer : Address) :
    Arith (ExtTreeMap Address Balance) :=
  if validators.isEmpty ∨ total_reward = 0 then pure ∅
  else do
    let proposer_bonus ← Arith.div total_reward 10
    let remaining ← Arith.sub total_reward proposer_bonus
    let per_validator ← Arith.div remaining (BitVec.ofNat 128 validators.length)
    validators.foldlM (pay_validator records proposer proposer_bonus per_validator) ∅

/-! ## The loop -/

/-- The commissions that `register` takes. -/
def CommissionsBounded (records : ExtTreeMap Address ValidatorRecord) : Prop :=
  ∀ (v : Address) (record : ValidatorRecord), records[v]? = some record →
    record.commission_bps ≤ 10000

/-- What a validator gets when the share is `p` and the bonus `b`. -/
def payout_of (proposer : Address) (p b : Nat) (v : Address) : Nat :=
  if v = proposer then p + b else p

/-- The payouts when the loop is through with `done`. -/
structure PaidOut (proposer : Address) (p b : Nat) (done : List Address)
    (payouts : ExtTreeMap Address Balance) : Prop where
  paid : ∀ v ∈ done, ∃ x, payouts[v]? = some x ∧ x.toNat = payout_of proposer p b v
  unpaid : ∀ v, v ∉ done → payouts[v]? = none
  total : (payouts.sumBy fun _ x => x.toNat) =
    done.length * p + if proposer ∈ done then b else 0

theorem paidOut_nil (proposer : Address) (p b : Nat) : PaidOut proposer p b [] ∅ where
  paid := by simp
  unpaid := by simp
  total := by simp

variable {records : ExtTreeMap Address ValidatorRecord} {proposer v : Address} {p b : Nat}
  {done : List Address} {payouts : ExtTreeMap Address Balance}

theorem PaidOut.snoc (h : PaidOut proposer p b done payouts) (hv : v ∉ done) {x : Balance}
    (hx : x.toNat = payout_of proposer p b v) :
    PaidOut proposer p b (done ++ [v]) (payouts.insert v x) where
  paid := by
    intro w hw
    rw [ExtTreeMap.getElem?_insert]
    split
    · rename_i heq
      rw [← LawfulEqOrd.eq_of_compare heq]
      exact ⟨x, rfl, hx⟩
    · rename_i hne
      rcases List.mem_append.mp hw with hold | hnew
      · exact h.paid w hold
      · rw [List.mem_singleton.mp hnew] at hne
        exact absurd ReflOrd.compare_self hne
  unpaid := by
    intro w hw
    rw [List.mem_append, not_or, List.mem_singleton] at hw
    rw [ExtTreeMap.getElem?_insert, if_neg fun heq => hw.2 (LawfulEqOrd.eq_of_compare heq).symm]
    exact h.unpaid w hw.1
  total := by
    have hinsert := payouts.sumBy_insert (fun _ x => x.toNat) v x
    rw [ExtTreeMap.at0_of_none (h.unpaid v hv), Nat.add_zero, h.total, hx] at hinsert
    rw [hinsert, List.length_append, List.length_singleton, Nat.add_mul, Nat.one_mul]
    unfold payout_of
    by_cases hproposer : v = proposer
    · subst hproposer
      simp [hv]
      omega
    · have hproposer' : proposer ≠ v := fun he => hproposer he.symm
      simp only [if_neg hproposer, List.mem_append, List.mem_singleton, hproposer', or_false]
      omega

/-! ## The operations -/

/-- A credit that fits is exact. -/
theorem meets_credit {old share : Balance} (hold : payouts[v]?.getD 0 = old)
    (hfits : old.toNat + share.toNat < 2 ^ 128) :
    Meets MachineOp.Exact (credit payouts v share) fun after =>
      ∃ x : Balance, after = payouts.insert v x ∧ x.toNat = old.toNat + share.toNat := by
  unfold credit
  rw [hold]
  exact (Arith.meets_saturating_add hfits).bind fun x hx => meets_pure ⟨x, rfl, hx⟩

theorem meets_reward_amount {proposer_bonus per_validator : Balance}
    (hfits : per_validator.toNat + proposer_bonus.toNat < 2 ^ 128) :
    Meets MachineOp.Exact (reward_amount proposer proposer_bonus per_validator v) fun amount =>
      amount.toNat = payout_of proposer per_validator.toNat proposer_bonus.toNat v := by
  unfold reward_amount payout_of
  by_cases hv : v = proposer
  · rw [if_pos hv, if_pos hv]
    exact Arith.meets_saturating_add hfits
  · rw [if_neg hv, if_neg hv]
    exact meets_pure rfl

/-- One pass of the loop: the shares of the operator and the delegators are the whole amount. -/
theorem meets_pay_validator {proposer_bonus per_validator : Balance}
    (hcommission : ∀ record, records[v]? = some record → record.commission_bps ≤ 10000)
    (hfits : (per_validator.toNat + proposer_bonus.toNat) * 10000 < 2 ^ 128)
    (hv : payouts[v]? = none) :
    Meets MachineOp.Exact
      (pay_validator records proposer proposer_bonus per_validator payouts v) fun after =>
        ∃ x : Balance, after = payouts.insert v x ∧
          x.toNat = payout_of proposer per_validator.toNat proposer_bonus.toNat v := by
  have hsmall :
      payout_of proposer per_validator.toNat proposer_bonus.toNat v * 10000 < 2 ^ 128 := by
    refine Nat.lt_of_le_of_lt (Nat.mul_le_mul_right _ ?_) hfits
    unfold payout_of
    split
    · exact Nat.le_refl _
    · exact Nat.le_add_right ..
  have hnew : payouts[v]?.getD 0 = 0 := by rw [hv]; rfl
  have hzero : (0 : Balance).toNat = 0 := rfl
  unfold pay_validator
  refine (meets_reward_amount (by omega)).bind ?_
  intro amount hamount
  rw [← hamount] at hsmall ⊢
  cases hrecord : records[v]? with
  | none =>
    refine (meets_credit hnew (by omega)).imp ?_
    rintro after ⟨x, hafter, hx⟩
    exact ⟨x, hafter, by omega⟩
  | some record =>
    have hbps : record.commission_bps.toNat ≤ 10000 :=
      UInt16.le_iff_toNat_le.mp (hcommission record hrecord)
    have hcast : (BitVec.ofNat 128 record.commission_bps.toNat).toNat =
        record.commission_bps.toNat := by
      rw [BitVec.toNat_ofNat, Nat.mod_eq_of_lt (by omega)]
    have hmul : amount.toNat * record.commission_bps.toNat ≤ amount.toNat * 10000 :=
      Nat.mul_le_mul_left _ hbps
    have hten : (10000 : Balance).toNat = 10000 := rfl
    refine (Arith.meets_mul (by rw [hcast]; omega)).bind ?_
    intro product hproduct
    refine (Arith.meets_div (by rw [hten]; omega)).bind ?_
    intro commission hdiv
    rw [hproduct, hcast, hten] at hdiv
    have hle : commission.toNat ≤ amount.toNat := by omega
    refine (Arith.meets_sub hle).bind ?_
    intro delegator_share hdelegators
    refine (meets_credit hnew (by omega)).bind ?_
    rintro after ⟨x, rfl, hx⟩
    have hentry : (payouts.insert v x)[v]?.getD 0 = x := by simp
    refine (meets_credit hentry (by omega)).imp ?_
    rintro after ⟨y, rfl, hy⟩
    refine ⟨y, ?_, by omega⟩
    apply ExtTreeMap.ext_getElem?
    intro w
    simp only [ExtTreeMap.getElem?_insert]
    split
    · rfl
    · rfl

/-- The whole loop. -/
theorem meets_pay_validators {validators : List Address} {proposer_bonus per_validator : Balance}
    (hnodup : validators.Nodup)
    (hcommission : CommissionsBounded records)
    (hfits : (per_validator.toNat + proposer_bonus.toNat) * 10000 < 2 ^ 128) :
    Meets MachineOp.Exact
      (validators.foldlM (pay_validator records proposer proposer_bonus per_validator) ∅)
      (PaidOut proposer per_validator.toNat proposer_bonus.toNat validators) := by
  refine meets_foldlM _ (paidOut_nil _ _ _) ?_
  intro done v later he payouts hpaid
  have hv : v ∉ done := by
    rw [he] at hnodup
    intro hin
    exact (List.nodup_append.mp hnodup).2.2 v hin v (List.mem_cons_self ..) rfl
  refine (meets_pay_validator (hcommission v) hfits (hpaid.unpaid v hv)).imp ?_
  rintro after ⟨x, rfl, hx⟩
  exact hpaid.snoc hv hx

/-! ## The whole reward -/

/-- Each listed validator gets its share and the proposer the bonus, whatever the commissions
are, and only the rest of the division and the bonus of an unlisted proposer are not paid out.
No operation overflows or saturates. -/
theorem block_reward_is_accounted_for (validators : List Address)
    (records : ExtTreeMap Address ValidatorRecord) (total_reward : Balance) (proposer : Address)
    (hnonempty : validators ≠ []) (hnodup : validators.Nodup) (hsize : validators.length < 2 ^ 64)
    (hcommission : CommissionsBounded records)
    (hreward : 1 ≤ total_reward) (hfits : total_reward.toNat * 10000 < 2 ^ 128) :
    let R := total_reward.toNat
    let b := R / 10
    let p := (R - b) / validators.length
    let code := distribute_block_reward validators records total_reward proposer
    let paid := code.value.sumBy fun _ x => x.toNat
    (∀ v ∈ validators, ∃ x, code.value[v]? = some x ∧
      x.toNat = if v = proposer then p + b else p) ∧
    (∀ v, v ∉ validators → code.value[v]? = none) ∧
    (proposer ∈ validators → paid = R - (R - b) % validators.length) ∧
    (proposer ∉ validators → paid = R - b - (R - b) % validators.length) ∧
    paid ≤ R ∧ ∀ op ∈ code.operations, op.Exact := by
  intro R b p code paid
  have hn : 0 < validators.length := List.length_pos_iff.mpr hnonempty
  have hten : (10 : Balance).toNat = 10 := rfl
  have hcast : (BitVec.ofNat 128 validators.length).toNat = validators.length := by
    rw [BitVec.toNat_ofNat, Nat.mod_eq_of_lt (by omega)]
  have hp : p ≤ R - b := Nat.div_le_self ..
  have hb : b ≤ R := Nat.div_le_self ..
  have hmeets : Meets MachineOp.Exact code (PaidOut proposer p b validators) := by
    have hcharged : ¬ (validators.isEmpty = true ∨ total_reward = 0) := by
      rw [not_or, List.isEmpty_iff]
      refine ⟨hnonempty, ?_⟩
      rintro rfl
      exact absurd hreward (by decide)
    unfold code distribute_block_reward
    rw [if_neg hcharged]
    refine (Arith.meets_div (by rw [hten]; omega)).bind ?_
    intro proposer_bonus hbonus
    rw [hten] at hbonus
    refine (Arith.meets_sub (by omega)).bind ?_
    intro remaining hremaining
    refine (Arith.meets_div (by rw [hcast]; omega)).bind ?_
    intro per_validator hshare
    rw [hcast, hremaining, hbonus] at hshare
    have hall : per_validator.toNat + proposer_bonus.toNat ≤ R := by
      rw [hshare, hbonus]
      exact Nat.add_le_of_le_sub hb hp
    have hloop : Meets MachineOp.Exact
        (validators.foldlM (pay_validator records proposer proposer_bonus per_validator) ∅)
        (PaidOut proposer per_validator.toNat proposer_bonus.toNat validators) :=
      meets_pay_validators hnodup hcommission
        (Nat.lt_of_le_of_lt (Nat.mul_le_mul_right 10000 hall) hfits)
    rwa [hshare, hbonus] at hloop
  have hpaid := hmeets.value
  have hdiv : validators.length * p + (R - b) % validators.length = R - b := Nat.div_add_mod ..
  have htotal := hpaid.total
  refine ⟨hpaid.paid, hpaid.unpaid, ?_, ?_, ?_, hmeets.operations⟩
  · intro hlisted
    rw [if_pos hlisted] at htotal
    omega
  · intro hunlisted
    rw [if_neg hunlisted] at htotal
    omega
  · have hbonus : (if proposer ∈ validators then b else 0) ≤ b := by
      split
      · exact Nat.le_refl _
      · exact Nat.zero_le _
    omega

namespace Concrete

def operator : Address := ⟨Vector.replicate 32 1⟩

def newcomer : Address := ⟨Vector.replicate 32 2⟩

/-- Only the first of the two validators has a record, with a commission of 5 %. -/
def commissioned : ExtTreeMap Address ValidatorRecord :=
  (∅ : ExtTreeMap Address ValidatorRecord).insert operator (.new operator [] 10000 500)

/-- A reward of 101 to two validators: the bonus is 10 and a dust of 1 is left. -/
theorem two_validators_share_a_reward :
    ((distribute_block_reward [operator, newcomer] commissioned 101 operator).value.sumBy
      fun _ x => x.toNat) = 100 := by
  have h := block_reward_is_accounted_for [operator, newcomer] commissioned 101 operator (by simp)
    (by decide) (by decide) ?_ (by decide) (by decide)
  · exact h.2.2.1 (by decide)
  · intro v record hrecord
    unfold commissioned at hrecord
    rw [ExtTreeMap.getElem?_insert] at hrecord
    split at hrecord
    · cases hrecord
      decide
    · simp at hrecord

end Concrete

end Pemrix
