-- Slashes between staking operations: the supply of a store goes down by what
-- `apply_slash` returns and by nothing else, as long as no undelegation takes
-- more than the slashes have left in the record of its validator.
import Pemrix.Slashing
import Pemrix.Supply
import Pemrix.Tokenomics

open Std

namespace Pemrix

/-- No share of the policy is more than the whole stake. -/
structure SlashingPolicy.Bounded (policy : SlashingPolicy) : Prop where
  double_sign : policy.double_sign_bps ≤ 10000
  downtime : policy.downtime_bps ≤ 10000
  equivocation : policy.equivocation_bps ≤ 10000

theorem SlashingPolicy.Bounded.penalty {policy : SlashingPolicy} (h : policy.Bounded)
    (misbehavior : Misbehavior) : (policy.penalty misbehavior).1 ≤ 10000 := by
  cases misbehavior with
  | DoubleSign height round => exact h.double_sign
  | Downtime missed window => exact h.downtime
  | Equivocation height round => exact h.equivocation

/-! ## A ledger -/

namespace Ledger

variable {L : Ledger}

/-- A slash of the record of `v`, if it has one. -/
def slash (L : Ledger) (v : Address) (misbehavior : Misbehavior) (policy : SlashingPolicy)
    (height : UInt64) : Balance × Ledger :=
  match L.validators[v]? with
  | none => (0, L)
  | some record =>
    let (amount, record) := apply_slash record misbehavior height policy
    (amount, L.setValidator v record)

/-- A slash takes what it returns from the supply. -/
theorem slash_supply (h : L.supply * 10000 < 2 ^ 128) {policy : SlashingPolicy}
    (hpolicy : policy.Bounded) (v : Address) (misbehavior : Misbehavior) (height : UInt64) :
    (L.slash v misbehavior policy height).2.supply +
      (L.slash v misbehavior policy height).1.toNat = L.supply := by
  unfold slash
  cases hrecord : L.validators[v]? with
  | none => rfl
  | some record =>
    have hle : record.self_stake.toNat + record.delegated_stake.toNat ≤ L.supply :=
      Nat.le_trans (stake_le_stakes hrecord) (Nat.le_add_left _ _)
    have hslash := apply_slash_stake record misbehavior height policy (hpolicy.penalty misbehavior)
      (Nat.lt_of_le_of_lt (Nat.mul_le_mul_right 10000 hle) h)
    have hstakes := stakes_setValidator hrecord (apply_slash record misbehavior height policy).2
    dsimp only
    unfold supply
    rw [balances_setValidator]
    omega

/-- The record of the validator covers the undelegation. -/
def Covers (L : Ledger) (sender : Address) (op : StakingOperation) : Prop :=
  ∀ v amount x record, op = .Undelegate v amount → L.delegations[(sender, v)]? = some x →
    amount ≤ x.amount → L.validators[v]? = some record → amount ≤ record.delegated_stake

/-- A staking operation keeps the supply exactly when it is covered. -/
theorem stake_supply_iff (h : L.supply < 2 ^ 128) (sender : Address) (op : StakingOperation) :
    (L.stake sender op).2.1.supply = L.supply ↔ L.Covers sender op := by
  cases op with
  | RegisterValidator consensus_pubkey commission_bps self_stake =>
    refine iff_of_true (register_conserves sender _ _ _).supply ?_
    intro v amount x record hop
    cases hop
  | Delegate validator amount =>
    refine iff_of_true (delegate_supply sender validator amount h) ?_
    intro v amount x record hop
    cases hop
  | Undelegate validator amount =>
    rcases L.undelegate_cases sender validator amount with
      ⟨e, he⟩ | ⟨x, record, hx, hrecord, hb, -⟩
    · refine iff_of_true (by rw [stake, he]) ?_
      intro v amount x record hop hx hb hrecord
      cases hop
      have hok := (undelegate_of_some sender validator amount hx hrecord hb).1
      rw [he] at hok
      cases hok
    · refine (undelegate_supply_iff sender validator amount h hx hrecord hb).trans ?_
      constructor
      · intro hle v amount x' record' hop hx' _ hrecord'
        cases hop
        cases hrecord.symm.trans hrecord'
        exact hle
      · intro hcovers
        exact hcovers validator amount x record rfl hx hb hrecord

end Ledger

/-! ## Steps of a store -/

/-- A transaction for the staking executor, or a slash of a stored record. -/
inductive StakeStep where
  | stake (tx : Transaction)
  | slash (validator : Address) (misbehavior : Misbehavior) (policy : SlashingPolicy)
      (height : UInt64)
  deriving DecidableEq

namespace StakeStep

variable [Crates]

/-- The amount that the step slashes, and the store after it. -/
def execute (s : StateStore InMemoryBackend) : StakeStep → Balance × StateStore InMemoryBackend
  | .stake tx => (0, (StakingExecutor.execute s tx).2)
  | .slash validator misbehavior policy height =>
    match s.validator_record validator with
    | .ok (some record) =>
      let (amount, record) := apply_slash record misbehavior height policy
      (amount, (s.set_validator_record validator record).2)
    | _ => (0, s)

/-- An undelegation that its delegation covers is covered by the record of the validator as
well. -/
def Covered (s : StateStore InMemoryBackend) : StakeStep → Prop
  | .stake tx => ∀ v amount x record,
    StakingExecutor.decode tx.payload = .ok (.Undelegate v amount) →
    s.delegation tx.sender v = .ok (some x) → amount ≤ x.amount →
    s.validator_record v = .ok (some record) → amount ≤ record.delegated_stake
  | .slash _ _ _ _ => True

/-- The slash is under a policy whose shares are at most the whole stake. -/
def Bounded : StakeStep → Prop
  | .stake _ => True
  | .slash _ _ policy _ => policy.Bounded

variable [LawfulRecords] {s : StateStore InMemoryBackend} {L : Ledger}

/-- What one step does to the supply. -/
theorem execute_supply_iff (h : Represents s L) (hfits : L.supply * 10000 < 2 ^ 128)
    {step : StakeStep} (hbounded : step.Bounded) :
    (∃ L', Represents (step.execute s).2 L') ∧
      ((step.execute s).2.supply + (step.execute s).1.toNat = s.supply ↔ step.Covered s) := by
  cases step with
  | stake tx =>
    obtain ⟨-, hrep, -⟩ := stake_of_represents h tx
    refine ⟨⟨_, hrep⟩, ?_⟩
    simp only [execute, Covered]
    rw [supply_of_represents hrep, supply_of_represents h]
    simp only [h.delegation, h.validator_record, Except.ok.injEq]
    have hzero : (0 : Balance).toNat = 0 := rfl
    rw [hzero, Nat.add_zero, Ledger.stakePayload]
    cases hop : StakingExecutor.decode tx.payload with
    | error e =>
      refine iff_of_true rfl ?_
      intro v amount x record he
      cases he
    | ok op =>
      refine (Ledger.stake_supply_iff (by omega) tx.sender op).trans ?_
      simp only [Except.ok.injEq]
      exact Iff.rfl
  | slash v misbehavior policy height =>
    have hslash := Ledger.slash_supply hfits hbounded v misbehavior height
    unfold Ledger.slash at hslash
    simp only [execute, h.validator_record, Covered, iff_true]
    cases hrecord : L.validators[v]? with
    | none => exact ⟨⟨L, h⟩, rfl⟩
    | some record =>
      rw [hrecord] at hslash
      obtain ⟨s', hset, hrep⟩ := h.set_validator_record v
        (apply_slash record misbehavior height policy).2
      simp only [hset]
      refine ⟨⟨_, hrep⟩, ?_⟩
      rw [supply_of_represents hrep, supply_of_represents h]
      exact hslash

end StakeStep

/-! ## Runs -/

section Runs

variable [Crates]

/-- Every undelegation of the run is covered. -/
def CoveredRun (s : StateStore InMemoryBackend) : List StakeStep → Prop
  | [] => True
  | step :: steps => step.Covered s ∧ CoveredRun (step.execute s).2 steps

/-- Every step of the run lowers the supply by what it slashes, and by nothing else. -/
def ShrinksBySlashes (s : StateStore InMemoryBackend) : List StakeStep → Prop
  | [] => True
  | step :: steps =>
    (step.execute s).2.supply + (step.execute s).1.toNat = s.supply ∧
      ShrinksBySlashes (step.execute s).2 steps

instance decidableShrinksBySlashes (s : StateStore InMemoryBackend) :
    (steps : List StakeStep) → Decidable (ShrinksBySlashes s steps)
  | [] => isTrue trivial
  | step :: steps =>
    @instDecidableAnd _ _ (inferInstance : Decidable (_ = _))
      (decidableShrinksBySlashes (step.execute s).2 steps)

variable [LawfulRecords]

theorem shrinksBySlashes_iff {s : StateStore InMemoryBackend} {L : Ledger} (steps : List StakeStep)
    (h : Represents s L) (hfits : L.supply * 10000 < 2 ^ 128)
    (hbounded : ∀ step ∈ steps, step.Bounded) :
    ShrinksBySlashes s steps ↔ CoveredRun s steps := by
  -- On the run. The supply after a step fits since it is at most the supply before it.
  induction steps generalizing s L with
  | nil => exact Iff.rfl
  | cons step steps ih =>
    obtain ⟨⟨L', hrep⟩, hstep⟩ := StakeStep.execute_supply_iff h hfits
      (hbounded step (by simp))
    unfold ShrinksBySlashes CoveredRun
    rw [← hstep]
    refine and_congr_right ?_
    intro hsupply
    refine ih hrep ?_ (fun step hin => hbounded step (by simp [hin]))
    rw [supply_of_represents hrep, supply_of_represents h] at hsupply
    have hle : L'.supply ≤ L.supply := hsupply ▸ Nat.le_add_right _ _
    exact Nat.lt_of_le_of_lt (Nat.mul_le_mul_right 10000 hle) hfits

/-- From accounts that hold at most `MAX_SUPPLY`, a run of staking operations and slashes
lowers the supply by exactly what is slashed if and only if all its undelegations are
covered. -/
theorem slashes_alone_shrink_the_supply_iff (accounts : ExtTreeMap Address Account)
    (hgenesis : accounts.sumBy (fun _ x => x.balance.toNat) ≤ MAX_SUPPLY.toNat)
    (steps : List StakeStep) (hbounded : ∀ step ∈ steps, step.Bounded) :
    ShrinksBySlashes ⟨⟨accounts, ∅⟩⟩ steps ↔ CoveredRun ⟨⟨accounts, ∅⟩⟩ steps := by
  refine shrinksBySlashes_iff steps (represents_of_accounts accounts) ?_ hbounded
  have hmax : MAX_SUPPLY.toNat = 1100000000000000000 := by decide +kernel
  have hsupply : Ledger.supply ⟨accounts, ∅, ∅⟩ =
      accounts.sumBy (fun _ x => x.balance.toNat) := by
    simp [Ledger.supply, Ledger.balances, Ledger.stakes]
  omega

end Runs

end Pemrix

/-! ## A slash between a delegation and its end -/

namespace Pemrix.Concrete

/-- A validator and a delegator. -/
def stakers : ExtTreeMap Address Account :=
  ((∅ : ExtTreeMap Address Account).insert (addr 1) ⟨100000, 0⟩).insert (addr 3) ⟨10000, 0⟩

/-- The delegator puts in all it has, the validator is slashed, and the delegator takes a part
back. -/
def slash_between (policy : SlashingPolicy) (amount : Balance) : List StakeStep :=
  [.stake register_call.tx, .stake (staking_call (addr 1) (.Delegate (addr 3) 100000)).tx,
    .slash (addr 3) (.DoubleSign 100 0) policy 100,
    .stake (staking_call (addr 1) (.Undelegate (addr 3) amount)).tx]

theorem slash_between_bounded {policy : SlashingPolicy} (h : policy.Bounded) (amount : Balance) :
    ∀ step ∈ slash_between policy amount, step.Bounded := by
  intro step hstep
  simp only [slash_between, List.mem_cons, List.not_mem_nil, or_false] at hstep
  rcases hstep with rfl | rfl | rfl | rfl
  · trivial
  · trivial
  · exact h
  · trivial

theorem slash_of_a_part_is_covered :
    let s : StateStore InMemoryBackend := ⟨⟨stakers, ∅⟩⟩
    ShrinksBySlashes s (slash_between .default 100000) ∧
      CoveredRun s (slash_between .default 100000) := by
  intro s
  have hshrinks : ShrinksBySlashes s (slash_between .default 100000) := by decide +kernel
  refine ⟨hshrinks, ?_⟩
  refine (slashes_alone_shrink_the_supply_iff stakers (by decide +kernel) _ ?_).mp hshrinks
  exact slash_between_bounded ⟨by decide, by decide, by decide⟩ _

/-- A double sign costs the whole stake. -/
def whole_stake : SlashingPolicy := { SlashingPolicy.default with double_sign_bps := 10000 }

/-- A slash of the whole stake leaves nothing in the record of the validator and nothing in the
supply. The delegator still takes its 100000 back. -/
theorem slash_of_the_whole_stake_is_paid_out :
    let s : StateStore InMemoryBackend := ⟨⟨stakers, ∅⟩⟩
    let run := fun steps : List StakeStep => steps.foldl (fun s step => (step.execute s).2) s
    (∀ step ∈ slash_between whole_stake 100000, step.Bounded) ∧
      (run ((slash_between whole_stake 100000).take 3)).supply = 0 ∧
      (run (slash_between whole_stake 100000)).supply = 100000 ∧
      ¬ ShrinksBySlashes s (slash_between whole_stake 100000) := by
  intro s run
  exact ⟨slash_between_bounded ⟨by decide, by decide, by decide⟩ _, by decide +kernel,
    by decide +kernel, by decide +kernel⟩

end Pemrix.Concrete
