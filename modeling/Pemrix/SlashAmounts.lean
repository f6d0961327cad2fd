-- What a slash takes. Each call of `apply_slash` lowers the total stake by the amount it
-- returns, from the own stake first, and so does every run of calls, with no operation that
-- overflows or saturates.
import Pemrix.Arith
import Pemrix.SlashRuns

open Noted

namespace Pemrix

/-- `apply_slash` with the operations it does on the way. -/
def apply_slash_noted (record : ValidatorRecord) (misbehavior : Misbehavior)
    (current_height : UInt64) (policy : SlashingPolicy) : Arith (Balance × ValidatorRecord) := do
  let (slash_bps, jail_blocks) := policy.penalty misbehavior
  let stake ← Arith.saturating_add record.self_stake record.delegated_stake
  let product ← Arith.mul stake (BitVec.ofNat 128 slash_bps.toNat)
  let slash_amount ← Arith.div product 10000
  let jailed_until ← Arith.add_u64 current_height jail_blocks
  if slash_amount ≤ record.self_stake then
    let self_stake ← Arith.sub record.self_stake slash_amount
    return (slash_amount, { record with status := .Jailed, jailed_until, self_stake })
  else
    let remaining ← Arith.sub slash_amount record.self_stake
    let delegated_stake ← Arith.saturating_sub record.delegated_stake remaining
    return (slash_amount, { record with
      status := .Jailed, jailed_until, self_stake := 0, delegated_stake })

section Call

variable (record : ValidatorRecord) (misbehavior : Misbehavior) (current_height : UInt64)
  (policy : SlashingPolicy)

theorem value_apply_slash_noted :
    (apply_slash_noted record misbehavior current_height policy).value =
      apply_slash record misbehavior current_height policy := by
  unfold apply_slash_noted apply_slash ValidatorRecord.total_stake
  unfold Noted.value Arith.saturating_add Arith.mul Arith.div Arith.add_u64
  simp only [run_noted_bind]
  split
  · rfl
  · rfl

/-- What the call `(amount, after)` takes from a record. -/
structure TakesWhatItReports (out : Balance × ValidatorRecord) : Prop where
  amount : out.1.toNat =
    record.total_stake.toNat * (policy.penalty misbehavior).1.toNat / 10000
  total : out.2.total_stake.toNat + out.1.toNat = record.total_stake.toNat
  self_first : out.2.delegated_stake ≠ record.delegated_stake → out.2.self_stake = 0
  address : out.2.address = record.address
  consensus_pubkey : out.2.consensus_pubkey = record.consensus_pubkey
  commission_bps : out.2.commission_bps = record.commission_bps
  pending_rewards : out.2.pending_rewards = record.pending_rewards

variable {record misbehavior current_height policy}

theorem toNat_total_stake (h : record.self_stake.toNat + record.delegated_stake.toNat < 2 ^ 128) :
    record.total_stake.toNat = record.self_stake.toNat + record.delegated_stake.toNat := by
  unfold ValidatorRecord.total_stake
  rw [U128.saturating_add_of_lt h, U128.toNat_add h]

/-- One call: what it takes, and that each operation on the way is exact. -/
theorem meets_apply_slash_noted (hbps : (policy.penalty misbehavior).1 ≤ 10000)
    (hheight : current_height.toNat + (policy.penalty misbehavior).2.toNat < 2 ^ 64)
    (hfits : (record.self_stake.toNat + record.delegated_stake.toNat) * 10000 < 2 ^ 128) :
    Meets MachineOp.Exact (apply_slash_noted record misbehavior current_height policy)
      (TakesWhatItReports record misbehavior policy) := by
  have hstake : record.total_stake.toNat =
      record.self_stake.toNat + record.delegated_stake.toNat := toNat_total_stake (by omega)
  have hbps : (policy.penalty misbehavior).1.toNat ≤ 10000 := UInt16.le_iff_toNat_le.mp hbps
  have hcast : (BitVec.ofNat 128 (policy.penalty misbehavior).1.toNat).toNat =
      (policy.penalty misbehavior).1.toNat := by
    rw [BitVec.toNat_ofNat, Nat.mod_eq_of_lt (by omega)]
  have hten : (10000 : Balance).toNat = 10000 := rfl
  unfold apply_slash_noted
  dsimp only
  refine (Arith.meets_saturating_add (by omega)).bind ?_
  intro stake hsum
  have hmul : stake.toNat * (policy.penalty misbehavior).1.toNat ≤ stake.toNat * 10000 :=
    Nat.mul_le_mul_left _ hbps
  refine (Arith.meets_mul (by rw [hcast]; omega)).bind ?_
  intro product hproduct
  refine (Arith.meets_div (by rw [hten]; omega)).bind ?_
  intro slash_amount hdiv
  rw [hproduct, hcast, hten] at hdiv
  have hamount : slash_amount.toNat =
      record.total_stake.toNat * (policy.penalty misbehavior).1.toNat / 10000 := by
    rw [hdiv, hsum, hstake]
  refine (Arith.meets_add_u64 hheight).bind ?_
  intro jailed_until _
  split
  · -- The own stake covers the whole slash.
    rename_i hself
    have hself := BitVec.le_def.mp hself
    refine (Arith.meets_sub hself).bind ?_
    intro self_stake hleft
    refine meets_pure ⟨hamount, ?_, fun hne => absurd rfl hne, rfl, rfl, rfl, rfl⟩
    rw [toNat_total_stake (by dsimp only; omega)]
    dsimp only
    omega
  · -- The own stake is gone, and the delegated stake covers the rest.
    rename_i hself
    have hself := BitVec.lt_def.mp (BitVec.not_le.mp hself)
    refine (Arith.meets_sub (by omega)).bind ?_
    intro remaining hrest
    refine (Arith.meets_saturating_sub (by omega)).bind ?_
    intro delegated_stake hleft
    have hzero : (0 : Balance).toNat = 0 := rfl
    refine meets_pure ⟨hamount, ?_, fun _ => rfl, rfl, rfl, rfl, rfl⟩
    rw [toNat_total_stake (by dsimp only; omega)]
    dsimp only
    omega

end Call

/-! ## Runs -/

/-- A misbehaviour at a height. -/
structure Slash where
  misbehavior : Misbehavior
  current_height : UInt64
  deriving DecidableEq

namespace Slash

/-- The jail term ends at a height. -/
def Fits (policy : SlashingPolicy) (slash : Slash) : Prop :=
  slash.current_height.toNat + (policy.penalty slash.misbehavior).2.toNat < 2 ^ 64

def apply (policy : SlashingPolicy) (record : ValidatorRecord) (slash : Slash) :
    Balance × ValidatorRecord :=
  apply_slash record slash.misbehavior slash.current_height policy

def operations (policy : SlashingPolicy) (record : ValidatorRecord) (slash : Slash) :
    List MachineOp :=
  (apply_slash_noted record slash.misbehavior slash.current_height policy).operations

/-- The slashes in order: the amounts returned, and the record at the end. -/
def run (policy : SlashingPolicy) (record : ValidatorRecord) :
    List Slash → List Balance × ValidatorRecord
  | [] => ([], record)
  | slash :: later =>
    let (amount, record) := slash.apply policy record
    let (amounts, record) := run policy record later
    (amount :: amounts, record)

/-- Each slash of a run takes exactly what it returns, and no operation overflows. -/
def Exactly (policy : SlashingPolicy) (record : ValidatorRecord) : List Slash → Prop
  | [] => True
  | slash :: later =>
    TakesWhatItReports record slash.misbehavior policy (slash.apply policy record) ∧
      (∀ op ∈ slash.operations policy record, op.Exact) ∧
      Exactly policy (slash.apply policy record).2 later

variable {policy : SlashingPolicy} {record : ValidatorRecord}

theorem takes_what_it_reports {slash : Slash} (hpolicy : policy.Bounded)
    (hheight : slash.Fits policy)
    (hfits : (record.self_stake.toNat + record.delegated_stake.toNat) * 10000 < 2 ^ 128) :
    TakesWhatItReports record slash.misbehavior policy (slash.apply policy record) ∧
      ∀ op ∈ slash.operations policy record, op.Exact := by
  have hmeets := meets_apply_slash_noted (hpolicy.penalty slash.misbehavior) hheight hfits
  have htakes := hmeets.value
  rw [value_apply_slash_noted] at htakes
  exact ⟨htakes, hmeets.operations⟩

/-- The stake that is left fits as well. -/
theorem stake_fits_after {slash : Slash}
    (htakes : TakesWhatItReports record slash.misbehavior policy (slash.apply policy record))
    (hfits : (record.self_stake.toNat + record.delegated_stake.toNat) * 10000 < 2 ^ 128) :
    ((slash.apply policy record).2.self_stake.toNat +
      (slash.apply policy record).2.delegated_stake.toNat) * 10000 < 2 ^ 128 := by
  have hbefore : record.total_stake.toNat =
      record.self_stake.toNat + record.delegated_stake.toNat := toNat_total_stake (by omega)
  have hafter : (slash.apply policy record).2.total_stake.toNat = min _ _ :=
    U128.toNat_saturating_add _ _
  have htotal := htakes.total
  refine Nat.lt_of_le_of_lt (Nat.mul_le_mul_right 10000 ?_) hfits
  omega

theorem run_exactly (hpolicy : policy.Bounded) {slashes : List Slash}
    (hheights : ∀ slash ∈ slashes, slash.Fits policy)
    (hfits : (record.self_stake.toNat + record.delegated_stake.toNat) * 10000 < 2 ^ 128) :
    Exactly policy record slashes ∧
      record.total_stake.toNat = (run policy record slashes).2.total_stake.toNat +
        ((run policy record slashes).1.map BitVec.toNat).sum := by
  -- On the run. A slash leaves no more stake than it found.
  induction slashes generalizing record with
  | nil => exact ⟨trivial, rfl⟩
  | cons slash later ih =>
    obtain ⟨htakes, hexact⟩ := takes_what_it_reports hpolicy (hheights slash (by simp)) hfits
    obtain ⟨hlater, hsum⟩ := ih (fun slash' h => hheights slash' (by simp [h]))
      (stake_fits_after htakes hfits)
    refine ⟨⟨htakes, hexact, hlater⟩, ?_⟩
    have htotal := htakes.total
    simp only [run, List.map_cons, List.sum_cons]
    omega

/-- In every run of slashes of a record that holds at most `MAX_SUPPLY`, each slash lowers the
total stake by what it returns, with exact operations only, and so does the whole run. -/
theorem slashing_takes_exactly_what_it_reports (policy : SlashingPolicy) (hpolicy : policy.Bounded)
    (record : ValidatorRecord)
    (hsupply : record.self_stake.toNat + record.delegated_stake.toNat ≤ MAX_SUPPLY.toNat)
    (slashes : List Slash) (hheights : ∀ slash ∈ slashes, slash.Fits policy) :
    Exactly policy record slashes ∧
      record.total_stake.toNat = (run policy record slashes).2.total_stake.toNat +
        ((run policy record slashes).1.map BitVec.toNat).sum := by
  have hmax : MAX_SUPPLY.toNat = 1100000000000000000 := by decide +kernel
  exact run_exactly hpolicy hheights (by omega)

end Slash

namespace Concrete

/-- A validator whose stake is delegated for the most part. -/
def delegated_for_the_most_part : ValidatorRecord :=
  { ValidatorRecord.new (addr 3) [1, 2, 3] 10000 500 with delegated_stake := 990000 }

/-- The double sign costs 50000, which is more than the own stake, and the downtime 950. -/
theorem two_slashes_take_what_they_report :
    let slashes : List Slash := [⟨.DoubleSign 100 0, 100⟩, ⟨.Downtime 6 10, 101⟩]
    (Slash.run .default delegated_for_the_most_part slashes).1 = [50000, 950] ∧
      (1000000 : Nat) =
        (Slash.run .default delegated_for_the_most_part slashes).2.total_stake.toNat +
          ((Slash.run .default delegated_for_the_most_part slashes).1.map BitVec.toNat).sum := by
  intro slashes
  have hheights : ∀ slash ∈ slashes, slash.Fits .default := by
    intro slash hslash
    simp only [slashes, List.mem_cons, List.not_mem_nil, or_false] at hslash
    rcases hslash with rfl | rfl
    · show _ < 2 ^ 64
      decide
    · show _ < 2 ^ 64
      decide
  refine ⟨by decide +kernel, ?_⟩
  exact (Slash.slashing_takes_exactly_what_it_reports .default
    ⟨by decide, by decide, by decide⟩ delegated_for_the_most_part (by decide +kernel) slashes
    hheights).2

end Concrete

end Pemrix
